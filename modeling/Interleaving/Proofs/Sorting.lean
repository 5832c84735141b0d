import Interleaving.Event.Key
import Interleaving.Sorting
import Mathlib.Data.List.Sort

/-!
# Sorted lists are unique

Sorting reorders a list (`Interleaving.Sorting.sort_perm`) and puts it in increasing order
(`Interleaving.Sorting.pairwise_sort`). Where no two different elements are equivalent there is one
such order, so the result depends on the elements only. Keys are compared by task and then by place;
the one case in which different keys are equivalent is that of negative tasks, and the first event
is the only one with such a key that a graph holds (`Interleaving.Key.Named`). **Sorted lists of
such keys with the same elements are equal** (`Interleaving.Key.eq_of_sorted`).
-/

namespace Interleaving

namespace Sorting

variable {α : Type} {le : α → α → Bool}

theorem insert_perm (a : α) (l : List α) : (insert le a l).Perm (a :: l) := by
  induction l with
  | nil => exact List.Perm.refl _
  | cons b l ih =>
    unfold insert
    split
    · exact List.Perm.refl _
    · exact (ih.cons b).trans (List.Perm.swap a b l)

/-- Sorting only reorders. -/
theorem sort_perm (l : List α) : (sort le l).Perm l := by
  induction l with
  | nil => exact List.Perm.refl _
  | cons a l ih => exact (insert_perm a _).trans (ih.cons a)

variable (htotal : ∀ a b, le a b = true ∨ le b a = true)
  (htrans : ∀ {a b c}, le a b = true → le b c = true → le a c = true)
include htotal htrans

theorem pairwise_insert (a : α) {l : List α} (h : l.Pairwise fun x y => le x y = true) :
    (insert le a l).Pairwise fun x y => le x y = true := by
  induction l with
  | nil => exact List.pairwise_singleton _ _
  | cons b l ih =>
    obtain ⟨hb, hl⟩ := List.pairwise_cons.mp h
    unfold insert
    split
    · rename_i hab
      refine List.pairwise_cons.mpr ⟨fun c hc => ?_, h⟩
      rcases List.mem_cons.mp hc with rfl | hc
      · exact hab
      · exact htrans hab (hb c hc)
    · rename_i hab
      refine List.pairwise_cons.mpr ⟨fun c hc => ?_, ih hl⟩
      rcases List.mem_cons.mp ((insert_perm a l).mem_iff.mp hc) with rfl | hc
      · exact (htotal b c).resolve_right hab
      · exact hb c hc

/-- **Sorting puts a list in increasing order.** -/
theorem pairwise_sort (l : List α) : (sort le l).Pairwise fun x y => le x y = true := by
  induction l with
  | nil => exact List.Pairwise.nil
  | cons a l ih => exact pairwise_insert htotal htrans a ih

end Sorting

namespace Key

variable {a b c : Key} {ks ls : List Key}

/-- A key that a graph can hold: that of the first event, or one of a task. -/
def Named (k : Key) : Prop := k.isInit = true → k = .init

theorem compare_ne_gt_iff : (a.compare b != .gt) = true ↔
    a.task < 0 ∨ 0 ≤ b.task ∧ (a.task < b.task ∨ a.task = b.task ∧ a.seq ≤ b.seq) := by
  unfold compare
  simp only [isInit, Bool.and_eq_true, decide_eq_true_eq]
  split_ifs <;> simp <;> omega

theorem compare_total (a b : Key) : (a.compare b != .gt) = true ∨ (b.compare a != .gt) = true := by
  rw [compare_ne_gt_iff, compare_ne_gt_iff]
  omega

theorem compare_trans (hab : (a.compare b != .gt) = true) (hbc : (b.compare c != .gt) = true) :
    (a.compare c != .gt) = true := by
  rw [compare_ne_gt_iff] at hab hbc ⊢
  omega

/-- **Keys that compare as equal are equal.** -/
theorem Named.antisymm (ha : a.Named) (hb : b.Named) (hab : (a.compare b != .gt) = true)
    (hba : (b.compare a != .gt) = true) : a = b := by
  rw [compare_ne_gt_iff] at hab hba
  by_cases hneg : a.task < 0
  · have hneg' : b.task < 0 := by omega
    rw [ha (decide_eq_true hneg), hb (decide_eq_true hneg')]
  · obtain ⟨t, i⟩ := a
    obtain ⟨u, j⟩ := b
    dsimp only at hab hba hneg
    rw [Key.mk.injEq]
    omega

theorem sort_perm (ks : List Key) : (Key.sort ks).Perm ks := Sorting.sort_perm ks

theorem pairwise_sort (ks : List Key) :
    (Key.sort ks).Pairwise fun a b => (a.compare b != .gt) = true :=
  Sorting.pairwise_sort compare_total compare_trans ks

/-- **Sorted lists with the same elements are equal.** -/
theorem eq_of_sorted (hks : ks.Pairwise fun a b => (a.compare b != .gt) = true)
    (hls : ls.Pairwise fun a b => (a.compare b != .gt) = true) (hperm : ks.Perm ls)
    (hnamed : ∀ k ∈ ks, k.Named) : ks = ls :=
  List.Perm.eq_of_pairwise (fun a b ha hb =>
    (hnamed a ha).antisymm (hnamed b (hperm.mem_iff.mpr hb))) hks hls hperm

/-- Lists with the same elements are sorted into the same list. -/
theorem sort_eq_of_perm (hperm : ks.Perm ls) (hnamed : ∀ k ∈ ks, k.Named) : sort ks = sort ls := by
  refine eq_of_sorted (pairwise_sort ks) (pairwise_sort ls) ?_ fun k hk =>
    hnamed k ((sort_perm ks).mem_iff.mp hk)
  exact (sort_perm ks).trans (hperm.trans (sort_perm ls).symm)

/-- Lists that are sorted into the same list have the same elements. -/
theorem perm_of_sort_eq (h : sort ks = sort ls) : ks.Perm ls :=
  (sort_perm ks).symm.trans ((List.Perm.of_eq h).trans (sort_perm ls))

/-- Leaving elements out and sorting commute. -/
theorem filter_sort (p : Key → Bool) (hnamed : ∀ k ∈ ks, k.Named) :
    (sort ks).filter p = sort (ks.filter p) := by
  refine eq_of_sorted ((pairwise_sort ks).filter p) (pairwise_sort _) ?_ fun k hk => ?_
  · exact ((sort_perm ks).filter p).trans (sort_perm _).symm
  · exact hnamed k ((sort_perm ks).mem_iff.mp (List.mem_of_mem_filter hk))

end Key

end Interleaving
