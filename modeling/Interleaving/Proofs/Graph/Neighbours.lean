import Interleaving.Proofs.Before
import Mathlib.Data.List.Infix
import Mathlib.Data.List.Nodup

/-!
# Neighbours in a list

Two elements are **neighbours** in a list when the second one comes right after the first,
`[x, y] <:+: xs`. In a list without repetitions an element has one next neighbour
(`Interleaving.eq_of_adjacent`), there is one between an element and any other one further down
(`Interleaving.exists_infix_of_before`), and what holds of all neighbours and passes on holds of any
two elements (`Interleaving.pairwise_of_adjacent`).
-/

namespace Interleaving

variable {α : Type} {R : α → α → Prop} {x y z a b c : α} {xs l : List α}

/-- In front of a list an element has one neighbour, the head. -/
theorem infix_cons_iff :
    [a, b] <:+: x :: l ↔ (a = x ∧ l.head? = some b) ∨ [a, b] <:+: l := by
  rw [List.infix_cons_iff, List.cons_prefix_cons]
  refine or_congr_left (and_congr_right fun _ => ?_)
  cases l with
  | nil => simp
  | cons y l => simp [eq_comm]

/-- Behind a list an element has one neighbour, the last one. -/
theorem infix_concat_iff : [a, b] <:+: l ++ [x] ↔ [a, b] <:+: l ∨ l.getLast? = some a ∧ b = x := by
  induction l with
  | nil =>
    refine iff_of_false (fun h => by simpa using h.length_le) ?_
    rintro (h | ⟨h, -⟩)
    · simpa using h.length_le
    · cases h
  | cons d l ih =>
    rw [List.cons_append, infix_cons_iff, infix_cons_iff, ih, ← or_assoc]
    cases l with
    | nil =>
      have hnot : ¬[a, b] <:+: ([] : List α) := fun h => by simpa using h.length_le
      simp only [List.nil_append, List.head?_cons, List.head?_nil, Option.some_inj,
        List.getLast?_nil, hnot, List.getLast?_singleton, reduceCtorEq, and_false, false_and,
        or_false, false_or, eq_comm]
    | cons y l => simp only [List.cons_append, List.head?_cons, List.getLast?_cons_cons]

/-- Without duplicates an element has one neighbour behind it. -/
theorem eq_of_adjacent (hnodup : xs.Nodup) (hy : [x, y] <:+: xs) (hz : [x, z] <:+: xs) : y = z := by
  induction xs with
  | nil => simpa using hy.length_le
  | cons d xs ih =>
    rw [List.nodup_cons] at hnodup
    rw [infix_cons_iff] at hy hz
    rcases hy with ⟨rfl, hy⟩ | hy
    · rcases hz with ⟨-, hz⟩ | hz
      · rw [hy] at hz
        exact Option.some.inj hz
      · exact absurd (hz.subset List.mem_cons_self) hnodup.1
    · rcases hz with ⟨rfl, -⟩ | hz
      · exact absurd (hy.subset List.mem_cons_self) hnodup.1
      · exact ih hnodup.2 hy hz

/-- A transitive relation between neighbours holds between any two elements. -/
theorem pairwise_of_adjacent
    (htrans : ∀ {x y z}, R x y → R y z → R x z) (h : ∀ x y, [x, y] <:+: xs → R x y) :
    xs.Pairwise R := by
  induction xs with
  | nil => exact .nil
  | cons d xs ih =>
    have hrest := ih fun x y hxy => h x y (infix_cons_iff.mpr (Or.inr hxy))
    refine List.pairwise_cons.mpr ⟨fun z hz => ?_, hrest⟩
    cases xs with
    | nil => cases hz
    | cons y ys =>
      have hdy := h d y (infix_cons_iff.mpr (Or.inl ⟨rfl, rfl⟩))
      rcases List.mem_cons.mp hz with rfl | hz
      · exact hdy
      · exact htrans hdy ((List.pairwise_cons.mp hrest).1 z hz)

variable [DecidableEq α]

/-- What stands before one of two neighbours stands before the other one. -/
theorem Before.of_adjacent (hnodup : l.Nodup) (h : [a, b] <:+: l) :
    Before l a b ∧ ∀ c, Before l c b → c ≠ a → Before l c a := by
  obtain ⟨l₁, l₂, rfl⟩ := h
  have hl : l₁ ++ [a, b] ++ l₂ = l₁ ++ a :: b :: l₂ := by simp
  rw [hl] at hnodup ⊢
  obtain ⟨-, htail, hdisj⟩ := List.nodup_append.mp hnodup
  have ha : a ∉ l₁ := fun hin => hdisj a hin a List.mem_cons_self rfl
  have hb : b ∉ l₁ := fun hin => hdisj b hin b (List.mem_cons_of_mem _ List.mem_cons_self) rfl
  have hab : a ≠ b := fun heq => (List.nodup_cons.mp htail).1 (heq ▸ List.mem_cons_self)
  constructor
  · refine before_append.mpr
      (Or.inr ⟨hb, Or.inr ⟨ha, before_cons.mpr ⟨Ne.symm hab, Or.inl ⟨rfl, ?_⟩⟩⟩⟩)
    exact List.mem_cons_self
  · intro c hc hca
    rcases before_append.mp hc with hc | ⟨-, ⟨hc, -⟩ | ⟨-, hc⟩⟩
    · exact absurd hc.right_mem hb
    · exact before_append.mpr (Or.inr ⟨ha, Or.inl ⟨hc, List.mem_cons_self⟩⟩)
    · rcases (before_cons.mp hc).2 with ⟨heq, -⟩ | ⟨-, hc⟩
      · exact absurd heq hca
      · exact absurd rfl (before_cons.mp hc).1

/-- What holds pairwise holds of an element and one that comes later. -/
theorem rel_of_before (h : xs.Pairwise R) (hxy : Before xs x y) : R x y := by
  induction xs with
  | nil => exact absurd hxy.right_mem List.not_mem_nil
  | cons d xs ih =>
    obtain ⟨hd, hrest⟩ := List.pairwise_cons.mp h
    obtain ⟨-, ⟨rfl, hy⟩ | ⟨-, hxy⟩⟩ := before_cons.mp hxy
    · exact hd y hy
    · exact ih hrest hxy

/-- Of two neighbours one comes before the other. -/
theorem before_of_adjacent (hnodup : xs.Nodup) (h : [x, y] <:+: xs) : Before xs x y :=
  (Before.of_adjacent hnodup h).1

/-- Between an element and one further down there is the next one. -/
theorem exists_infix_of_before (hnodup : xs.Nodup) (h : Before xs x y) :
    ∃ z, [x, z] <:+: xs ∧ (z = y ∨ Before xs z y) := by
  induction xs with
  | nil => exact absurd h.right_mem List.not_mem_nil
  | cons d xs ih =>
    rw [List.nodup_cons] at hnodup
    obtain ⟨hyd, ⟨rfl, hy⟩ | ⟨hxd, hxy⟩⟩ := before_cons.mp h
    · cases xs with
      | nil => cases hy
      | cons z zs =>
        refine ⟨z, infix_cons_iff.mpr (Or.inl ⟨rfl, rfl⟩), ?_⟩
        by_cases hzy : z = y
        · exact Or.inl hzy
        · have hzd : z ≠ x := fun heq => hnodup.1 (heq ▸ List.mem_cons_self)
          refine Or.inr (before_cons.mpr
            ⟨hyd, Or.inr ⟨hzd, before_cons.mpr ⟨Ne.symm hzy, Or.inl ⟨rfl, ?_⟩⟩⟩⟩)
          exact (List.mem_cons.mp hy).resolve_left (Ne.symm hzy)
    · obtain ⟨z, hz, hzy⟩ := ih hnodup.2 hxy
      have hzd : z ≠ d := fun heq => hnodup.1 (heq ▸ hz.subset (by simp))
      exact ⟨z, infix_cons_iff.mpr (Or.inr hz),
        hzy.imp_right fun hb => before_cons.mpr ⟨hyd, Or.inr ⟨hzd, hb⟩⟩⟩

end Interleaving
