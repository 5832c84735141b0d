import Mathlib.Data.List.Basic
import Mathlib.Tactic.Tauto

/-!
# The order of a list

`Interleaving.Before l a b` says that `a` stands before `b` in `l`; an element that is listed more
than once counts at its first place. Taking elements out keeps the order of the others
(`Interleaving.before_filter`), and elements that are added at the end come after all that were
there (`Interleaving.before_append`).
-/

namespace Interleaving

variable {α : Type} [DecidableEq α] {l l' : List α} {a b c : α}

/-- The first element stands before the second one. -/
def Before (l : List α) (a b : α) : Prop := b ∈ l ∧ l.idxOf a < l.idxOf b

theorem Before.right_mem (h : Before l a b) : b ∈ l := h.1

theorem Before.left_mem (h : Before l a b) : a ∈ l :=
  List.idxOf_lt_length_iff.mp (Nat.lt_trans h.2 (List.idxOf_lt_length_of_mem h.1))

theorem Before.trans (h : Before l a b) (h' : Before l b c) : Before l a c :=
  ⟨h'.1, Nat.lt_trans h.2 h'.2⟩

theorem Before.trans_le (h : Before l a b) (h' : b = c ∨ Before l b c) : Before l a c := by
  rcases h' with rfl | h'
  · exact h
  · exact h.trans h'

theorem Before.irrefl (l : List α) (a : α) : ¬Before l a a := fun h => Nat.lt_irrefl _ h.2

theorem Before.asymm (h : Before l a b) : ¬Before l b a := fun h' => Before.irrefl l a (h.trans h')

theorem Before.ne (h : Before l a b) : a ≠ b := by
  rintro rfl
  exact Before.irrefl l a h

/-- Of two elements one stands before the other. -/
theorem before_total (ha : a ∈ l) (hb : b ∈ l) : a = b ∨ Before l a b ∨ Before l b a := by
  rcases Nat.lt_trichotomy (l.idxOf a) (l.idxOf b) with h | h | h
  · exact Or.inr (Or.inl ⟨hb, h⟩)
  · exact Or.inl ((List.idxOf_inj ha).mp h)
  · exact Or.inr (Or.inr ⟨ha, h⟩)

theorem before_of_not_before (ha : a ∈ l) (hb : b ∈ l) (hne : a ≠ b) (h : ¬Before l b a) :
    Before l a b :=
  ((before_total ha hb).resolve_left hne).resolve_right h

/-- What comes first in a list stands before all else. -/
theorem before_cons {x : α} :
    Before (x :: l) a b ↔ b ≠ x ∧ (a = x ∧ b ∈ l ∨ a ≠ x ∧ Before l a b) := by
  unfold Before
  by_cases hb : b = x
  · subst hb
    simp [List.idxOf_cons_self]
  · have hbx : (x == b) = false := beq_eq_false_iff_ne.mpr (Ne.symm hb)
    by_cases ha : a = x
    · subst ha
      simp [List.idxOf_cons, hbx, hb]
    · have hax : (x == a) = false := beq_eq_false_iff_ne.mpr (Ne.symm ha)
      simp [List.idxOf_cons, hax, hbx, ha, hb]

/-- What is added at the end comes after all that was there. -/
theorem before_append :
    Before (l ++ l') a b ↔
      Before l a b ∨ b ∉ l ∧ (a ∈ l ∧ b ∈ l' ∨ a ∉ l ∧ Before l' a b) := by
  induction l with
  | nil => simp [Before]
  | cons x l ih =>
    rw [List.cons_append, before_cons, before_cons, ih]
    by_cases hb : b = x
    · simp [hb]
    · by_cases ha : a = x
      · by_cases hbl : b ∈ l
        · simp [ha, hb, hbl]
        · simp [ha, hb, hbl]
      · simp [ha, hb]

theorem before_append_of_mem (hb : b ∈ l) : Before (l ++ l') a b ↔ Before l a b := by
  simp [before_append, hb]

/-- **Taking elements out keeps the order of the others.** -/
theorem before_filter {p : α → Bool} :
    Before (l.filter p) a b ↔ p a = true ∧ p b = true ∧ Before l a b := by
  induction l with
  | nil => simp [Before]
  | cons x l ih =>
    by_cases hx : p x = true
    · rw [List.filter_cons_of_pos hx, before_cons, before_cons, ih, List.mem_filter]
      by_cases ha : a = x
      · subst ha
        simp [hx]
        tauto
      · simp [ha]
        tauto
    · rw [List.filter_cons_of_neg hx, ih, before_cons]
      by_cases ha : a = x
      · subst ha
        simp [hx]
      · by_cases hb : b = x
        · subst hb
          simp [hx]
        · simp [ha, hb]

end Interleaving
