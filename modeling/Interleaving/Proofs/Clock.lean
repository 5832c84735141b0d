import Interleaving.Clock

/-!
# Clocks as counters

A clock is what it counts for each task; how many counters it lists does not matter. In these terms
merging takes the greater count (`Interleaving.Clock.count_merge`), the successor adds one for its
task (`Interleaving.Clock.count_successor`), and a clock is before another one when it is below it
and different from it (`Interleaving.Clock.before_iff`). So the laws of clocks are those of
integers, task by task: clocks that count nothing below zero are **a join semilattice**
(`Interleaving.Clock.joinSemilattice`), with merging as its join and with being before as its strict
order.
-/

namespace Interleaving.Clock

variable {a b c : Clock}

@[simp] theorem count_empty (t : Nat) : empty.count t = 0 := rfl

/-- No counter is negative. -/
def Nonneg (c : Clock) : Prop := ∀ t, 0 ≤ c.count t

theorem nonneg_empty : empty.Nonneg := fun _ => Int.le_refl 0

/-- A task that is not listed counts as zero. -/
theorem count_of_length_le {t : Nat} (h : c.counts.length ≤ t) : c.count t = 0 := by
  unfold count
  rw [List.getElem?_eq_none h]
  rfl

/-- Only the counters that are listed matter. -/
theorem nonneg_iff : c.Nonneg ↔ ∀ n ∈ c.counts, 0 ≤ n := by
  constructor
  · intro h n hn
    obtain ⟨t, ht⟩ := List.getElem?_of_mem hn
    have := h t
    rwa [count, ht] at this
  · intro h t
    unfold count
    cases ht : c.counts[t]? with
    | none => exact Int.le_refl 0
    | some n => exact h n (List.mem_of_getElem? ht)

/-- Counts are merged task by task. -/
theorem getElem?_mergeCounts (as bs : List Int) (has : ∀ i : Nat, 0 ≤ as[i]?.getD 0) (i : Nat) :
    (mergeCounts as bs)[i]?.getD 0 = max (as[i]?.getD 0) (bs[i]?.getD 0) := by
  induction as, bs using mergeCounts.induct generalizing i with
  | case1 bs =>
    rw [mergeCounts, List.getElem?_map]
    cases h : bs[i]? with
    | none => simp
    | some b => simp
  | case2 as hne =>
    rw [mergeCounts]
    · exact (Int.max_eq_left (has i)).symm
    · exact hne
  | case3 a as b bs ih =>
    rw [mergeCounts]
    cases i with
    | zero => simp
    | succ i =>
      have ih := ih (fun i => by simpa using has (i + 1)) i
      simpa using ih

/-- **Merging takes the greater count.** -/
theorem count_merge (ha : a.Nonneg) (b : Clock) (t : Nat) :
    (a.merge b).count t = max (a.count t) (b.count t) := getElem?_mergeCounts a.counts b.counts ha t

theorem mergeCounts_nil_right (as : List Int) : mergeCounts as [] = as := by
  cases as <;> rfl

/-- Two merges can change places. -/
theorem mergeCounts_right_comm (as bs cs : List Int) :
    mergeCounts (mergeCounts as bs) cs = mergeCounts (mergeCounts as cs) bs := by
  have hmax : ∀ a b c : Int, max (max a b) c = max (max a c) b := by omega
  induction as generalizing bs cs with
  | nil =>
    -- counters that the first clock does not list are those of the other two, cut off at zero
    simp only [mergeCounts]
    induction bs generalizing cs with
    | nil => rw [mergeCounts_nil_right]; rfl
    | cons b bs ih =>
      cases cs with
      | nil => rw [mergeCounts_nil_right]; rfl
      | cons c cs => simp only [List.map_cons, mergeCounts, ih, hmax]
  | cons a as ih =>
    cases bs with
    | nil => simp only [mergeCounts_nil_right]
    | cons b bs =>
      cases cs with
      | nil => simp only [mergeCounts_nil_right]
      | cons c cs => simp only [mergeCounts, ih, hmax]

/-- **The order in which clocks are merged into one does not matter.** -/
theorem merge_right_comm (a b c : Clock) : (a.merge b).merge c = (a.merge c).merge b :=
  congrArg Clock.mk (mergeCounts_right_comm a.counts b.counts c.counts)

theorem Nonneg.merge (ha : a.Nonneg) (b : Clock) : (a.merge b).Nonneg := by
  intro t
  rw [count_merge ha]
  have := ha t
  omega

theorem getElem?_grow (n t : Nat) : (c.grow n).counts[t]?.getD 0 = c.count t := by
  unfold grow count
  dsimp only
  rw [List.getElem?_append]
  split
  · rfl
  · rename_i h
    rw [List.getElem?_eq_none (l := c.counts) (by omega), List.getElem?_replicate]
    split <;> rfl

/-- **The successor adds one for its task.** -/
theorem count_successor (c : Clock) (t u : Nat) :
    (c.successor t).count u = if u = t then Word.wrap (c.count t + 1) else c.count u := by
  have hlength : t < (c.grow (t + 1)).counts.length := by
    simp [grow]
    omega
  unfold successor
  rw [count]
  dsimp only
  rw [List.getElem?_modify]
  by_cases h : u = t
  · subst h
    have hgrow := getElem?_grow (c := c) (u + 1) u
    rw [List.getElem?_eq_getElem hlength] at hgrow ⊢
    simp only [Option.getD_some] at hgrow
    simp [hgrow]
  · have h' : ¬t = u := fun heq => h heq.symm
    rw [if_neg h, ← getElem?_grow (c := c) (t + 1) u]
    cases (c.grow (t + 1)).counts[u]? <;> simp [h']

/-- A comparison of all listed counters is one of all counters. -/
theorem all_range_iff {p : Int → Int → Bool} (h : p 0 0 = true) (a b : Clock) :
    ((List.range (max a.counts.length b.counts.length)).all fun i =>
      p (a.count i) (b.count i)) = true ↔
      ∀ t, p (a.count t) (b.count t) = true := by
  rw [List.all_eq_true]
  constructor
  · intro hall t
    by_cases ht : t < max a.counts.length b.counts.length
    · exact hall t (List.mem_range.mpr ht)
    · rw [count_of_length_le (c := a) (by omega), count_of_length_le (c := b) (by omega)]
      exact h
  · exact fun hall t _ => hall t

/-- A clock dominates another one when it does for every task. -/
theorem dominates_iff : a.dominates b = true ↔ ∀ t, b.count t ≤ a.count t := by
  rw [dominates, all_range_iff (p := fun x y => decide (y ≤ x)) (by decide)]
  simp only [decide_eq_true_eq]

/-- Clocks are equal when they count the same for every task. -/
theorem equal_iff : a.equal b = true ↔ ∀ t, a.count t = b.count t := by
  rw [equal, all_range_iff (p := fun x y => x == y) (by decide)]
  simp only [beq_iff_eq]

/-- **A clock is before another one when it is below it and different from it.** -/
theorem before_iff : a.before b = true ↔
    (∀ t, a.count t ≤ b.count t) ∧ ∃ t, a.count t ≠ b.count t := by
  have hequal : (!a.equal b) = true ↔ ∃ t, a.count t ≠ b.count t := by
    rw [Bool.not_eq_true', ← Bool.not_eq_true, equal_iff, Classical.not_forall]
  rw [before, Bool.and_eq_true, dominates_iff, hequal]

/-! ### Dominance -/

theorem dominates_refl (a : Clock) : a.dominates a = true :=
  dominates_iff.mpr fun _ => Int.le_refl _

theorem dominates_trans (hab : a.dominates b = true) (hbc : b.dominates c = true) :
    a.dominates c = true := by
  rw [dominates_iff] at hab hbc ⊢
  exact fun t => Int.le_trans (hbc t) (hab t)

/-- Clocks that dominate one another count the same. -/
theorem dominates_and_dominates_iff : a.dominates b = true ∧ b.dominates a = true ↔
    a.equal b = true := by
  simp only [dominates_iff, equal_iff, ← forall_and]
  exact forall_congr' fun t => by omega

/-! ### Being before -/

/-- No clock is before itself. -/
theorem before_irrefl (a : Clock) : a.before a = false := by
  rw [Bool.eq_false_iff]
  intro h
  obtain ⟨-, t, ht⟩ := before_iff.mp h
  exact ht rfl

/-- A task that tells the first clock from the second one tells it from all later clocks. -/
theorem before_trans (hab : a.before b = true) (hbc : b.before c = true) : a.before c = true := by
  obtain ⟨hle, t, ht⟩ := before_iff.mp hab
  obtain ⟨hle', -⟩ := before_iff.mp hbc
  have hlt : a.count t < c.count t :=
    Int.lt_of_lt_of_le (Int.lt_iff_le_and_ne.mpr ⟨hle t, ht⟩) (hle' t)
  exact before_iff.mpr ⟨fun u => Int.le_trans (hle u) (hle' u), t, Int.ne_of_lt hlt⟩

/-- Only what clocks count decides which one is before the other. -/
theorem before_congr {a' b' : Clock} (ha : a.equal a' = true) (hb : b.equal b' = true) :
    a.before b = a'.before b' := by
  rw [equal_iff] at ha hb
  rw [Bool.eq_iff_iff, before_iff, before_iff]
  simp only [ha, hb]

/-! ### Merging -/

/-- A merge dominates the first clock. -/
theorem merge_dominates_left (ha : a.Nonneg) (b : Clock) : (a.merge b).dominates a = true :=
  dominates_iff.mpr fun t => (count_merge ha b t).symm ▸ Int.le_max_left _ _

theorem merge_dominates_right (ha : a.Nonneg) (b : Clock) : (a.merge b).dominates b = true :=
  dominates_iff.mpr fun t => (count_merge ha b t).symm ▸ Int.le_max_right _ _

/-- A clock above two others is above what they are merged into. -/
theorem dominates_merge (ha : a.Nonneg) (hca : c.dominates a = true) (hcb : c.dominates b = true) :
    c.dominates (a.merge b) = true := by
  rw [dominates_iff] at hca hcb ⊢
  intro t
  rw [count_merge ha]
  exact Int.max_le.mpr ⟨hca t, hcb t⟩

theorem merge_comm_equal (ha : a.Nonneg) (hb : b.Nonneg) : (a.merge b).equal (b.merge a) = true :=
  equal_iff.mpr fun t => by rw [count_merge ha, count_merge hb, Int.max_comm]

theorem merge_assoc_equal (ha : a.Nonneg) (hb : b.Nonneg) (c : Clock) :
    ((a.merge b).merge c).equal (a.merge (b.merge c)) = true :=
  equal_iff.mpr fun t => by
    rw [count_merge (ha.merge b), count_merge ha, count_merge ha, count_merge hb, Int.max_assoc]

theorem merge_self_equal (ha : a.Nonneg) : (a.merge a).equal a = true :=
  equal_iff.mpr fun t => by rw [count_merge ha, Int.max_self]

/-! ### The successor -/

/-- A word that is not the greatest one has a greater word next to it; the greatest one does not. -/
theorem lt_wrap_succ_iff {n : Int} (h : 0 ≤ n) : n < Word.wrap (n + 1) ↔ n < Word.greatest := by
  have hwrap : Word.wrap (n + 1) ≤ Word.greatest := by
    have hlt : Word.wrap (n + 1) < (Word.modulus + 1) / 2 := Int.bmod_lt (by decide)
    simp only [Word.modulus, Word.greatest] at hlt ⊢
    omega
  constructor
  · intro hlt
    omega
  · intro hlt
    have hlow : Word.least ≤ n + 1 := Int.le_trans (by decide) (Int.le_add_one h)
    rw [Word.wrap_of_fits (Bool.and_eq_true_iff.mpr ⟨decide_eq_true hlow, decide_eq_true hlt⟩)]
    omega

/-- **A clock is before its successor** as long as there is a next word for the task to count
with. -/
theorem before_successor_iff {t : Nat} (h : 0 ≤ a.count t) :
    a.before (a.successor t) = true ↔ a.count t < Word.greatest := by
  have hcount : (a.successor t).count t = Word.wrap (a.count t + 1) := by
    rw [count_successor, if_pos rfl]
  have hother : ∀ u, u ≠ t → (a.successor t).count u = a.count u := fun u hu => by
    rw [count_successor, if_neg hu]
  rw [before_iff, ← lt_wrap_succ_iff h, ← hcount]
  constructor
  · rintro ⟨hle, u, hu⟩
    have htask : u = t := Classical.byContradiction fun hne => hu (hother u hne).symm
    subst htask
    exact Int.lt_iff_le_and_ne.mpr ⟨hle u, hu⟩
  · intro hlt
    refine ⟨fun u => ?_, t, Int.ne_of_lt hlt⟩
    by_cases hu : u = t
    · subst hu
      exact Int.le_of_lt hlt
    · exact Int.le_of_eq (hother u hu).symm

/-- **Clocks are a join semilattice**, whatever numbers of counters they list. Dominance is a
preorder that takes clocks with the same counts for equal, being before is its strict part, merging
gives the least clock above two others, and the successor of a clock is behind it, with the same
counts for all other tasks. The one exception is a task that has been counted up to the greatest
word: its next count is the least word. -/
theorem joinSemilattice (ha : a.Nonneg) (hb : b.Nonneg) (c : Clock) :
    (a.dominates a = true ∧ (a.dominates b = true → b.dominates c = true → a.dominates c = true) ∧
      (a.dominates b = true ∧ b.dominates a = true ↔ a.equal b = true)) ∧
    (a.before a = false ∧ (a.before b = true → b.before c = true → a.before c = true) ∧
      ∀ a' b', a.equal a' = true → b.equal b' = true → a.before b = a'.before b') ∧
    ((a.merge b).dominates a = true ∧ (a.merge b).dominates b = true ∧
      (c.dominates a = true → c.dominates b = true → c.dominates (a.merge b) = true)) ∧
    ((a.merge b).equal (b.merge a) = true ∧
      ((a.merge b).merge c).equal (a.merge (b.merge c)) = true ∧ (a.merge a).equal a = true) ∧
    ∀ t, (a.before (a.successor t) = true ↔ a.count t < Word.greatest) ∧
      ∀ u, u ≠ t → (a.successor t).count u = a.count u := by
  refine ⟨⟨dominates_refl a, dominates_trans, dominates_and_dominates_iff⟩,
    ⟨before_irrefl a, before_trans, fun a' b' => before_congr⟩,
    ⟨merge_dominates_left ha b, merge_dominates_right ha b, dominates_merge ha⟩,
    ⟨merge_comm_equal ha hb, merge_assoc_equal ha hb c, merge_self_equal ha⟩,
    fun t => ⟨before_successor_iff (ha t), fun u hu => ?_⟩⟩
  rw [count_successor, if_neg hu]

/-- Two tasks have been counted. -/
def shortClock : Clock := ⟨[3, 1]⟩

/-- Three tasks have been counted, the first one not as far. -/
def longClock : Clock := ⟨[1, 4, 2]⟩

/-- The laws hold of clocks of different lengths. -/
theorem joinSemilattice_shortClock : shortClock.Nonneg ∧ longClock.Nonneg ∧
    (shortClock.merge longClock).dominates longClock = true ∧
    (shortClock.merge longClock).equal (longClock.merge shortClock) = true ∧
    shortClock.before (shortClock.successor 4) = true := by
  have hshort : shortClock.Nonneg := nonneg_iff.mpr (by decide)
  have hlong : longClock.Nonneg := nonneg_iff.mpr (by decide)
  obtain ⟨-, -, ⟨-, habove, -⟩, ⟨hcomm, -⟩, hsuccessor⟩ := joinSemilattice hshort hlong .empty
  exact ⟨hshort, hlong, habove, hcomm, (hsuccessor 4).1.mpr (by decide)⟩

/-- A task has been counted as far as a word goes. -/
def fullClock : Clock := ⟨[Word.greatest]⟩

/-- **The greatest count has no successor**: a clock with it is not before what should come next. -/
theorem not_before_successor_fullClock :
    fullClock.Nonneg ∧ fullClock.before (fullClock.successor 0) = false :=
  ⟨nonneg_iff.mpr (by decide), by decide⟩

end Interleaving.Clock
