import Interleaving.Proofs.Before

/-!
# Lists of blocks

The keys of a run come in **blocks**, one for every move. A list in which the blocks of some moves
stand in one piece lists the blocks of these moves in some order (`Interleaving.exists_blocks`), and
what belongs to one block stands before what belongs to another one when the first block stands
before the second (`Interleaving.before_flatMap`).
-/

namespace Interleaving

variable {α β : Type} [DecidableEq α] {l p s : List α} {xs : List β} {f : β → List α} {key : β → α}
  {x y : β} {a b : α} {R : β → β → Prop}

omit [DecidableEq α] in
/-- A block that has nothing to do with the front of a list stands behind it. -/
theorem infix_of_disjoint (h : s <:+: p ++ l) (hne : s ≠ []) (hdisjoint : ∀ a ∈ s, a ∉ p) :
    s <:+: l := by
  induction p with
  | nil => exact h
  | cons c p ih =>
    refine ih ((List.infix_cons_iff.mp h).resolve_left fun hprefix => ?_) fun a ha hp =>
      hdisjoint a ha (List.mem_cons_of_mem c hp)
    cases s with
    | nil => exact hne rfl
    | cons d s =>
      obtain ⟨rfl, -⟩ := List.cons_prefix_cons.mp hprefix
      exact hdisjoint d List.mem_cons_self List.mem_cons_self

omit [DecidableEq α] in
/-- **A list of blocks lists them in some order.** -/
theorem exists_blocks (hperm : l.Perm (xs.flatMap f)) (hnodup : l.Nodup) (hne : ∀ x ∈ xs, f x ≠ [])
    (hpiece : ∀ x ∈ xs, f x <:+: l) : ∃ ys : List β, ys.Perm xs ∧ l = ys.flatMap f := by
  induction hlen : xs.length generalizing xs l with
  | zero =>
    obtain rfl := List.eq_nil_of_length_eq_zero hlen
    exact ⟨[], .refl _, hperm.eq_nil⟩
  | succ n ih =>
    cases l with
    | nil =>
      obtain ⟨x, xs, rfl⟩ := List.exists_cons_of_length_eq_add_one hlen
      have hnil := hperm.nil_eq
      rw [List.flatMap_cons] at hnil
      exact absurd (List.append_eq_nil_iff.mp hnil.symm).1 (hne x List.mem_cons_self)
    | cons c l =>
      -- the block of the first element stands in front
      obtain ⟨x, hx, hc⟩ := List.mem_flatMap.mp (hperm.mem_iff.mp List.mem_cons_self)
      obtain ⟨rest, hrest⟩ : f x <+: c :: l :=
        (List.infix_cons_iff.mp (hpiece x hx)).resolve_right fun hlater =>
        (List.nodup_cons.mp hnodup).1 (hlater.subset hc)
      obtain ⟨xs', hxs'⟩ : ∃ xs', xs.Perm (x :: xs') := by
        obtain ⟨xs₁, xs₂, rfl⟩ := List.append_of_mem hx
        exact ⟨_, List.perm_middle⟩
      have hflat := hxs'.flatMap_right f
      rw [List.flatMap_cons] at hflat
      have hperm' : rest.Perm (xs'.flatMap f) := by
        rw [← hrest] at hperm
        exact (List.perm_append_left_iff _).mp (hperm.trans hflat)
      rw [← hrest] at hnodup hpiece ⊢
      have hsub : ∀ z ∈ xs', z ∈ xs := fun z hz => hxs'.mem_iff.mpr (List.mem_cons_of_mem x hz)
      obtain ⟨ys, hys, rfl⟩ := ih hperm' (List.nodup_append.mp hnodup).2.1
        (fun z hz => hne z (hsub z hz))
        (fun z hz => infix_of_disjoint (hpiece z (hsub z hz)) (hne z (hsub z hz)) fun a ha hp =>
          (List.nodup_append.mp hnodup).2.2 a hp a
            (hperm'.mem_iff.mpr (List.mem_flatMap.mpr ⟨z, hz, ha⟩)) rfl)
        (by simpa [hlen] using hxs'.length_eq.symm)
      exact ⟨x :: ys, (hys.cons x).trans hxs'.symm, rfl⟩

section Keys

variable (hnodup : (xs.flatMap f).Nodup) (hkey : ∀ x ∈ xs, key x ∈ f x)
include hnodup hkey

/-- **What belongs to different blocks stands in the order of the blocks.** -/
theorem before_flatMap (hx : x ∈ xs) (hy : y ∈ xs) (hne : x ≠ y) (ha : a ∈ f x) (hb : b ∈ f y) :
    Before (xs.flatMap f) a b ↔ Before (xs.map key) (key x) (key y) := by
  induction xs with
  | nil => cases hx
  | cons z xs ih =>
    rw [List.flatMap_cons] at hnodup
    obtain ⟨-, hrest, hdisjoint⟩ := List.nodup_append.mp hnodup
    have hout : ∀ {x}, x ∈ xs → ∀ {c}, c ∈ f x → c ∈ xs.flatMap f ∧ c ∉ f z := fun hx c hc => by
      have hmem := List.mem_flatMap.mpr ⟨_, hx, hc⟩
      exact ⟨hmem, fun hz => hdisjoint c hz c hmem rfl⟩
    have hkeys := fun {x} (hx : x ∈ xs) => hout hx (hkey x (List.mem_cons_of_mem z hx))
    have hkeyz := hkey z List.mem_cons_self
    rw [List.flatMap_cons, List.map_cons, before_append, before_cons]
    rcases List.mem_cons.mp hx with rfl | hx
    · have hy := (List.mem_cons.mp hy).resolve_left (Ne.symm hne)
      obtain ⟨hbr, hbz⟩ := hout hy hb
      refine iff_of_true (Or.inr ⟨hbz, Or.inl ⟨ha, hbr⟩⟩) ⟨fun heq => ?_,
        Or.inl ⟨rfl, List.mem_map_of_mem hy⟩⟩
      exact (hkeys hy).2 (heq ▸ hkeyz)
    · obtain ⟨har, haz⟩ := hout hx ha
      rcases List.mem_cons.mp hy with rfl | hy
      · refine iff_of_false ?_ fun h => h.1 rfl
        rintro (h | ⟨h, -⟩)
        · exact haz h.left_mem
        · exact h hb
      · obtain ⟨hbr, hbz⟩ := hout hy hb
        rw [← ih hrest (fun x hx => hkey x (List.mem_cons_of_mem z hx)) hx hy]
        have hxz : key x ≠ key z := fun heq => (hkeys hx).2 (heq ▸ hkeyz)
        have hyz : key y ≠ key z := fun heq => (hkeys hy).2 (heq ▸ hkeyz)
        constructor
        · rintro (h | ⟨-, ⟨h, -⟩ | ⟨-, h⟩⟩)
          · exact absurd h.left_mem haz
          · exact absurd h haz
          · exact ⟨hyz, Or.inr ⟨hxz, h⟩⟩
        · rintro ⟨-, ⟨h, -⟩ | ⟨-, h⟩⟩
          · exact absurd h hxz
          · exact Or.inr ⟨hbz, Or.inr ⟨haz, h⟩⟩

omit [DecidableEq α] in
/-- Different blocks have different keys. -/
theorem nodup_map_key : (xs.map key).Nodup := by
  induction xs with
  | nil => exact List.nodup_nil
  | cons z xs ih =>
    rw [List.flatMap_cons] at hnodup
    obtain ⟨-, hrest, hdisjoint⟩ := List.nodup_append.mp hnodup
    rw [List.map_cons, List.nodup_cons]
    refine ⟨fun hmem => ?_, ih hrest fun x hx => hkey x (List.mem_cons_of_mem z hx)⟩
    obtain ⟨x, hx, heq⟩ := List.mem_map.mp hmem
    exact hdisjoint _ (hkey z List.mem_cons_self) _
      (List.mem_flatMap.mpr ⟨x, hx, hkey x (List.mem_cons_of_mem z hx)⟩) heq.symm

end Keys

/-- What holds of the elements of a list in order holds of those whose keys are in order. -/
theorem rel_of_before_map (h : xs.Pairwise R)
    (hnodup : (xs.map key).Nodup) (hx : x ∈ xs) (hy : y ∈ xs)
    (hxy : Before (xs.map key) (key x) (key y)) : R x y := by
  induction xs with
  | nil => cases hx
  | cons z xs ih =>
    obtain ⟨hz, hrest⟩ := List.pairwise_cons.mp h
    rw [List.map_cons, List.nodup_cons] at hnodup
    rw [List.map_cons, before_cons] at hxy
    have hyz := (List.mem_cons.mp hy).resolve_left fun heq => hxy.1 (heq ▸ rfl)
    rcases List.mem_cons.mp hx with rfl | hx
    · exact hz y hyz
    · have hne : key x ≠ key z := fun heq => hnodup.1 (heq ▸ List.mem_map_of_mem hx)
      exact ih hrest hnodup.2 hx hyz ((hxy.2.resolve_left fun heq => hne heq.1).2)

/-- What holds of elements whose keys are in order holds of the elements of the list in order. -/
theorem pairwise_of_before_map (hnodup : (xs.map key).Nodup)
    (h : ∀ x ∈ xs, ∀ y ∈ xs, Before (xs.map key) (key x) (key y) → R x y) : xs.Pairwise R := by
  induction xs with
  | nil => exact .nil
  | cons z xs ih =>
    rw [List.map_cons, List.nodup_cons] at hnodup
    have hne : ∀ {x}, x ∈ xs → key x ≠ key z :=
      fun hx heq => hnodup.1 (heq ▸ List.mem_map_of_mem hx)
    refine List.pairwise_cons.mpr ⟨fun y hy => ?_, ih hnodup.2 fun x hx y hy hxy => ?_⟩
    · refine h z List.mem_cons_self y (List.mem_cons_of_mem z hy) ?_
      rw [List.map_cons, before_cons]
      exact ⟨hne hy, Or.inl ⟨rfl, List.mem_map_of_mem hy⟩⟩
    · refine h x (List.mem_cons_of_mem z hx) y (List.mem_cons_of_mem z hy) ?_
      rw [List.map_cons, before_cons]
      exact ⟨hne hy, Or.inr ⟨hne hx, hxy⟩⟩

end Interleaving
