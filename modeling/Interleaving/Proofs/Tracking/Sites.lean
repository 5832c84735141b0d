import Interleaving.Location
import Interleaving.Machine.Basic

/-!
# Where a machine keeps its places in a graph

A machine numbers the variables and locks that it touches, and an engine moves these numbers to the
locations of its graph. Together they give every place that was touched a location of its own
(`Interleaving.LocationTable.siteOf?`, `Interleaving.Sites`). Touching a place keeps the locations
of all others, and the location of a place that is touched for the first time is a new one
(`Interleaving.Sites.touch`).
-/

namespace Interleaving

/-- The location in the graph of a place that was touched. -/
def LocationTable.siteOf? (T : LocationTable) (m : Machine) (p : Place) : Option Location :=
  (m.location? p).map fun n => (T.resolve n).1

variable {T T' : LocationTable} {m m' : Machine} {p q : Place} {n loc loc' : Location}

/-- **Different places have different locations**, and all of them are numbers that were given
out. -/
structure Sites (T : LocationTable) (m : Machine) : Prop where
  base : 0 ≤ m.lastLocation
  numbered : ∀ {p n}, m.location? p = some n → 0 < n
  aliases : ∀ {n old}, T.alias? n = some old → 0 < n ∧ n ≤ m.lastLocation
  range : ∀ {p loc}, T.siteOf? m p = some loc → 0 < loc ∧ loc ≤ m.lastLocation
  injective : ∀ {p q loc}, T.siteOf? m p = some loc → T.siteOf? m q = some loc → p = q

/-- A place is touched: it has a location now, and nothing else has changed. -/
structure Touched (T T' : LocationTable) (m m' : Machine) (p : Place) (loc : Location) : Prop where
  sites : Sites T' m'
  self : T'.siteOf? m' p = some loc
  other : ∀ {q}, q ≠ p → T'.siteOf? m' q = T.siteOf? m q
  old : ∀ {loc'}, T.siteOf? m p = some loc' → loc' = loc
  fresh : T.siteOf? m p = none → m.lastLocation < loc
  grows : m.lastLocation ≤ m'.lastLocation ∧ m'.lastLocation ≤ m.lastLocation + 1

/-! ### Resolving a number -/

theorem LocationTable.alias?_add (T : LocationTable) (loc n : Location) :
    (T.add loc).alias? n = T.alias? n := by
  unfold add
  split <;> rfl

/-- Resolving one number does not change what the others stand for. -/
theorem LocationTable.alias?_resolve (T : LocationTable) (n k : Location) :
    (T.resolve n).2.alias? k = T.alias? k := by
  unfold resolve
  split
  · rfl
  · exact T.alias?_add n k

theorem LocationTable.resolve_resolve (T : LocationTable) (n k : Location) :
    ((T.resolve n).2.resolve k).1 = (T.resolve k).1 := by
  have hk := T.alias?_resolve n k
  generalize (T.resolve n).2 = T' at hk
  unfold resolve
  rw [hk]
  split <;> rfl

theorem LocationTable.siteOf?_resolve (T : LocationTable) (n : Location) (m : Machine) (p : Place) :
    (T.resolve n).2.siteOf? m p = T.siteOf? m p := by
  unfold siteOf?
  simp only [resolve_resolve]

/-- Resolving a number again changes nothing. -/
theorem LocationTable.resolve_idem (T : LocationTable) (n : Location) :
    (T.resolve n).2.resolve n = ((T.resolve n).1, (T.resolve n).2) := by
  cases halias : T.alias? n with
  | some old =>
    have hres : T.resolve n = (old, T) := by rw [resolve, halias]
    rw [hres]
    exact hres
  | none =>
    have hres : T.resolve n = (n, T.add n) := by rw [resolve, halias]
    have hknown : (T.add n).known.contains n = true := by
      unfold add
      split
      · assumption
      · simp
    rw [hres]
    dsimp only
    rw [resolve, T.alias?_add, halias]
    dsimp only
    rw [add, if_pos hknown]

/-- Only the numbers of places matter. -/
theorem LocationTable.siteOf?_congr (T : LocationTable) (h : m'.places = m.places) (p : Place) :
    T.siteOf? m' p = T.siteOf? m p := by
  rw [siteOf?, siteOf?, Machine.location?, Machine.location?, h]

/-- A number without another meaning stands for itself. -/
theorem LocationTable.resolve_of_alias? (h : T.alias? n = none) : (T.resolve n).1 = n := by
  unfold resolve
  rw [h]

namespace Sites

/-- The location of threads is no number of a place. -/
theorem resolve_of_nonpos (h : Sites T m) (hn : n ≤ 0) : (T.resolve n).1 = n := by
  refine LocationTable.resolve_of_alias? ?_
  cases halias : T.alias? n with
  | none => rfl
  | some old => exact absurd (h.aliases halias).1 (Int.not_lt.mpr hn)

theorem resolve (h : Sites T m) (n : Location) : Sites (T.resolve n).2 m where
  base := h.base
  numbered := h.numbered
  aliases := by
    intro k old hk
    rw [T.alias?_resolve] at hk
    exact h.aliases hk
  range := by
    intro p loc hp
    rw [T.siteOf?_resolve] at hp
    exact h.range hp
  injective := by
    intro p q loc hp hq
    rw [T.siteOf?_resolve] at hp hq
    exact h.injective hp hq

/-- Only the numbers of places matter. -/
theorem congr (h : Sites T m) (hplaces : m'.places = m.places)
    (hlast : m'.lastLocation = m.lastLocation) : Sites T m' := by
  have hsite := T.siteOf?_congr hplaces
  refine ⟨hlast ▸ h.base, fun hp => ?_, fun hk => hlast ▸ h.aliases hk, fun hp => ?_,
    fun hp hq => ?_⟩
  · rw [Machine.location?, hplaces] at hp
    exact h.numbered hp
  · rw [hsite] at hp
    exact hlast ▸ h.range hp
  · rw [hsite] at hp hq
    exact h.injective hp hq

theorem touch_pos (h : Sites T m) (hroom : Word.fits (m.lastLocation + 1) = true) (p : Place) :
    0 < (m.touch p).1 := by
  unfold Machine.touch
  split
  · rename_i n hn
    exact h.numbered hn
  · have hbase := h.base
    dsimp only
    rw [Word.wrap_of_fits hroom]
    lia

/-- **Touching a place** gives it a location, a new one if it had none. -/
theorem touch (h : Sites T m) (hroom : Word.fits (m.lastLocation + 1) = true) (p : Place) :
    Touched T (T.resolve (m.touch p).1).2 m (m.touch p).2 p (T.resolve (m.touch p).1).1 := by
  cases hp : m.location? p with
  | some n =>
    have htouch : m.touch p = (n, m) := by rw [Machine.touch, hp]
    rw [htouch]
    have hself : T.siteOf? m p = some (T.resolve n).1 := by
      rw [LocationTable.siteOf?, hp, Option.map_some]
    refine ⟨h.resolve n, (T.siteOf?_resolve ..).trans hself, fun _ => T.siteOf?_resolve ..,
      fun hold => ?_, fun hnone => ?_, Int.le_refl _, by lia⟩
    · exact Option.some.inj (hold.symm.trans hself)
    · rw [hself] at hnone
      cases hnone
  | none =>
    have hbase := h.base
    have htouch : m.touch p =
        (m.lastLocation + 1,
          { m with
            places := m.places ++ [(p, m.lastLocation + 1)]
            lastLocation := m.lastLocation + 1 }) := by
      rw [Machine.touch, hp]
      dsimp only
      rw [Word.wrap_of_fits hroom]
    rw [htouch]
    dsimp only
    -- the place gets a number larger than all that were given
    generalize hn : m.lastLocation + 1 = n
    generalize hm : ({ m with places := m.places ++ [(p, n)], lastLocation := n } : Machine) = m'
    have hlast : m'.lastLocation = n := by rw [← hm]
    have hlocation : ∀ q, m'.location? q = if q = p then some n else m.location? q := by
      intro q
      rw [← hm, Machine.location?, List.lookup_append, List.lookup_cons]
      by_cases hq : q = p
      · subst hq
        rw [if_pos rfl, beq_self_eq_true]
        have hnone : m.places.lookup q = none := hp
        rw [hnone]
        rfl
      · rw [if_neg hq, beq_eq_false_iff_ne.mpr hq]
        exact Option.or_none
    -- which no alias is about, so it stands for itself
    have hself : (T.resolve n).1 = n := by
      refine LocationTable.resolve_of_alias? ?_
      cases halias : T.alias? n with
      | none => rfl
      | some old =>
        have := (h.aliases halias).2
        lia
    -- and the other places keep their locations
    have hsite : ∀ q, (T.resolve n).2.siteOf? m' q = if q = p then some n else T.siteOf? m q := by
      intro q
      rw [T.siteOf?_resolve, LocationTable.siteOf?, hlocation]
      split
      · rw [Option.map_some, hself]
      · rfl
    rw [hself]
    have hsites : Sites (T.resolve n).2 m' :=
      { base := by lia
        numbered := fun {q k} hk => by
          rw [hlocation] at hk
          split at hk
          · cases hk
            lia
          · exact h.numbered hk
        aliases := fun halias => by
          rw [T.alias?_resolve] at halias
          have := h.aliases halias
          lia
        range := fun {q loc} hq => by
          rw [hsite] at hq
          split at hq
          · cases hq
            lia
          · have := h.range hq
            lia
        injective := fun {q q' loc} hq hq' => by
          have hrange : ∀ {q loc}, T.siteOf? m q = some loc → loc ≠ n := fun hq heq => by
            have := (h.range hq).2
            lia
          rw [hsite] at hq hq'
          split at hq
          · cases hq
            split at hq'
            · rename_i heq heq'
              rw [heq, heq']
            · exact absurd rfl (hrange hq')
          · split at hq'
            · cases hq'
              exact absurd rfl (hrange hq)
            · exact h.injective hq hq' }
    exact
      { sites := hsites
        self := by
          rw [hsite, if_pos rfl]
        other := fun {q} hq => by
          rw [hsite, if_neg hq]
        old := fun hold => by
          rw [LocationTable.siteOf?, hp] at hold
          cases hold
        fresh := fun _ => by lia
        grows := ⟨by lia, by lia⟩ }

/-- Touching a place in a machine with the same numbers. -/
theorem touch_congr (h : Sites T m) (hplaces : m'.places = m.places)
    (hlast : m'.lastLocation = m.lastLocation) (hroom : Word.fits (m.lastLocation + 1) = true)
    (p : Place) :
    Touched T (T.resolve (m'.touch p).1).2 m (m'.touch p).2 p (T.resolve (m'.touch p).1).1 := by
  have ht := (h.congr hplaces hlast).touch (hlast ▸ hroom) p
  have hsite := T.siteOf?_congr hplaces
  refine ⟨ht.sites, ht.self, fun hq => (ht.other hq).trans (hsite _),
    fun hold => ht.old ((hsite p).trans hold),
    fun hnone => hlast ▸ ht.fresh ((hsite p).trans hnone), hlast ▸ ht.grows⟩

end Sites

end Interleaving
