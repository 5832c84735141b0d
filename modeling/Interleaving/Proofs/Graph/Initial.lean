import Interleaving.Proofs.Graph.Consistency
import Interleaving.Proofs.Graph.Entry

/-!
# The graph of nothing

Recording starts from the graph of nothing but the first event, which is recorded
(`Interleaving.Graph.recorded_initial`). Everything that is said about recorded graphs speaks about
graphs that there are: an atomic update, recorded event by event, gives a graph that the check of
consistency accepts with the right reason (`Interleaving.Graph.updated_exact`).
-/

namespace Interleaving.Graph

variable {a b k : Key} {r : Relation}

/-- The first event is the only node. -/
theorem find?_initial : Graph.initial.find? k =
    if k = .init then some (Node.new Event.initial .empty) else none := by
  unfold find? Graph.initial
  by_cases hk : k = .init
  · subst hk
    rfl
  · have hne : ((Node.new Event.initial .empty).key == k) = false :=
      beq_eq_false_iff_ne.mpr (Ne.symm hk)
    rw [if_neg hk, List.find?_cons, hne]
    rfl

theorem event?_initial : Graph.initial.event? k =
    if k = .init then some Event.initial else none := by
  unfold event?
  rw [find?_initial]
  split <;> rfl

/-- There are no edges yet. -/
theorem not_in_initial : ¬Graph.initial.In r a b := by
  rintro ⟨n, hn, hmem⟩
  rw [find?_initial] at hn
  split at hn
  · cases hn
    cases hmem
  · cases hn

theorem not_out_initial : ¬Graph.initial.Out r a b := by
  rintro ⟨n, hn, hmem⟩
  rw [find?_initial] at hn
  split at hn
  · cases hn
    cases hmem
  · cases hn

/-- There is no other event yet. -/
theorem eq_initial_of_event? {e : Event} (he : Graph.initial.event? k = some e) :
    k = .init ∧ e = Event.initial := by
  rw [event?_initial] at he
  split at he
  · exact ⟨‹_›, (Option.some.inj he).symm⟩
  · cases he

theorem tidy_initial : Graph.initial.Tidy where
  keys := by decide
  known := fun ho => absurd ho not_out_initial
  pred := by
    intro k n hn
    rw [find?_initial] at hn
    split at hn
    · cases hn
      exact List.nodup_nil
    · cases hn
  succ := by
    intro k n hn
    rw [find?_initial] at hn
    split at hn
    · cases hn
      exact List.nodup_nil
    · cases hn

/-- Every task is empty. -/
theorem fills_initial (t : Nat) : Graph.initial.Fills t 0 := by
  intro i
  simp [Graph.initial, Key.place, Key.init]

/-- The graph of nothing but the first event is shaped. -/
theorem shaped_initial : Graph.initial.Shaped where
  tidy := tidy_initial
  nodup := by decide
  first := rfl
  has := by
    intro k hk
    rw [List.mem_singleton.mp hk]
    rfl
  mem_iff := by
    intro k e he
    obtain ⟨rfl, rfl⟩ := eq_initial_of_event? he
    exact iff_of_true (List.mem_singleton_self _) (by decide)
  key := fun hk => Or.inl (List.mem_singleton.mp hk)
  tasks := fun t => ⟨0, fills_initial t, Or.inl (by simp [taskKeys, Graph.initial, places])⟩
  label := by
    intro k hk
    obtain ⟨e, he, hkind⟩ := isLabel_iff_event?.mp hk
    obtain ⟨-, rfl⟩ := eq_initial_of_event? he
    cases hkind
  label_cause := fun _ hin => absurd hin not_in_initial
  programOrder := fun hin => absurd hin not_in_initial
  no_cause := not_in_initial

/-- There are no reads, and no chains to be wired. -/
theorem wired_initial : Graph.initial.Wired where
  toShaped := shaped_initial
  mirrored := fun _ _ _ hin => absurd hin not_in_initial
  initial := by
    intro e he
    obtain ⟨-, rfl⟩ := eq_initial_of_event? he
    rfl
  linked := by
    intro t i hhas
    rw [has_iff_event?, event?_initial, if_neg (Key.place_ne_init t i)] at hhas
    cases hhas
  label_end := fun _ => not_in_initial
  no_fromRead := not_in_initial
  locations := List.nodup_nil
  chain_eq := fun hc => by cases hc
  coherency := by
    intro a b
    refine iff_of_false not_in_initial ?_
    rintro ⟨loc, -, hinfix⟩
    cases List.infix_nil.mp hinfix
  source := by
    rintro k loc ⟨e, he, hread, -⟩
    obtain ⟨-, rfl⟩ := eq_initial_of_event? he
    cases hread
  reads := fun hin => absurd hin not_in_initial

theorem not_writesTo_initial {loc : Location} : ¬Graph.initial.WritesTo k loc := by
  rintro ⟨e, he, hwrite, -⟩
  obtain ⟨-, rfl⟩ := eq_initial_of_event? he
  cases hwrite

/-- Nothing is in the past of the first event. -/
theorem tells_initial : Graph.initial.Tells .init .empty where
  nonneg := Clock.nonneg_empty
  count := by
    intro t i
    refine iff_of_false (by simp) ?_
    rintro (heq | hpast)
    · exact Key.place_ne_init t i heq
    · cases hpast with
      | single h =>
        obtain ⟨r, -, hin⟩ := h
        exact not_in_initial hin
      | tail _ h =>
        obtain ⟨r, -, hin⟩ := h
        exact not_in_initial hin

/-- **The graph of nothing is recorded.** -/
theorem recorded_initial : Graph.initial.Recorded [.init] where
  toWired := wired_initial
  explained :=
    { perm := .refl _
      forward := fun _ _ hin => absurd hin not_in_initial
      coherent := fun _ => List.Pairwise.nil
      latest := fun _ hin => absurd hin not_in_initial
      undivided := fun _ hwrite => absurd hwrite not_writesTo_initial }
  timed := by
    intro k hk
    obtain rfl := List.mem_singleton.mp hk
    exact tells_initial
  forward := fun _ _ hin => absurd hin not_in_initial
  bounded := by decide
  chained := by
    intro k e _ he hne
    obtain ⟨-, rfl⟩ := eq_initial_of_event? he
    exact absurd rfl hne
  written := fun hwrite => absurd hwrite not_writesTo_initial
  located := fun hwrite => absurd hwrite not_writesTo_initial
  start := fun hin => absurd hin not_in_initial
  starts := fun hk => by cases hk

theorem paired_initial : Graph.initial.Paired where
  completed := by
    intro k e he hex
    obtain ⟨-, rfl⟩ := eq_initial_of_event? he
    cases hex
  alone := fun _ ho => absurd ho not_out_initial

/-! ### An atomic update -/

/-- A task has started. -/
def begun : Graph :=
  (Graph.initial.noted (Event.new 0 .threadStart .thread)).trackThreadCreates (.place 0 0)

/-- It has done the first half of an atomic update. -/
def halfway : Graph :=
  (begun.noted (Event.new 0 .readExclusive 1)).setReadsFrom (.place 0 1) (begun.lastWrite 1)

/-- It has done the whole update. -/
def updated : Graph := (halfway.noted (Event.new 0 .writeExclusive 1)).trackCoherency (.place 0 2)

/-- A task is filled as far as the total order lists its events. -/
theorem fills_of_order {g : Graph} {t n : Nat} (h : g.order = .init :: places t n) :
    g.Fills t n := by
  intro i
  rw [h, List.mem_cons, mem_places]
  constructor
  · rintro (heq | ⟨j, hj, heq⟩)
    · exact absurd heq (Key.place_ne_init t i)
    · rw [Key.place_inj] at heq
      omega
  · exact fun hi => Or.inr ⟨i, hi, rfl⟩

/-- The thread can start. -/
theorem entry_begun : Entry Graph.initial [.init] (Event.new 0 .threadStart .thread) 0 0 where
  recorded := recorded_initial
  task := rfl
  fills := fills_initial 0
  free := by decide
  going := by decide
  kind := by decide
  room := by decide

/-- The thread can read. -/
theorem entry_halfway : Entry begun [.init, .place 0 0] (Event.new 0 .readExclusive 1) 0 1 where
  recorded := (entry_begun.first paired_initial rfl).1.recorded
  task := rfl
  fills := fills_of_order (by decide)
  free := by decide
  going := by decide
  kind := by decide
  room := by decide

/-- The thread can write what it has read. -/
theorem entry_updated :
    Entry halfway ([.init, .place 0 0] ++ [.place 0 1]) (Event.new 0 .writeExclusive 1) 0
      (1 + 1) where
  recorded :=
    (entry_halfway.read (entry_begun.first paired_initial rfl).2.1 rfl (by decide)
      (by decide)).1.recorded
  task := rfl
  fills := fills_of_order (by decide)
  free := by decide
  going := by decide
  kind := by decide
  room := by decide

/-- The update is recorded, and its halves are a pair. -/
theorem updated_paired : updated.WellFormed ∧ updated.Paired := by
  have hpaired := (entry_begun.first paired_initial rfl).2.1
  have hhalf := (entry_halfway.read hpaired rfl (by decide) (by decide)).2.1
  obtain ⟨e, he, hkind, hloc⟩ : ∃ e, halfway.event? (.place 0 1) = some e ∧
      e.kind = .readExclusive ∧ e.location = 1 := by
    refine ⟨_, rfl, rfl, rfl⟩
  have hpair : e.kind.pairsWith (Event.new 0 .writeExclusive 1).kind = true := by
    rw [hkind]
    rfl
  obtain ⟨hw, hp⟩ := entry_updated.completes hhalf he hpair hloc.symm (by decide) (by decide)
  have hfinal := entry_updated.takesEffect rfl hw hp (.refl _) hw.toWired
  exact ⟨hfinal.1.recorded.wellFormed, hfinal.2⟩

/-- The check of consistency accepts the update, and an order explains it. -/
theorem updated_exact : (∃ ns, updated.consistentOrder = .ok (some ns)) ∧
    ∃ l, updated.Explains l := by
  obtain ⟨hformed, hpaired⟩ := updated_paired
  have hfound : ∃ ns, updated.consistentOrder = .ok (some ns) := by
    have hsome : updated.consistentOrder.toOption.join.isSome = true := by decide +kernel
    cases hfound : updated.consistentOrder with
    | error err => rw [hfound] at hsome; cases hsome
    | ok found =>
      cases found with
      | none => rw [hfound] at hsome; cases hsome
      | some ns => exact ⟨ns, rfl⟩
  exact ⟨hfound, (consistentOrder_exact hformed hpaired).2.1.mp hfound⟩

end Interleaving.Graph
