import Interleaving.Proofs.Graph.Growth
import Interleaving.Proofs.Graph.Labels

/-!
# Graphs that a run records

A graph is **recorded** (`Interleaving.Graph.Recorded`) when it is sound, every write is in the
chain of its location, and the starts of threads are linked among themselves. Every event that a run
records keeps it so: a marker or a read with the edges into it (`Interleaving.Graph.Recorded.adds`),
a write once it has taken effect (`Interleaving.Graph.Writing.recorded`).

Between the halves of an atomic update or of a lock acquisition there is one exclusive read that is
not completed (`Interleaving.Graph.PairedBut`).
-/

namespace Interleaving.Graph

variable {g g' : Graph} {a b k w : Key} {r : Relation} {e : Event} {t n : Nat} {loc : Location}
  {l : List Key} {cause : Relation → Key → Prop}

/-- **A graph that a run has recorded** in the order `l`. -/
structure Recorded (g : Graph) (l : List Key) : Prop extends g.Sound l where
  written : ∀ {k loc}, g.WritesTo k loc → loc ≠ .thread ∧ k ∈ g.chain loc
  located : ∀ {k loc}, g.WritesTo k loc → loc ≠ .none
  /-- What a spawn points to is the start of a thread. -/
  start : ∀ {a b}, g.In .threadStart a b → g.kindOf? b = some .threadStart
  starts : ∀ {k}, k ∈ g.chain .thread → k = .init ∨ g.kindOf? k = some .threadStart

theorem Recorded.wellFormed (h : g.Recorded l) : g.WellFormed where
  toWired := h.toWired
  written := h.written

/-! ### One more event -/

theorem kindOf?_of_event? (he : g.event? k = some e) : g.kindOf? k = some e.kind := by
  rw [kindOf?_eq_map, he]
  rfl

/-- Kinds of events are kept. -/
theorem Adds.kindOf?_eq (ha : Adds g g' e t n cause) (habsent : ¬g.Has (.place t n)) {kind : Kind}
    (hk : g.kindOf? k = some kind) : g'.kindOf? k = some kind := by
  have hne : k ≠ .place t n := by
    rintro rfl
    exact habsent (has_iff_kindOf?.mpr (by rw [hk]; rfl))
  rw [kindOf?_eq_map, ha.event, if_neg hne, ← kindOf?_eq_map, hk]

theorem Adds.kindOf?_self (ha : Adds g g' e t n cause) : g'.kindOf? (.place t n) = some e.kind := by
  rw [kindOf?_eq_map, ha.event, if_pos rfl]
  rfl

/-- **An event that writes nothing keeps a graph recorded.** -/
theorem Recorded.adds (h : g.Recorded l) (ha : Adds g g' e t n cause) (hc : Caused g e t n cause)
    (ht : g'.Timed) (hlen : g.order.length + 1 < 2 ^ 62)
    (hchained : e.location ≠ .none → (g.chain? e.location).isSome = true)
    (hwrite : e.kind.isWrite = false)
    (hpending : ∀ {r v loc}, g.LocksAt r loc → g.WritesTo v loc → r.next = .place t n →
      ¬Before l r v)
    (hstart : ∀ {a}, cause .threadStart a → e.kind = .threadStart)
    (hstarts : ∀ {k}, k ∈ g'.chain .thread → k ∈ g.chain .thread ∨ k = .init ∨
      k = .place t n ∧ e.kind = .threadStart) : g'.Recorded (l ++ [.place t n]) where
  toSound := ha.sound h.toSound hc ht hlen hchained (fun _ _ hk => (h.written hk).2) hpending
  written := by
    intro k loc hk
    rcases (ha.writesTo_iff hc.absent).mp hk with hk | ⟨-, hself, -⟩
    · obtain ⟨hloc, hmem⟩ := h.written hk
      exact ⟨hloc, by rw [ha.chain hloc]; exact hmem⟩
    · rw [hwrite] at hself
      cases hself
  located := by
    intro k loc hk
    rcases (ha.writesTo_iff hc.absent).mp hk with hk | ⟨-, hself, -⟩
    · exact h.located hk
    · rw [hwrite] at hself
      cases hself
  start := by
    intro a b hin
    rcases (ha.edges ..).1.mp hin with hin | ⟨rfl, hcause⟩
    · exact ha.kindOf?_eq hc.absent (h.start hin)
    · rw [ha.kindOf?_self, hstart hcause]
  starts := by
    intro k hk
    rcases hstarts hk with hk | hk | ⟨rfl, hkind⟩
    · exact (h.starts hk).imp_right (ha.kindOf?_eq hc.absent)
    · exact Or.inl hk
    · exact Or.inr (by rw [ha.kindOf?_self, hkind])

/-- A write that is recorded and has not taken effect. -/
structure Writing (g : Graph) (l : List Key) (w : Key) (loc : Location) : Prop extends g.Sound l,
    g.Writes w loc where
  written : ∀ {k loc'}, g.WritesTo k loc' → k ≠ w → loc' ≠ .thread ∧ k ∈ g.chain loc'
  located : ∀ {k loc'}, g.WritesTo k loc' → loc' ≠ .none
  start : ∀ {a b}, g.In .threadStart a b → g.kindOf? b = some .threadStart
  starts : ∀ {k}, k ∈ g.chain .thread → k = .init ∨ g.kindOf? k = some .threadStart
  /-- It is the latest event, -/
  latest : ∃ o, g.order = o ++ [w]
  /-- it stands behind all others -/
  behind : ∀ {k}, k ∈ g.order → k ≠ w → Before l k w
  /-- and nothing comes after it. -/
  idle : ∀ {r b}, b ∈ g.order → ¬g.In r w b

/-- Behind all events comes the new one. -/
theorem before_concat {l : List Key} {k w : Key} (hk : k ∈ l) (hw : w ∉ l) :
    Before (l ++ [w]) k w :=
  before_append.mpr (Or.inr ⟨hw, Or.inl ⟨hk, List.mem_singleton_self w⟩⟩)

/-- **A write that is recorded** waits to take effect. -/
theorem Recorded.writing (h : g.Recorded l) (ha : Adds g g' e t n cause) (hc : Caused g e t n cause)
    (ht : g'.Timed) (hlen : g.order.length + 1 < 2 ^ 62) (hwrite : e.kind.isWrite = true)
    (hloc : e.location ≠ .thread)
    (hnone : e.location ≠ .none) (htouched : g.chain e.location ≠ [])
    (hpending : ∀ {r v loc}, g.LocksAt r loc → g.WritesTo v loc → r.next = .place t n →
      ¬Before l r v)
    (hstart : ∀ {a}, ¬cause .threadStart a) (hstarts : g'.chain .thread = g.chain .thread) :
    g'.Writing (l ++ [.place t n]) (.place t n) e.location where
  toSound :=
    ha.sound h.toSound hc ht hlen (fun _ => isSome_chain? htouched)
      (fun _ _ hk => (h.written hk).2) hpending
  write := (ha.writesTo_iff hc.absent).mpr (Or.inr ⟨rfl, hwrite, rfl⟩)
  location := hloc
  touched := by
    rw [ha.chain hloc]
    exact htouched
  absent := by
    rw [ha.chain hloc]
    intro hmem
    rcases h.mem_chain hloc hmem with heq | hw
    · exact Key.place_ne_init t n heq
    · exact hc.fills.ne_of_mem (h.mem_of_writesTo hw) rfl
  written := by
    intro k loc hk hne
    obtain ⟨hloc, hmem⟩ :=
      h.written (((ha.writesTo_iff hc.absent).mp hk).resolve_right fun heq => hne heq.1)
    exact ⟨hloc, by rw [ha.chain hloc]; exact hmem⟩
  located := by
    intro k loc hk
    rcases (ha.writesTo_iff hc.absent).mp hk with hk | ⟨-, -, rfl⟩
    · exact h.located hk
    · exact hnone
  start := by
    intro a b hin
    rcases (ha.edges ..).1.mp hin with hin | ⟨-, hcause⟩
    · exact ha.kindOf?_eq hc.absent (h.start hin)
    · exact absurd hcause hstart
  starts := by
    intro k hk
    rw [hstarts] at hk
    exact (h.starts hk).imp_right (ha.kindOf?_eq hc.absent)
  latest := ⟨g.order, ha.order⟩
  behind := by
    intro k hk hne
    rw [ha.order, List.mem_append, List.mem_singleton] at hk
    -- the new write stands behind all others
    have hk := h.explained.perm.mem_iff.mpr (hk.resolve_right hne)
    exact before_concat hk fun hw => hc.fills.ne_of_mem (h.explained.perm.mem_iff.mp hw) rfl
  idle := by
    intro r b hb hin
    rcases (ha.edges ..).1.mp hin with hin | ⟨-, hcause⟩
    · exact hc.fills.ne_of_mem (h.source_mem hin) rfl
    · exact hc.fills.ne_of_mem (hc.mem hcause) rfl

/-- **A write that takes effect** is recorded. -/
theorem Writing.recorded (h : g.Writing l w loc) : (g.trackCoherency w).Recorded l where
  toSound := by
    refine h.toWrites.sound h.toSound fun k hk => h.behind ?_ fun heq => h.absent (heq ▸ hk)
    rcases h.mem_chain h.location hk with rfl | hwrite
    · exact h.init_mem
    · exact h.mem_of_writesTo hwrite
  written := (h.toWrites.wellFormed h.toWired h.written).written
  located := by
    intro k loc' hk
    unfold WritesTo at hk
    rw [h.toWrites.event?_trackCoherency] at hk
    exact h.located hk
  start := by
    intro a b hin
    rw [kindOf?_congr h.toWrites.event?_trackCoherency]
    exact h.start (((h.toWrites.in_trackCoherency h.toShaped).mp hin).resolve_right
      fun heq => by simp at heq)
  starts := by
    intro k hk
    rw [h.toWrites.chain_trackCoherency, if_neg h.location.symm] at hk
    rw [kindOf?_congr h.toWrites.event?_trackCoherency]
    exact h.starts hk

/-- Kinds are the same in graphs that resemble each other. -/
theorem Resembles.kindOf?_eq (h : Resembles g g') (hk : k ∈ g.order) :
    g'.kindOf? k = g.kindOf? k := by
  rw [kindOf?_eq_face, kindOf?_eq_face, h.face k hk]

theorem Shaped.mem_of_kindOf? (h : g.Shaped) {kind : Kind} (hk : g.kindOf? k = some kind)
    (hkind : kind ≠ .block) : k ∈ g.order := by
  rw [kindOf?_eq_map] at hk
  obtain ⟨e, he, rfl⟩ := Option.map_eq_some_iff.mp hk
  exact (h.mem_iff he).mpr hkind

/-- Labels and the mark of an acquisition do not matter. -/
theorem Resembles.recorded (h : Resembles g g') (hg : g.Recorded l) (hg' : g'.Wired) :
    g'.Recorded l where
  toSound := h.sound hg.toSound hg'
  written := (h.wellFormed hg.wellFormed hg').written
  located := fun hk => hg.located ((h.writesTo_iff hg.toShaped hg'.toShaped).mp hk)
  start := by
    intro a b hin
    have hin := (h.in_iff hg.toShaped hg'.toShaped (by decide)).mp hin
    have hkind := hg.start hin
    rw [h.kindOf?_eq (hg.mem_of_kindOf? hkind (by decide)), hkind]
  starts := by
    intro k hk
    rw [h.chain] at hk
    exact (hg.starts hk).imp_right fun hkind => by
      rw [h.kindOf?_eq (hg.mem_of_kindOf? hkind (by decide)), hkind]

theorem Resembles.writing (h : Resembles g g') (hg : g.Writing l w loc) (hg' : g'.Wired) :
    g'.Writing l w loc where
  toSound := h.sound hg.toSound hg'
  write := (h.writesTo_iff hg.toShaped hg'.toShaped).mpr hg.write
  location := hg.location
  touched := by
    rw [h.chain]
    exact hg.touched
  absent := by
    rw [h.chain]
    exact hg.absent
  written := by
    intro k loc' hk hne
    rw [h.chain]
    exact hg.written ((h.writesTo_iff hg.toShaped hg'.toShaped).mp hk) hne
  located := fun hk => hg.located ((h.writesTo_iff hg.toShaped hg'.toShaped).mp hk)
  start := by
    intro a b hin
    have hin := (h.in_iff hg.toShaped hg'.toShaped (by decide)).mp hin
    have hkind := hg.start hin
    rw [h.kindOf?_eq (hg.mem_of_kindOf? hkind (by decide)), hkind]
  starts := by
    intro k hk
    rw [h.chain] at hk
    exact (hg.starts hk).imp_right fun hkind => by
      rw [h.kindOf?_eq (hg.mem_of_kindOf? hkind (by decide)), hkind]
  latest := h.order ▸ hg.latest
  behind := fun hk => hg.behind (h.order ▸ hk)
  idle := fun hb hin => hg.idle (h.order ▸ hb) ((h.edge (h.order ▸ hb)).mp hin)

/-! ### Halves of pairs -/

/-- Every exclusive read but one is completed, and nothing but what completes them comes right after
them. -/
structure PairedBut (g : Graph) (w : Key) : Prop where
  completed : ∀ {k e}, g.event? k = some e → e.kind.isExclusiveRead = true → k ≠ w →
    ∃ e', g.event? k.next = some e' ∧ e.kind.pairsWith e'.kind = true ∧ e'.location = e.location
  alone : ∀ {k loc r b}, g.LocksAt k loc → g.Out r k b → r = .programOrder ∧ b = k.next

theorem Paired.pairedBut (h : g.Paired) (w : Key) : g.PairedBut w :=
  ⟨fun he hex _ => h.completed he hex, h.alone⟩

namespace Adds

variable (ha : Adds g g' e t n cause) (hc : Caused g e t n cause)
include ha hc

/-- An exclusive read that was completed is, and an edge from it leads to what completes it. -/
theorem completed (hp : g.PairedBut w) {e₀ : Event} (he : g.event? k = some e₀)
    (hex : e₀.kind.isExclusiveRead = true) (hne : k ≠ w) :
    ∃ e', g'.event? k.next = some e' ∧ e₀.kind.pairsWith e'.kind = true ∧ e'.location =
      e₀.location := by
  obtain ⟨e', he', hpair⟩ := hp.completed he hex hne
  refine ⟨e', ?_, hpair⟩
  rw [ha.event, if_neg, he']
  intro heq
  exact hc.absent (has_iff_event?.mpr (by rw [← heq, he']; rfl))

theorem alone (h : g.Wired) (hp : g.PairedBut w)
    (hlocks : ∀ {r a loc}, cause r a → g.LocksAt a loc → r = .programOrder) {loc : Location}
    (hlock : g'.LocksAt k loc) (hout : g'.Out r k b) : r = .programOrder ∧ b = k.next := by
  rcases (ha.locksAt_iff hc.absent).mp hlock with hlock | ⟨rfl, -⟩
  · rcases (ha.edges ..).2.mp hout with hout | ⟨rfl, hcause⟩
    · exact hp.alone hlock hout
    · obtain rfl := hlocks hcause hlock
      refine ⟨rfl, ?_⟩
      have hprior := hc.programOrder.mp hcause
      cases n with
      | zero => exact absurd hprior (h.ne_init_of_readsAt hlock.readsAt)
      | succ n =>
        rw [hprior]
        rfl
  · rcases (ha.edges ..).2.mp hout with hout | ⟨-, hcause⟩
    · exact absurd (has_of_out hout) hc.absent
    · exact absurd rfl (hc.fills.ne_of_mem (hc.mem hcause))

/-- The first half of a pair. -/
theorem pairedBut (h : g.Wired) (hp : g.Paired)
    (hlocks : ∀ {r a loc}, cause r a → g.LocksAt a loc → r = .programOrder) :
    g'.PairedBut (.place t n) where
  completed := by
    intro k e₀ he hex hne
    rw [ha.event, if_neg hne] at he
    exact ha.completed hc (hp.pairedBut (.place t n)) he hex hne
  alone := ha.alone hc h (hp.pairedBut (.place t n)) hlocks

/-- An event that is no half of a pair. -/
theorem paired (h : g.Wired) (hp : g.Paired) (hex : e.kind.isExclusiveRead = false)
    (hlocks : ∀ {r a loc}, cause r a → g.LocksAt a loc → r = .programOrder) : g'.Paired where
  completed := by
    intro k e₀ he hex₀
    by_cases hk : k = .place t n
    · rw [ha.event, if_pos hk, Option.some_inj] at he
      rw [← he, hex] at hex₀
      cases hex₀
    · exact (ha.pairedBut hc h hp hlocks).completed he hex₀ hk
  alone := (ha.pairedBut hc h hp hlocks).alone

/-- The second half of a pair. -/
theorem paired_of_pairedBut (h : g.Wired) {e₀ : Event} (hp : g.PairedBut w)
    (hw : w.next = .place t n) (he₀ : g.event? w = some e₀)
    (hpair : e₀.kind.pairsWith e.kind = true) (hloc : e.location = e₀.location)
    (hlocks : ∀ {r a loc}, cause r a → g.LocksAt a loc → r = .programOrder) : g'.Paired where
  completed := by
    intro k e₁ he hex
    by_cases hk : k = .place t n
    · rw [ha.event, if_pos hk, Option.some_inj] at he
      rw [← he] at hex
      exfalso
      revert hpair hex
      generalize e₀.kind = kind₀
      generalize e.kind = kind
      cases kind₀ <;> cases kind <;> decide
    · rw [ha.event, if_neg hk] at he
      by_cases hkw : k = w
      · subst hkw
        rw [he₀] at he
        cases he
        exact ⟨e, by rw [ha.event, if_pos hw], hpair, hloc⟩
      · exact ha.completed hc hp he hex hkw
  alone := ha.alone hc h hp hlocks

end Adds

/-- A pair that is complete leaves no exclusive read whose second half could come next. -/
theorem Caused.not_before (hc : Caused g e t n cause) (hp : g.Paired) {r v : Key} {loc : Location}
    (hlock : g.LocksAt r loc) (hnext : r.next = .place t n) : ¬Before l r v := by
  obtain ⟨e₀, he₀, hex, -⟩ := hlock
  obtain ⟨e', he', -⟩ := hp.completed he₀ hex
  rw [hnext] at he'
  exact absurd (has_iff_event?.mpr (by rw [he']; rfl)) hc.absent

/-- A write that takes effect breaks no pair. -/
theorem Writes.paired (hw : g.Writes w loc) (h : g.Wired) (hp : g.Paired) :
    (g.trackCoherency w).Paired where
  completed := by
    intro k e he hex
    rw [hw.event?_trackCoherency] at he ⊢
    exact hp.completed he hex
  alone := by
    intro k loc' r b hlock hout
    unfold LocksAt at hlock
    rw [hw.event?_trackCoherency] at hlock
    have hlock : g.LocksAt k loc' := hlock
    rcases (hw.out_trackCoherency h).mp hout with hout | ⟨-, rfl, -⟩
    · exact hp.alone hlock hout
    · rcases h.mem_chain hw.location (lastWrite_mem hw.touched) with heq | hwrite
      · exact absurd heq (h.ne_init_of_readsAt hlock.readsAt)
      · exact absurd hwrite hlock.readsAt.not_writesTo

end Interleaving.Graph
