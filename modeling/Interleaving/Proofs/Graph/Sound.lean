import Interleaving.Proofs.Graph.WellFormed

/-!
# Graphs that record an execution

A graph is **sound** (`Interleaving.Graph.Sound`) when its edges are in place, an order explains it,
its clocks tell the past and its events were added in an order that keeps program order and the
edges of threads forward. Time does not run in a cycle in such a graph, and comparing clocks decides
what happens before (`Interleaving.Graph.Sound.happensBefore_iff`).

All of this is about the events, the edges into them, the clocks and the chains. Two graphs that
agree in these **resemble** each other (`Interleaving.Graph.Resembles`): one may have labels that
the other one has not, other tasks that wait for locks, or other attributes of events.
-/

namespace Interleaving.Graph

variable {g g' : Graph} {a b k : Key} {r : Relation} {t n : Nat} {loc : Location} {l : List Key}

/-- A graph that records an execution in the order `l`. -/
structure Sound (g : Graph) (l : List Key) : Prop extends g.Wired where
  explained : g.Explains l
  timed : g.Timed
  forward : ∀ {r a b}, r.ordersThreads = true → b ∈ g.order → g.In r a b → Before g.order a b
  bounded : g.order.length < 2 ^ 62
  chained : g.Chained

namespace Sound

variable (h : g.Sound l)
include h

/-- The total order is a linear one. -/
theorem linear : g.Linear l := h.explained.linear h.toWired

theorem dense : g.Dense :=
  h.linear.dense h.toShaped h.bounded (fun hk => h.linked (h.has hk)) h.source_mem

/-- **Clocks tell the past.** -/
theorem happensBefore_iff (ha : a ∈ g.order) (hb : b ∈ g.order) : g.happensBefore a b = true ↔
    g.Past a b :=
  Graph.happensBefore_iff h.dense h.timed (fun _ hk => h.has hk) ha hb

end Sound

/-- What happens before an event is known by the edges into what happens before it. -/
theorem past_congr {S : List Key} (hedge : ∀ {r a b}, b ∈ S → (g'.In r a b ↔ g.In r a b))
    (hsource : ∀ {r a b}, b ∈ S → g.In r a b → a ∈ S) (hb : b ∈ S) : g'.Past a b ↔ g.Past a b := by
  have hearlier : ∀ {a b}, b ∈ S → (g'.Earlier a b ↔ g.Earlier a b) := fun hb =>
    exists_congr fun _ => and_congr_right fun _ => hedge hb
  have hmem : ∀ {a b}, b ∈ S → g.Earlier a b → a ∈ S := fun hb ⟨_, _, hin⟩ => hsource hb hin
  constructor
  · intro hp
    induction hp with
    | single hab => exact .single ((hearlier hb).mp hab)
    | tail _ hbc ih =>
      have hbc := (hearlier hb).mp hbc
      exact .tail (ih (hmem hb hbc)) hbc
  · intro hp
    induction hp with
    | single hab => exact .single ((hearlier hb).mpr hab)
    | tail _ hbc ih => exact .tail (ih (hmem hb hbc)) ((hearlier hb).mpr hbc)

/-! ### Graphs with the same events -/

/-- What an event shows but for its place and its mark. -/
structure Face where
  kind : Kind
  location : Location
  /-- The truth value of an assumption. -/
  holds : Bool
  /-- The task that spawned the thread whose start this is. -/
  spawner : Option Int

/-- What an event shows. -/
def faceOf (e : Event) : Face := ⟨e.kind, e.location, e.holds, e.startedBy?⟩

/-- What the event with a key shows. -/
def face (g : Graph) (k : Key) : Option Face := (g.event? k).map faceOf

/-- An event shows its face. -/
theorem face_of_event? {e : Event} (he : g.event? k = some e) : g.face k = some (faceOf e) := by
  rw [face, he]
  rfl

theorem face_congr (h : g'.event? k = g.event? k) : g'.face k = g.face k := by
  rw [face, face, h]

theorem kindOf?_eq_face : g.kindOf? k = (g.face k).map (·.kind) := by
  rw [kindOf?_eq_map, face, Option.map_map]
  rfl

/-- Events with the same face have the same kind and location. -/
theorem eq_of_face {k' : Key} {e e' : Event} (he : g.event? k = some e)
    (he' : g'.event? k' = some e') (h : g.face k = g'.face k') :
    e.kind = e'.kind ∧ e.location = e'.location := by
  rw [face_of_event? he, face_of_event? he', Option.some_inj, faceOf, faceOf, Face.mk.injEq] at h
  exact ⟨h.1, h.2.1⟩

/-- The same events with the same edges into them, the same clocks and the same chains. -/
structure Resembles (g g' : Graph) : Prop where
  order : g'.order = g.order
  chains : g'.chains = g.chains
  face : ∀ k ∈ g.order, g'.face k = g.face k
  edge : ∀ {r a b}, b ∈ g.order → (g'.In r a b ↔ g.In r a b)
  clock : ∀ k ∈ g.order, g'.clockOf k = g.clockOf k

namespace Resembles

theorem refl (g : Graph) : Resembles g g :=
  ⟨rfl, rfl, fun _ _ => rfl, fun _ => Iff.rfl, fun _ _ => rfl⟩

/-- Graphs that resemble a third one resemble each other. -/
theorem trans {g'' : Graph} (h : Resembles g g') (h' : Resembles g' g'') : Resembles g g'' where
  order := h'.order.trans h.order
  chains := h'.chains.trans h.chains
  face := fun k hk => (h'.face k (h.order ▸ hk)).trans (h.face k hk)
  edge := fun hb => (h'.edge (h.order ▸ hb)).trans (h.edge hb)
  clock := fun k hk => (h'.clock k (h.order ▸ hk)).trans (h.clock k hk)

variable (h : Resembles g g')
include h

/-- Graphs that resemble each other have the same chains. -/
theorem chain (loc : Location) : g'.chain loc = g.chain loc := by
  rw [Graph.chain, Graph.chain, chain?, chain?, h.chains]

/-- What events do is the same. -/
theorem does_iff (hg : g.Shaped) (hg' : g'.Shaped) {p : Kind → Bool} (hp : p .block = false) :
    (∃ e, g'.event? k = some e ∧ p e.kind = true ∧ e.location = loc) ↔
      ∃ e, g.event? k = some e ∧ p e.kind = true ∧ e.location = loc := by
  have hmem : ∀ {g : Graph}, g.Shaped → ∀ {e}, g.event? k = some e → p e.kind = true →
      k ∈ g.order := by
    intro g hg e he hdoes
    refine (hg.mem_iff he).mpr fun hblock => ?_
    rw [hblock, hp] at hdoes
    cases hdoes
  constructor
  · rintro ⟨e, he, hdoes, hloc⟩
    have hk := h.order ▸ hmem hg' he hdoes
    obtain ⟨e', he'⟩ := hg.event? hk
    obtain ⟨hkind, hsame⟩ := eq_of_face he he' (h.face k hk)
    exact ⟨e', he', hkind ▸ hdoes, hsame ▸ hloc⟩
  · rintro ⟨e, he, hdoes, hloc⟩
    have hk := hmem hg he hdoes
    obtain ⟨e', he'⟩ := hg'.event? (h.order.symm ▸ hk)
    obtain ⟨hkind, hsame⟩ := eq_of_face he he' (h.face k hk).symm
    exact ⟨e', he', hkind ▸ hdoes, hsame ▸ hloc⟩

theorem writesTo_iff (hg : g.Shaped) (hg' : g'.Shaped) : g'.WritesTo k loc ↔ g.WritesTo k loc :=
  h.does_iff hg hg' rfl

theorem readsAt_iff (hg : g.Shaped) (hg' : g'.Shaped) : g'.ReadsAt k loc ↔ g.ReadsAt k loc :=
  h.does_iff hg hg' rfl

theorem locksAt_iff (hg : g.Shaped) (hg' : g'.Shaped) : g'.LocksAt k loc ↔ g.LocksAt k loc :=
  h.does_iff hg hg' rfl

/-- Edges other than program order lead to events. -/
theorem in_iff (hg : g.Shaped) (hg' : g'.Shaped) (hr : r ≠ .programOrder) :
    g'.In r a b ↔ g.In r a b := by
  have hmem : ∀ {g : Graph}, g.Shaped → g.In r a b → b ∈ g.order := fun hg hin =>
    (hg.mem_or_label (has_of_in hin)).resolve_right fun hlabel => hr (hg.label_cause hlabel hin)
  constructor
  · exact fun hin => (h.edge (h.order ▸ hmem hg' hin)).mp hin
  · exact fun hin => (h.edge (hmem hg hin)).mpr hin

/-- **A graph that resembles a wired one is wired** when its own labels are. -/
theorem wired (hg : g.Wired) (hg' : g'.Shaped) (hm : g'.Mirrored)
    (hlinked : ∀ {t i : Nat}, g'.isLabel (.place t i) = true →
      g'.In .programOrder (.prior t i) (.place t i))
    (hend : ∀ {r a b}, g'.isLabel a = true → ¬g'.In r a b) : g'.Wired where
  toShaped := hg'
  mirrored := hm
  initial := by
    intro e he
    obtain ⟨e', he'⟩ := hg.event? hg.init_mem
    exact (eq_of_face he he' (h.face .init hg.init_mem)).1.trans (hg.initial he')
  linked := by
    intro t i hhas
    rcases hg'.mem_or_label hhas with hk | hlabel
    · have hk := h.order ▸ hk
      exact (h.edge hk).mpr (hg.linked (hg.has hk))
    · exact hlinked hlabel
  label_end := hend
  no_fromRead := fun hin => hg.no_fromRead ((h.in_iff hg.toShaped hg' (by decide)).mp hin)
  locations := h.chains ▸ hg.locations
  chain_eq := by
    intro c hc hthread
    obtain ⟨ws, heq, hnodup, hws⟩ := hg.chain_eq (h.chains ▸ hc) hthread
    exact ⟨ws, heq, hnodup, fun w hw => (h.writesTo_iff hg.toShaped hg').mpr (hws w hw)⟩
  coherency := by
    intro a b
    rw [h.in_iff hg.toShaped hg' (by decide), hg.coherency]
    simp only [h.chain]
  source := by
    intro k loc hread
    obtain ⟨hloc, w, hw, hsource⟩ := hg.source ((h.readsAt_iff hg.toShaped hg').mp hread)
    refine ⟨hloc, w, by rw [h.chain]; exact hw, fun a => ?_⟩
    rw [h.in_iff hg.toShaped hg' (by decide), hsource]
  reads := by
    intro a b hin
    obtain ⟨loc, hread⟩ := hg.reads ((h.in_iff hg.toShaped hg' (by decide)).mp hin)
    exact ⟨loc, (h.readsAt_iff hg.toShaped hg').mpr hread⟩

/-- A graph that resembles a well-formed one is well-formed. -/
theorem wellFormed (hg : g.WellFormed) (hg' : g'.Wired) : g'.WellFormed where
  toWired := hg'
  written := by
    intro k loc hk
    obtain ⟨hloc, hmem⟩ := hg.written ((h.writesTo_iff hg.toShaped hg'.toShaped).mp hk)
    exact ⟨hloc, by rw [h.chain]; exact hmem⟩

/-- An order that explains a graph explains those that resemble it. -/
theorem explains (hg : g.Shaped) (hg' : g'.Shaped) (hl : g.Explains l) : g'.Explains l where
  perm := h.order ▸ hl.perm
  forward := fun hr hb hin => hl.forward hr (h.order ▸ hb) ((h.edge (h.order ▸ hb)).mp hin)
  coherent := by
    intro loc hloc
    rw [h.chain]
    exact hl.coherent hloc
  latest := by
    intro r w loc hread hin
    have hread := (h.readsAt_iff hg hg').mp hread
    obtain ⟨hbefore, hlast⟩ := hl.latest hread ((h.in_iff hg hg' (by decide)).mp hin)
    exact ⟨hbefore, fun v hv => hlast v ((h.writesTo_iff hg hg').mp hv)⟩
  undivided :=
    fun hlock hv => hl.undivided ((h.locksAt_iff hg hg').mp hlock) ((h.writesTo_iff hg hg').mp hv)

/-- The past of an event is the same. -/
theorem past_iff (hsource : ∀ {r a b}, g.In r a b → a ∈ g.order) (hb : b ∈ g.order) :
    g'.Past a b ↔ g.Past a b :=
  past_congr h.edge (fun _ hin => hsource hin) hb

/-- Clocks that tell the past of a graph tell that of those that resemble it. -/
theorem timed (hsource : ∀ {r a b}, g.In r a b → a ∈ g.order) (ht : g.Timed) : g'.Timed := by
  intro k hk
  have hk := h.order ▸ hk
  rw [h.clock k hk]
  refine ⟨(ht k hk).nonneg, fun t i => ?_⟩
  rw [(ht k hk).count, h.past_iff hsource hk]

/-- **A graph that resembles a sound one is sound** when it is wired. -/
theorem sound (hg : g.Sound l) (hg' : g'.Wired) : g'.Sound l where
  toWired := hg'
  explained := h.explains hg.toShaped hg'.toShaped hg.explained
  timed := h.timed hg.source_mem hg.timed
  forward := by
    intro r a b hr hb hin
    have hb := h.order ▸ hb
    rw [h.order]
    exact hg.forward hr hb ((h.edge hb).mp hin)
  bounded := by
    rw [h.order]
    exact hg.bounded
  chained := by
    intro k e hk he hne
    rw [h.order] at hk
    obtain ⟨e', he'⟩ := hg.event? hk
    have hloc := (eq_of_face he he' (h.face k hk)).2
    rw [chain?, h.chains, ← chain?, hloc]
    exact hg.chained hk he' (hloc ▸ hne)

/-- Exclusive reads stay completed. -/
theorem paired (hg : g.Wired) (hg' : g'.Wired) (hp : g.Paired) : g'.Paired where
  completed := by
    intro k e he hex
    obtain ⟨e₀, he₀, hex₀, hloc₀⟩ := (h.locksAt_iff hg.toShaped hg'.toShaped).mp ⟨e, he, hex, rfl⟩
    have hk := hg.mem_of_readsAt (LocksAt.readsAt ⟨e₀, he₀, hex₀, hloc₀⟩)
    obtain ⟨e₁, he₁, hpair, hloc₁⟩ := hp.completed he₀ hex₀
    have hnext : k.next ∈ g.order := by
      refine (hg.mem_iff he₁).mpr fun hblock => ?_
      rw [hblock] at hpair
      revert hpair
      generalize e₀.kind = kind
      cases kind <;> decide
    obtain ⟨e', he'⟩ := hg'.event? (h.order.symm ▸ hnext)
    obtain ⟨hkind, hsame⟩ := eq_of_face he he₀ (h.face k hk)
    obtain ⟨hkind', hsame'⟩ := eq_of_face he' he₁ (h.face k.next hnext)
    exact ⟨e', he', by rw [hkind, hkind']; exact hpair, by rw [hsame, hsame']; exact hloc₁⟩
  alone := by
    intro k loc r b hlock hout
    have hlock := (h.locksAt_iff hg.toShaped hg'.toShaped).mp hlock
    have hin := hg'.tidy.known hout
    rcases hg'.mem_or_label (has_of_in hin) with hb | hlabel
    · have hin := (h.edge (h.order ▸ hb)).mp hin
      exact hp.alone hlock (hg.mirrored _ _ _ hin)
    · -- a label stands right behind the last event of its task
      obtain rfl := hg'.label_cause hlabel hin
      obtain ⟨t, n, rfl, -⟩ := hg'.label hlabel
      have hprior := hg'.programOrder hin
      cases n with
      | zero => exact absurd hprior (hg.ne_init_of_readsAt hlock.readsAt)
      | succ n =>
        refine ⟨rfl, ?_⟩
        rw [hprior]
        rfl

end Resembles

end Interleaving.Graph
