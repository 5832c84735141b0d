import Interleaving.Proofs.Graph.Pairs
import Interleaving.Proofs.Graph.Shape

/-!
# Well-formed graphs and what explains them

A graph is **wired** (`Interleaving.Graph.Wired`) when program order links the neighbours of every
task, coherency links the neighbours of every chain, and every read has one source in the chain of
its location. It is **well-formed** (`Interleaving.Graph.WellFormed`) when, besides, every write is
in the chain of its location; a write that is being recorded is the one that may be missing there.

A graph is **explained** by an order of all its events (`Interleaving.Graph.Explains`) that keeps
program order and the edges of threads, in which the writes of every location stand in chain order,
every read sees the latest write before it, and no write comes between the halves of an atomic
update or of a lock acquisition. That is sequential consistency, said without the graph's own way of
finding such an order. All edges of a wired graph go forward in such an order
(`Interleaving.Graph.Explains.linear`), so time does not run in a cycle
(`Interleaving.Graph.Linear.dense`).
-/

namespace Interleaving

namespace Relation

/-- Program order and the edges of the life of threads. -/
def ordersThreads (r : Relation) : Bool :=
  r = .programOrder || r = .threadCreation || r = .threadStart || r = .threadJoin

end Relation

namespace Graph

variable {g : Graph} {a b k w : Key} {r : Relation} {loc : Location} {l ks : List Key}

/-- A write to a location. -/
def WritesTo (g : Graph) (k : Key) (loc : Location) : Prop :=
  ∃ e, g.event? k = some e ∧ e.kind.isWrite = true ∧ e.location = loc

/-- A read of a location. -/
def ReadsAt (g : Graph) (k : Key) (loc : Location) : Prop :=
  ∃ e, g.event? k = some e ∧ e.kind.isRead = true ∧ e.location = loc

/-- An exclusive read of a location. -/
def LocksAt (g : Graph) (k : Key) (loc : Location) : Prop :=
  ∃ e, g.event? k = some e ∧ e.kind.isExclusiveRead = true ∧ e.location = loc

/-- A graph with all its edges in place: program order links neighbours of a task, coherency links
neighbours of a chain, and every read has one source, in the chain of its location. -/
structure Wired (g : Graph) : Prop extends g.Shaped where
  mirrored : g.Mirrored
  initial : ∀ {e}, g.event? .init = some e → e.kind = .init
  linked : ∀ {t i : Nat}, g.Has (.place t i) → g.In .programOrder (.prior t i) (.place t i)
  label_end : ∀ {r a b}, g.isLabel a = true → ¬g.In r a b
  no_fromRead : ∀ {a b}, ¬g.In .fromRead a b
  locations : (g.chains.map (·.1)).Nodup
  chain_eq : ∀ {c}, c ∈ g.chains → c.1 ≠ .thread →
    ∃ ws, c.2 = .init :: ws ∧ ws.Nodup ∧ ∀ w ∈ ws, g.WritesTo w c.1
  coherency : ∀ {a b}, g.In .coherency a b ↔ ∃ loc, loc ≠ .thread ∧ [a, b] <:+: g.chain loc
  source : ∀ {k loc}, g.ReadsAt k loc →
    loc ≠ .thread ∧ ∃ w ∈ g.chain loc, ∀ a, g.In .readsFrom a k ↔ a = w
  reads : ∀ {a b}, g.In .readsFrom a b → ∃ loc, g.ReadsAt b loc

/-- A graph with all its edges in place and every write in the chain of its location. -/
structure WellFormed (g : Graph) : Prop extends g.Wired where
  written : ∀ {k loc}, g.WritesTo k loc → loc ≠ .thread ∧ k ∈ g.chain loc

/-- Every exclusive read is followed in its task by the write that completes it, and by nothing
else. -/
structure Paired (g : Graph) : Prop where
  completed : ∀ {k e}, g.event? k = some e → e.kind.isExclusiveRead = true →
    ∃ e', g.event? k.next = some e' ∧ e.kind.pairsWith e'.kind = true ∧ e'.location = e.location
  alone : ∀ {k loc r b}, g.LocksAt k loc → g.Out r k b → r = .programOrder ∧ b = k.next

/-- **An order explains a graph** under sequential consistency. -/
structure Explains (g : Graph) (l : List Key) : Prop where
  /-- Every event is listed once. -/
  perm : l.Perm g.order
  /-- Program order and the edges of threads go forward. -/
  forward : ∀ {r a b}, r.ordersThreads = true → b ∈ g.order → g.In r a b → Before l a b
  /-- The writes of every location stand in chain order, after the first event. -/
  coherent : ∀ {loc}, loc ≠ .thread → (g.chain loc).Pairwise (Before l)
  /-- Every read sees the latest write before it, the first event if there is none. -/
  latest : ∀ {r w loc}, g.ReadsAt r loc → g.In .readsFrom w r →
    Before l w r ∧ ∀ v, g.WritesTo v loc → Before l v r → v = w ∨ Before l v w
  /-- No write to the location comes between an exclusive read and the write that completes it. -/
  undivided : ∀ {r v loc}, g.LocksAt r loc → g.WritesTo v loc → Before l r v → ¬Before l v r.next

/-! ### Chains -/

theorem lookup_of_mem {α β : Type} [BEq α] [LawfulBEq α] {l : List (α × β)} {a : α} {b : β}
    (hnodup : (l.map (·.1)).Nodup) (h : (a, b) ∈ l) : l.lookup a = some b := by
  induction l with
  | nil => cases h
  | cons d l ih =>
    rw [List.map_cons, List.nodup_cons] at hnodup
    rw [List.lookup_cons]
    rcases List.mem_cons.mp h with rfl | h
    · simp
    · have hne : a ≠ d.1 := fun heq => hnodup.1 (heq ▸ List.mem_map_of_mem h)
      rw [beq_false_of_ne hne]
      exact ih hnodup.2 h

theorem mem_chains_of_mem (h : k ∈ g.chain loc) : (loc, g.chain loc) ∈ g.chains := by
  unfold chain chain? at h ⊢
  cases hlook : g.chains.lookup loc with
  | none =>
    rw [hlook] at h
    cases h
  | some ks =>
    obtain ⟨l₁, l₂, heq, -⟩ := List.lookup_eq_some_iff.mp hlook
    rw [heq]
    exact List.mem_append_right _ List.mem_cons_self

theorem WritesTo.unique {loc' : Location} (h : g.WritesTo k loc) (h' : g.WritesTo k loc') :
    loc = loc' := by
  obtain ⟨e, he, -, rfl⟩ := h
  obtain ⟨e', he', -, rfl⟩ := h'
  rw [he] at he'
  cases he'
  rfl

theorem LocksAt.readsAt (h : g.LocksAt k loc) : g.ReadsAt k loc := by
  obtain ⟨e, he, hkind, hloc⟩ := h
  refine ⟨e, he, ?_, hloc⟩
  revert hkind
  generalize e.kind = kind
  cases kind <;> decide

theorem ReadsAt.unique {loc' : Location} (h : g.ReadsAt k loc) (h' : g.ReadsAt k loc') :
    loc = loc' := by
  obtain ⟨e, he, -, rfl⟩ := h
  obtain ⟨e', he', -, rfl⟩ := h'
  rw [he] at he'
  cases he'
  rfl

theorem ReadsAt.not_writesTo {loc' : Location} (h : g.ReadsAt k loc) : ¬g.WritesTo k loc' := by
  rintro ⟨e', he', hwrite, -⟩
  obtain ⟨e, he, hread, -⟩ := h
  rw [he] at he'
  cases he'
  revert hread hwrite
  generalize e'.kind = kind
  cases kind <;> decide

theorem Shaped.mem_of_writesTo (h : g.Shaped) (hk : g.WritesTo k loc) : k ∈ g.order := by
  obtain ⟨e, he, hwrite, -⟩ := hk
  refine (h.mem_iff he).mpr fun hblock => ?_
  rw [hblock] at hwrite
  cases hwrite

theorem Shaped.mem_of_readsAt (h : g.Shaped) (hk : g.ReadsAt k loc) : k ∈ g.order := by
  obtain ⟨e, he, hread, -⟩ := hk
  refine (h.mem_iff he).mpr fun hblock => ?_
  rw [hblock] at hread
  cases hread

namespace Wired

variable (h : g.Wired)
include h

theorem chain_of_mem (hc : (loc, ks) ∈ g.chains) : g.chain loc = ks := by
  unfold chain chain?
  rw [lookup_of_mem h.locations hc]
  rfl

theorem ne_init_of_writesTo (hk : g.WritesTo k loc) : k ≠ .init := by
  rintro rfl
  obtain ⟨e, he, hwrite, -⟩ := hk
  rw [h.initial he] at hwrite
  cases hwrite

theorem ne_init_of_readsAt (hk : g.ReadsAt k loc) : k ≠ .init := by
  rintro rfl
  obtain ⟨e, he, hread, -⟩ := hk
  rw [h.initial he] at hread
  cases hread

/-- The chain of a location is empty, or the first event stands in front of the writes. -/
theorem chain_cases (hloc : loc ≠ .thread) :
    g.chain loc = [] ∨ ∃ ws, g.chain loc = .init :: ws ∧ ws.Nodup ∧ ∀ w ∈ ws, g.WritesTo w loc := by
  cases hchain : g.chain loc with
  | nil => exact Or.inl rfl
  | cons k ks =>
    have hk : k ∈ g.chain loc := hchain ▸ List.mem_cons_self
    have hmem := mem_chains_of_mem hk
    rw [hchain] at hmem
    exact Or.inr (h.chain_eq hmem hloc)

theorem nodup_chain (hloc : loc ≠ .thread) : (g.chain loc).Nodup := by
  rcases h.chain_cases hloc with heq | ⟨ws, heq, hnodup, hws⟩
  · rw [heq]
    exact List.nodup_nil
  · rw [heq, List.nodup_cons]
    exact ⟨fun hmem => h.ne_init_of_writesTo (hws _ hmem) rfl, hnodup⟩

theorem mem_chain (hloc : loc ≠ .thread) (hk : k ∈ g.chain loc) : k = .init ∨ g.WritesTo k loc := by
  rcases h.chain_cases hloc with heq | ⟨ws, heq, -, hws⟩
  · rw [heq] at hk
    cases hk
  · rw [heq] at hk
    exact (List.mem_cons.mp hk).imp_right (hws k)

/-- What comes after another key in a chain is a write. -/
theorem writesTo_of_adjacent (hloc : loc ≠ .thread) (hab : [a, b] <:+: g.chain loc) :
    g.WritesTo b loc := by
  rcases h.chain_cases hloc with heq | ⟨ws, heq, -, hws⟩
  · rw [heq] at hab
    simpa using hab.length_le
  · rw [heq, infix_cons_iff] at hab
    rcases hab with ⟨-, hhead⟩ | hab
    · exact hws b (List.mem_of_head? hhead)
    · exact hws b (hab.subset (by simp))

end Wired

/-! ### Orders in which all edges go forward -/

/-- An order of the events in which all edges go forward. -/
structure Linear (g : Graph) (l : List Key) : Prop where
  perm : l.Perm g.order
  edge : ∀ {r a b}, b ∈ g.order → g.In r a b → Before l a b

/-- **All edges of a wired graph go forward in an order that explains it.** -/
theorem Explains.linear (h : g.Wired) (hl : g.Explains l) : g.Linear l where
  perm := hl.perm
  edge := by
    intro r a b hb hin
    cases hr : r.ordersThreads with
    | true => exact hl.forward hr hb hin
    | false =>
      cases r with
      | readsFrom =>
        obtain ⟨loc, hread⟩ := h.reads hin
        exact (hl.latest hread hin).1
      | coherency =>
        obtain ⟨loc, hloc, hadj⟩ := h.coherency.mp hin
        exact rel_of_before (hl.coherent hloc) (before_of_adjacent (h.nodup_chain hloc) hadj)
      | fromRead => exact absurd hin h.no_fromRead
      | _ => cases hr

/-- Where an edge to an event starts there is an event. -/
theorem Wired.source_mem (h : g.Wired) (hin : g.In r a b) : a ∈ g.order :=
  (h.mem_or_label (has_of_out (h.mirrored _ _ _ hin))).resolve_right fun hlabel =>
    h.label_end hlabel hin

/-- The events of a graph with an order in which all edges go forward are numbered through, and time
does not run in a cycle. -/
theorem Linear.dense (hl : g.Linear l) (h : g.Shaped) (hlen : g.order.length < 2 ^ 62)
    (hlinked : ∀ {t i : Nat}, .place t i ∈ g.order → g.In .programOrder (.prior t i) (.place t i))
    (hsource : ∀ {r a b}, g.In r a b → a ∈ g.order) : g.Dense where
  key := by
    intro k hk
    refine (h.key hk).imp_right ?_
    rintro ⟨t, i, rfl⟩
    have hlt := h.place_lt hk
    exact ⟨t, i, rfl, by omega⟩
  source_mem := by
    rintro a b - ⟨r, -, hin⟩
    exact hsource hin
  programOrder := fun hb => ⟨h.programOrder, fun heq => heq ▸ hlinked hb⟩
  no_cause := by
    rintro a ⟨r, -, hin⟩
    exact h.no_cause hin
  acyclic := by
    intro a ha
    have hbefore : ∀ {a b}, g.Past a b → b ∈ g.order → Before l a b := by
      intro a b hp
      induction hp with
      | single hab =>
        obtain ⟨r, -, hin⟩ := hab
        exact fun hb => hl.edge hb hin
      | tail _ hbc ih =>
        obtain ⟨r, -, hin⟩ := hbc
        exact fun hc => (ih (hsource hin)).trans (hl.edge hc hin)
    obtain ⟨d, ⟨r, -, hin⟩, -⟩ := Relation.TransGen.head'_iff.mp ha
    exact Before.irrefl l a (hbefore ha (hsource hin))

end Graph

end Interleaving
