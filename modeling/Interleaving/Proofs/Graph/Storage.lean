import Interleaving.Proofs.Graph.Editing
import Interleaving.Proofs.Graph.Order
import Interleaving.Proofs.Graph.Snapshot

/-!
# Graphs are read back

A graph that is edited, with any attributes at its events and nodes, has a sound snapshot
(`Interleaving.Graph.Regular.isSound_ofGraph`): its keys can be told from their texts, and there is
one entry for every event of the total order. So both of its texts are read as its snapshot, and the
text shows all there is to an event: its key, its kind, its location, its attributes as they are
written, and its successors (`Interleaving.Graph.stored_of_alters`).
-/

namespace Interleaving

/-! ### Nodes -/

/-- The numbers of a node are words, and its attributes stand in the order of their names. -/
structure Node.Fits (n : Node) : Prop where
  task : Word.fits n.key.task = true
  seq : Word.fits n.key.seq = true
  location : Word.fits n.location = true
  attributes : n.event.attributes.Sorted
  own : n.attributes.Sorted

instance (n : Node) : Decidable n.Fits :=
  decidable_of_iff (Word.fits n.key.task = true ∧ Word.fits n.key.seq = true ∧
    Word.fits n.location = true ∧ n.event.attributes.Sorted ∧ n.attributes.Sorted)
    ⟨fun ⟨h₁, h₂, h₃, h₄, h₅⟩ => ⟨h₁, h₂, h₃, h₄, h₅⟩,
      fun h => ⟨h.task, h.seq, h.location, h.attributes, h.own⟩⟩

/-- Two nodes of the same contents: what they say of their events and which events follow. -/
structure Node.Matches (m n : Node) : Prop where
  key : m.key = n.key
  kind : m.kind = n.kind
  location : m.location = n.location
  attributes : m.event.attributes.map Attribute.render = n.event.attributes.map Attribute.render
  own : m.attributes.map Attribute.render = n.attributes.map Attribute.render
  successors : ∀ r k, k ∈ m.successors r ↔ k ∈ n.successors r

namespace NodeSnapshot

variable {m n : Node} {r : Relation} {k : Key} {ignoreLocation : Bool}

/-- The successors of a node as they are stored. -/
def edgeEntries (n : Node) : List (String × Option (List String)) :=
  (Relation.byName.filter fun r => !(n.successors r).isEmpty).map fun r =>
    (r.name, some ((Key.sort (n.successors r)).map Key.text))

theorem mem_edgeEntries {e : String × Option (List String)} :
    e ∈ edgeEntries n ↔ ∃ r : Relation, n.successors r ≠ [] ∧
      (r.name, some ((Key.sort (n.successors r)).map Key.text)) = e := by
  have hall : ∀ r : Relation, r ∈ Relation.byName := by
    intro r
    cases r <;> decide
  simp only [edgeEntries, List.mem_map, List.mem_filter, hall, true_and, Bool.not_eq_true',
    List.isEmpty_eq_false_iff]

/-- Every relation is stored once. -/
theorem entries_edges (n : Node) :
    (Dictionary.ofList (edgeEntries n)).entries.Perm (edgeEntries n) := by
  refine Dictionary.perm_ofList ?_
  have hnames : (Relation.byName.map (·.name)).Nodup := by decide
  rw [edgeEntries, List.map_map]
  exact hnames.sublist (List.filter_sublist.map _)

theorem isSound_ofNode (h : n.Fits) (hsuccessors : ∀ {r k}, k ∈ n.successors r → k.IsSound) :
    (ofNode ignoreLocation n).IsSound where
  event := by
    refine ⟨fun i hi => ?_, fun i hi => ?_, fun i hi => ?_, fun d hd => ?_⟩
    · simp only [ofNode] at hi
      split at hi
      · cases hi
      · cases hi
        exact h.task
    · simp only [ofNode] at hi
      split at hi
      · cases hi
      · cases hi
        exact h.seq
    · simp only [ofNode] at hi
      split at hi
      · cases hi
      · cases hi
        exact h.location
    · cases hd
      exact h.attributes.map _
  attributes d hd := by
    cases hd
    exact h.own.map _
  edges d hd := by
    cases hd
    exact Dictionary.sorted_ofList _
  relations d hd e he := by
    cases hd
    obtain ⟨r, -, rfl⟩ := mem_edgeEntries.mp ((entries_edges n).mem_iff.mp he)
    have hname : ∀ r : Relation, (Relation.ofName? r.name).isSome = true := by
      intro r
      cases r <;> decide
    exact hname r
  successors d hd e he s hs := by
    cases hd
    obtain ⟨r, -, rfl⟩ := mem_edgeEntries.mp ((entries_edges n).mem_iff.mp he)
    obtain ⟨k, hk, rfl⟩ := List.mem_map.mp hs
    exact ⟨k, Key.parse?_text (hsuccessors ((Key.sort_perm _).mem_iff.mp hk))⟩

/-- A successor of a node is one of every node that is stored alike. -/
theorem mem_successors_of_eq (hm : ∀ {r k}, k ∈ m.successors r → k.IsSound)
    (hn : ∀ {r k}, k ∈ n.successors r →
      k.IsSound) (h : ofNode ignoreLocation m = ofNode ignoreLocation n)
    (hk : k ∈ m.successors r) : k ∈ n.successors r := by
  have hedges : Dictionary.ofList (edgeEntries m) = Dictionary.ofList (edgeEntries n) :=
    Option.some.inj (congrArg NodeSnapshot.edges h)
  have hentry : (r.name, some ((Key.sort (m.successors r)).map Key.text)) ∈ edgeEntries m :=
    mem_edgeEntries.mpr ⟨r, List.ne_nil_of_mem hk, rfl⟩
  rw [← (entries_edges m).mem_iff, hedges, (entries_edges n).mem_iff, mem_edgeEntries] at hentry
  obtain ⟨r', -, heq⟩ := hentry
  obtain ⟨hname, htexts⟩ := Prod.mk.inj heq
  have hrelation : r' = r := by
    revert hname
    cases r' <;> cases r <;> decide
  subst hrelation
  have htext : k.text ∈ (Key.sort (n.successors r')).map Key.text := by
    rw [Option.some.inj htexts]
    exact List.mem_map_of_mem ((Key.sort_perm _).mem_iff.mpr hk)
  obtain ⟨k', hk', hsame⟩ := List.mem_map.mp htext
  have hk' := (Key.sort_perm _).mem_iff.mp hk'
  exact (Key.text_inj (hn hk') (hm hk)).mp hsame ▸ hk'

/-- **Nodes that are stored alike have the same contents**, if they have the same key. -/
theorem matches_of_eq
    (hm : ∀ {r k}, k ∈ m.successors r → k.IsSound) (hn : ∀ {r k}, k ∈ n.successors r → k.IsSound)
    (hkey : m.key = n.key) (h : ofNode false m = ofNode false n) : m.Matches n where
  key := hkey
  kind := by
    have hname : m.kind.name = n.kind.name := congrArg (fun s => s.event.type) h
    revert hname
    cases m.kind <;> cases n.kind <;> decide
  location := by
    have hlocation : (if !m.event.hasLocation then none else some m.location) =
        if !n.event.hasLocation then none else some n.location :=
          congrArg (fun s => s.event.location) h
    have hnone : ∀ n : Node, n.event.hasLocation = false → n.location = .none := by
      intro n hn
      simpa [Event.hasLocation, Node.location] using hn
    cases hml : m.event.hasLocation <;> cases hnl : n.event.hasLocation <;>
      simp only [hml, hnl] at hlocation
    · rw [hnone m hml, hnone n hnl]
    · cases hlocation
    · cases hlocation
    · exact Option.some.inj hlocation
  attributes := Option.some.inj (congrArg (fun s => s.event.attributes) h)
  own := Option.some.inj (congrArg NodeSnapshot.attributes h)
  successors r k := ⟨mem_successors_of_eq hm hn h, mem_successors_of_eq hn hm h.symm⟩

end NodeSnapshot

namespace Graph

variable {g g' : Graph} {k : Key} {ignoreLocation : Bool}

/-! ### Attributes -/

/-- Gives an event and its node other attributes. -/
def annotate (g : Graph) (k : Key) (attributes own : Attributes) : Graph :=
  g.modifyNode k fun n => { n with event := { n.event with attributes }, attributes := own }

section Annotate

variable (attributes own : Attributes)

theorem keepsEdges_annotate :
    KeepsEdges fun n : Node => { n with event := { n.event with attributes }, attributes := own } :=
  ⟨fun _ => rfl, fun _ => rfl, fun _ => rfl⟩

theorem event?_annotate (g : Graph) (k k' : Key) : (g.annotate k attributes own).event? k' =
    (g.event? k').map fun e => if k' = k then { e with attributes } else e := by
  unfold annotate event?
  rw [find?_modifyNode (keepsEdges_annotate attributes own).key, Option.map_map, Option.map_map]
  congr 1
  funext m
  dsimp only [Function.comp_apply]
  split <;> rfl

/-- Whatever attributes it has, an event keeps its kind and its location. -/
theorem event?_of_annotate {k' : Key} {e' : Event}
    (h : (g.annotate k attributes own).event? k' = some e') :
    ∃ e, g.event? k' = some e ∧ e'.kind = e.kind ∧ e'.location = e.location := by
  rw [event?_annotate, Option.map_eq_some_iff] at h
  obtain ⟨e, he, rfl⟩ := h
  refine ⟨e, he, ?_⟩
  split <;> exact ⟨rfl, rfl⟩

theorem kindOf?_annotate (g : Graph) (k k' : Key) :
    (g.annotate k attributes own).kindOf? k' = g.kindOf? k' := by
  rw [kindOf?_eq_map, kindOf?_eq_map, event?_annotate, Option.map_map]
  congr 1
  funext e
  dsimp only [Function.comp_apply]
  split <;> rfl

theorem Joins.annotate {w : Key} {loc : Location} (h : g.Joins w loc) :
    (g.annotate k attributes own).Joins w loc := by
  obtain ⟨e, he, hloc, hkind⟩ := h
  rw [Joins, event?_annotate, he]
  refine ⟨_, rfl, ?_⟩
  split <;> exact ⟨hloc, hkind⟩

/-- **Attributes say nothing about the shape of a graph.** -/
theorem Regular.annotate (h : g.Regular) (k : Key) : (g.annotate k attributes own).Regular := by
  have hedges := keepsEdges_annotate attributes own
  have hin : ∀ {r a b}, (g.annotate k attributes own).In r a b ↔ g.In r a b := hedges.in_iff
  have hlabel : ∀ k', (g.annotate k attributes own).isLabel k' = g.isLabel k' := fun k' => by
    rw [isLabel, kindOf?_annotate, ← isLabel]
  have hshaped : (g.annotate k attributes own).Shaped :=
    h.toShaped.congr (hedges.tidy h.tidy) rfl rfl (kindOf?_annotate attributes own g k) fun hi =>
      Or.inl (hin.mp hi)
  exact
    { toShaped := hshaped
      initial := fun he => by
        obtain ⟨e, he, hkind, -⟩ := event?_of_annotate attributes own he
        exact hkind.trans (h.initial he)
      sequence := h.sequence
      mirrored := fun r a b hi => hedges.out_iff.mpr (h.mirrored r a b (hin.mp hi))
      linked := fun hhas => by
        rw [has_iff_kindOf?, kindOf?_annotate, ← has_iff_kindOf?] at hhas
        exact hin.mpr (h.linked hhas)
      label_end := fun hl hi => h.label_end (hlabel _ ▸ hl) (hin.mp hi)
      no_fromRead := fun hi => h.no_fromRead (hin.mp hi)
      placed := fun hk he => by
        obtain ⟨e, he, hkind, hloc⟩ := event?_of_annotate attributes own he
        have hplaced := h.placed hk he
        exact ⟨hkind ▸ hloc ▸ hplaced.memory, hkind ▸ hloc ▸ hplaced.thread⟩
      touched := fun hk he => by
        obtain ⟨e, he, -, hloc⟩ := event?_of_annotate attributes own he
        exact hloc ▸ h.touched hk he
      locations := h.locations
      chain_eq := fun hc => by
        obtain ⟨ws, heq, hnodup, hws⟩ := h.chain_eq hc
        exact ⟨ws, heq, hnodup, fun w hw => (hws w hw).annotate attributes own⟩
      source := fun ha hb => h.source (hin.mp ha) (hin.mp hb)
      waits := h.waits
      coherency := hin.trans h.coherency }

end Annotate

/-- **One operation on a graph**: an edit, or other attributes. -/
inductive Alters : Graph → Graph → Prop
  | edit {g g' : Graph} (h : Edits g g') : Alters g g'
  | annotate {g : Graph} (k : Key) (attributes own : Attributes) :
      Alters g (g.annotate k attributes own)

theorem regular_of_alters (h : Relation.ReflTransGen Alters .initial g) : g.Regular := by
  induction h with
  | refl => exact regular_initial
  | tail _ ha ih =>
    cases ha with
    | edit he => exact he.regular ih
    | annotate k attributes own => exact ih.annotate attributes own k

/-! ### Stored graphs -/

theorem Shaped.events_map_key (h : g.Shaped) : g.events.map (·.key) = g.order := by
  have hgo : ∀ ks : List Key, (∀ k ∈ ks, k ∈ g.order) →
      (ks.filterMap g.find?).map (·.key) = ks := by
    intro ks
    induction ks with
    | nil => exact fun _ => rfl
    | cons k ks ih =>
      intro hks
      obtain ⟨n, hn⟩ := h.find? (hks k List.mem_cons_self)
      rw [List.filterMap_cons_some hn, List.map_cons, key_of_find? hn,
        ih fun k hk => hks k (List.mem_cons_of_mem _ hk)]
  exact hgo g.order fun _ hk => hk

namespace Regular

variable (h : g.Regular) (hfits : ∀ n ∈ g.nodes, n.Fits)
include h hfits

/-- The key of every node can be told from its text. -/
theorem isSound_key (hk : g.Has k) : k.IsSound := by
  obtain ⟨n, hn⟩ := hk.exists
  have hplace : ∀ {t i : Nat}, k = .place t i → k.IsSound := by
    rintro t i rfl
    have hnode := hfits n (List.mem_of_find?_eq_some hn)
    have htask := hnode.task
    have hseq := hnode.seq
    rw [key_of_find? hn] at htask hseq
    exact .place htask hseq
  rcases h.mem_or_label hk with hmem | hlabel
  · rcases h.key hmem with rfl | ⟨t, i, heq⟩
    · exact .init
    · exact hplace heq
  · obtain ⟨t, i, heq, -⟩ := h.label hlabel
    exact hplace heq

theorem isSound_successor {n : Node} {r : Relation} (hn : n ∈ g.events) (hk : k ∈ n.successors r) :
    k.IsSound := by
  obtain ⟨k', -, hfind⟩ := List.mem_filterMap.mp hn
  exact h.isSound_key hfits (h.tidy.has_target ((mem_successors hfind).mp hk))

/-- The entries of a stored graph have different names. -/
theorem nodup_texts (ignoreLocation : Bool) :
    ((g.events.map fun n => (n.key.text, NodeSnapshot.ofNode ignoreLocation n)).map
      (·.1)).Nodup := by
  have htexts :
      (g.events.map fun n => (n.key.text, NodeSnapshot.ofNode ignoreLocation n)).map (·.1) =
        g.order.map Key.text := by
    rw [← h.events_map_key, List.map_map, List.map_map]
    rfl
  rw [htexts]
  refine h.nodup.map_on fun a ha b hb heq => ?_
  exact (Key.text_inj (h.isSound_key hfits (h.has ha)) (h.isSound_key hfits (h.has hb))).mp heq

/-- **There is one entry for every event of the total order.** -/
theorem entries_ofGraph (ignoreLocation : Bool) :
    ∃ d, (Snapshot.ofGraph ignoreLocation g).nodes = some d ∧ d.Sorted ∧
      d.entries.Perm (g.events.map fun n => (n.key.text, NodeSnapshot.ofNode ignoreLocation n)) :=
  ⟨_, rfl, Dictionary.sorted_ofList _, Dictionary.perm_ofList (h.nodup_texts hfits ignoreLocation)⟩

/-- **A graph that is edited can be stored.** -/
theorem isSound_ofGraph (ignoreLocation : Bool) : (Snapshot.ofGraph ignoreLocation g).IsSound := by
  obtain ⟨d, hd, hsorted, hperm⟩ := h.entries_ofGraph hfits ignoreLocation
  have hentry : ∀ e ∈ d.entries,
      ∃ n ∈ g.events, (n.key.text, NodeSnapshot.ofNode ignoreLocation n) = e :=
    fun e he => List.mem_map.mp (hperm.mem_iff.mp he)
  have heq : ∀ d' ∈ (Snapshot.ofGraph ignoreLocation g).nodes, d' = d := fun d' hd' =>
    Option.some.inj (hd'.symm.trans hd)
  refine ⟨fun d' hd' => heq d' hd' ▸ hsorted, fun d' hd' e he => ?_, fun d' hd' e he => ?_⟩
  · obtain ⟨n, hn, rfl⟩ := hentry e (heq d' hd' ▸ he)
    obtain ⟨k', -, hfind⟩ := List.mem_filterMap.mp hn
    have hhas : g.Has n.key := by
      rw [key_of_find? hfind]
      exact has_of_find? hfind
    exact ⟨n.key, Key.parse?_text (h.isSound_key hfits hhas)⟩
  · obtain ⟨n, hn, rfl⟩ := hentry e (heq d' hd' ▸ he)
    obtain ⟨k', -, hfind⟩ := List.mem_filterMap.mp hn
    exact NodeSnapshot.isSound_ofNode (hfits n (List.mem_of_find?_eq_some hfind))
      (h.isSound_successor hfits hn)

end Regular

/-- **Two graphs of the same contents**: the same events in the order of their keys, each with the
same contents. -/
structure Matches (g g' : Graph) : Prop where
  keys : g.order.Perm g'.order
  nodes : ∀ {k m n}, k ∈ g.order → g.find? k = some m → g'.find? k = some n → m.Matches n

/-- Graphs that are stored alike have the same contents. -/
theorem Regular.matches_of_eq (h : g.Regular) (hfits : ∀ n ∈ g.nodes, n.Fits) (h' : g'.Regular)
    (hfits' : ∀ n ∈ g'.nodes, n.Fits) (heq : Snapshot.ofGraph false g = .ofGraph false g') :
    g.Matches g' := by
  obtain ⟨d, hd, -, hperm⟩ := h.entries_ofGraph hfits false
  obtain ⟨d', hd', -, hperm'⟩ := h'.entries_ofGraph hfits' false
  rw [heq, hd', Option.some.injEq] at hd
  subst hd
  have hentries := hperm.symm.trans hperm'
  have hinv : ∀ {g : Graph}, g.Regular → (∀ n ∈ g.nodes, n.Fits) → ∀ {k}, k ∈ g.order → k.IsSound :=
    fun h hfits _ hk => h.isSound_key hfits (h.has hk)
  refine ⟨?_, ?_⟩
  · have htexts : (g.order.map Key.text).Perm (g'.order.map Key.text) := by
      have hnames := hentries.map (·.1)
      rw [List.map_map, List.map_map] at hnames
      rw [← h.events_map_key, ← h'.events_map_key, List.map_map, List.map_map]
      exact hnames
    -- a key is the reading of its text
    have hread : ∀ {g : Graph}, g.Regular → (∀ n ∈ g.nodes, n.Fits) →
        (g.order.map Key.text).map Key.parse? = g.order.map .ok := by
      intro g h hfits
      rw [List.map_map]
      exact List.map_congr_left fun k hk => Key.parse?_text (hinv h hfits hk)
    have hparsed := htexts.map Key.parse?
    rw [hread h hfits, hread h' hfits'] at hparsed
    exact (List.map_perm_map_iff fun _ _ heq => Except.ok.inj heq).mp hparsed
  · intro k m n hk hm hn
    have hmem : m ∈ g.events := List.mem_filterMap.mpr ⟨k, hk, hm⟩
    have hentry :=
      hentries.mem_iff.mp (List.mem_map_of_mem (f := fun n : Node => (n.key.text, _)) hmem)
    obtain ⟨n', hn', hpair⟩ := List.mem_map.mp hentry
    obtain ⟨htext, hstored⟩ := Prod.mk.inj hpair
    obtain ⟨k', hk', hfind⟩ := List.mem_filterMap.mp hn'
    have hkey : n'.key = m.key := by
      rw [key_of_find? hfind, key_of_find? hm] at htext ⊢
      exact (Key.text_inj (hinv h' hfits' hk') (hinv h hfits hk)).mp htext
    have hsame : n' = n := by
      have hk'' : k' = k := by rw [← key_of_find? hfind, hkey, key_of_find? hm]
      rw [hk'', hn] at hfind
      exact (Option.some.inj hfind).symm
    subst hsame
    exact NodeSnapshot.matches_of_eq (h.isSound_successor hfits hmem)
      (h'.isSound_successor hfits' hn') hkey.symm hstored.symm

/-- **A graph is read back from both of its texts, and its text shows all there is to its events.**
Its snapshot has one entry for every event of the total order. -/
theorem stored_of_alters (h : Relation.ReflTransGen Alters .initial g)
    (hfits : ∀ n ∈ g.nodes, n.Fits) : Snapshot.decode (g.json false) = .ok (.ofGraph false g) ∧
    Snapshot.decode g.fileText = .ok (.ofGraph false g) ∧
    (∃ d, (Snapshot.ofGraph false g).nodes = some d ∧ d.Sorted ∧
      d.entries.Perm (g.events.map fun n => (n.key.text, NodeSnapshot.ofNode false n)) ∧
      g.events.map (·.key) = g.order) ∧
    ∀ g', Relation.ReflTransGen Alters .initial g' → (∀ n ∈ g'.nodes, n.Fits) →
      g.json false = g'.json false → g.Matches g' := by
  have hg := regular_of_alters h
  have hdecode := Snapshot.decode_compact (hg.isSound_ofGraph hfits false)
  obtain ⟨d, hd, hsorted, hperm⟩ := hg.entries_ofGraph hfits false
  refine ⟨hdecode, Snapshot.decode_indented (hg.isSound_ofGraph hfits _),
    ⟨d, hd, hsorted, hperm, hg.events_map_key⟩, ?_⟩
  intro g' h' hfits' htext
  have hg' := regular_of_alters h'
  have hdecode' := Snapshot.decode_compact (hg'.isSound_ofGraph hfits' false)
  change Snapshot.decode (g.json false) = _ at hdecode
  change Snapshot.decode (g'.json false) = _ at hdecode'
  rw [htext, hdecode'] at hdecode
  exact hg.matches_of_eq hfits hg' hfits' (Except.ok.inj hdecode).symm

/-- The write of `Interleaving.Graph.writtenGraph`, with a value that has to be escaped. -/
def remarkedGraph : Graph :=
  writtenGraph.annotate (.place 0 0) (Attributes.empty.set Event.valueName (.text "<\"\n>"))
    (Attributes.empty.set "" (.bool true))

theorem stored_remarkedGraph :
    Relation.ReflTransGen Alters .initial remarkedGraph ∧ (∀ n ∈ remarkedGraph.nodes, n.Fits) ∧
      Snapshot.decode (remarkedGraph.json false) = .ok (.ofGraph false remarkedGraph) ∧
      remarkedGraph.Matches remarkedGraph := by
  have hwritten : Relation.ReflTransGen Alters .initial writtenGraph :=
    edits_writtenGraph.lift id fun _ _ he => .edit he
  have halters : Relation.ReflTransGen Alters .initial remarkedGraph :=
    hwritten.tail (.annotate _ _ _)
  have hfits : ∀ n ∈ remarkedGraph.nodes, n.Fits := by decide
  have hstored := stored_of_alters halters hfits
  exact ⟨halters, hfits, hstored.1, hstored.2.2.2 remarkedGraph halters hfits rfl⟩

end Graph

end Interleaving
