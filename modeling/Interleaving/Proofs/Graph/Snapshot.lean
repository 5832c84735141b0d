import Interleaving.Graph.Snapshot
import Interleaving.Proofs.Dictionary
import Interleaving.Proofs.Event.Key
import Interleaving.Proofs.Json.Reading

/-!
# Stored graphs are read back

The stored form of a graph is written in two texts, and both are read as the same stored form again
(`Interleaving.Snapshot.decode_of_parse?`): members in any order of a record, dictionaries sorted by
name, keys by their texts. What can be stored so is a **sound** snapshot
(`Interleaving.Snapshot.IsSound`): its dictionaries are sorted, its numbers are words, its names of
nodes and relations can be read.
-/

namespace Interleaving

/-! ### What can be stored -/

/-- An event that can be stored. -/
structure EventSnapshot.IsSound (e : EventSnapshot) : Prop where
  task : ∀ n ∈ e.key.task, Word.fits n = true
  timestamp : ∀ n ∈ e.key.timestamp, Word.fits n = true
  location : ∀ n ∈ e.location, Word.fits n = true
  attributes : ∀ d ∈ e.attributes, d.Sorted

/-- A node that can be stored. -/
structure NodeSnapshot.IsSound (n : NodeSnapshot) : Prop where
  event : n.event.IsSound
  attributes : ∀ d ∈ n.attributes, d.Sorted
  edges : ∀ d ∈ n.edges, d.Sorted
  relations : ∀ d ∈ n.edges, ∀ e ∈ d.entries, (Relation.ofName? e.1).isSome = true
  successors : ∀ d ∈ n.edges, ∀ e ∈ d.entries, ∀ s ∈ e.2.getD [], ∃ k, Key.parse? s = .ok k

namespace Snapshot

/-- A graph that can be stored. -/
structure IsSound (s : Snapshot) : Prop where
  sorted : ∀ d ∈ s.nodes, d.Sorted
  keys : ∀ d ∈ s.nodes, ∀ e ∈ d.entries, ∃ k, Key.parse? e.1 = .ok k
  nodes : ∀ d ∈ s.nodes, ∀ e ∈ d.entries, e.2.IsSound

/-! ### Legible documents -/

theorem legible_orNull {α : Type} {f : α → Json} {n : Nat} {a : Option α}
    (h : ∀ x ∈ a, Json.Legible n (f x)) : Json.Legible n (orNull f a) := by
  cases a with
  | none => exact .null
  | some x => exact h x rfl

theorem legible_dictionaryJson {α : Type} {f : α → Json} {n : Nat} {d : Dictionary α}
    (h : ∀ e ∈ d.entries, Json.Legible n (f e.2)) : Json.Legible (n + 1) (dictionaryJson f d) := by
  refine .object fun m hm => ?_
  obtain ⟨e, he, rfl⟩ := List.mem_map.mp hm
  exact h e he

/-- The text of an event is legible. -/
theorem legible_eventJson (e : EventSnapshot) : Json.Legible 2 (eventJson e) := by
  have hkey : Json.Legible 1 (.object
      [("taskId", orNull .ofInt e.key.task), ("timestamp", orNull .ofInt e.key.timestamp)]) := by
    refine .object fun m hm => ?_
    rcases List.mem_cons.mp hm with rfl | hm
    · exact legible_orNull fun n _ => .number n
    · rw [List.mem_singleton.mp hm]
      exact legible_orNull fun n _ => .number n
  have hattributes : Json.Legible 1 (orNull (dictionaryJson .text) e.attributes) :=
    legible_orNull fun d _ => legible_dictionaryJson fun _ _ => .text _
  refine .object fun m hm => ?_
  rw [List.mem_append, List.mem_append, List.mem_singleton, List.mem_cons, List.mem_singleton] at hm
  rcases hm with (rfl | hm) | rfl | rfl
  · exact hkey
  · split at hm
    · rw [List.mem_singleton.mp hm]
      exact .number _
    · cases hm
  · exact .text _
  · exact hattributes

/-- The text of a node is legible, one level further out. -/
theorem legible_nodeJson (n : NodeSnapshot) : Json.Legible 3 (nodeJson n) := by
  have hattributes : Json.Legible 2 (orNull (dictionaryJson .text) n.attributes) :=
    legible_orNull fun d _ => legible_dictionaryJson fun _ _ => .text _
  have hedges : Json.Legible 2 (orNull (dictionaryJson (orNull textsJson)) n.edges) := by
    refine legible_orNull fun d _ => legible_dictionaryJson fun e _ => legible_orNull fun ks _ =>
      .array fun v hv => ?_
    obtain ⟨s, -, rfl⟩ := List.mem_map.mp hv
    exact .text s
  refine .object fun m hm => ?_
  rw [List.mem_cons, List.mem_cons, List.mem_singleton] at hm
  rcases hm with rfl | rfl | rfl
  · exact legible_eventJson n.event
  · exact hattributes
  · exact hedges

/-- **The text of a stored graph is legible.** -/
theorem legible_toJson (s : Snapshot) : Json.Legible 5 s.toJson := by
  refine .object fun m hm => ?_
  rw [List.mem_singleton.mp hm]
  exact legible_orNull fun d _ => legible_dictionaryJson fun e _ => legible_nodeJson e.2

/-! ### Reading -/

theorem readRecord?_object {α : Type} (field : String → Json → α → Option α)
    (members : List (String × Json)) (old : α) : Json.readRecord? field (.object members) old =
      members.foldlM (fun acc (name, v) => field (Json.foldName name) v acc) old := rfl

/-- An integer that may be missing is read back. -/
theorem readOptionalInt?_orNull {a : Option Int} (h : ∀ n ∈ a, Word.fits n = true) :
    Json.readOptionalInt? (orNull .ofInt a) = some a := by
  cases a with
  | none => rfl
  | some n =>
    have hread : Text.decimal? (Text.decimal n).toList = some n := Text.decimal?_decimal (h n rfl)
    simp only [orNull, Json.ofInt, Json.readOptionalInt?, hread, Option.map_some]

/-- Members are read one after the other. -/
theorem readDictionary?_cons {α : Type} {item : Json → Option α} (name : String) (v : Json)
    (members : List (String × Json)) (acc : Dictionary α) :
    Json.readDictionary? item (.object ((name, v) :: members)) (some acc) =
      (item v).bind fun a =>
        Json.readDictionary? item (.object members) (some (acc.set name a)) := by
  simp only [Json.readDictionary?, List.foldlM_cons]
  cases item v <;> rfl

/-- Every entry that is read is set in turn. -/
theorem readDictionary?_object {α : Type} {f : α → Json} {item : Json → Option α}
    {entries : List (String × α)} (h : ∀ e ∈ entries, item (f e.2) = some e.2)
    (acc : Dictionary α) :
    Json.readDictionary? item (.object (entries.map fun e => (e.1, f e.2))) (some acc) =
      some (some (entries.foldl (fun d e => d.set e.1 e.2) acc)) := by
  induction entries generalizing acc with
  | nil => rfl
  | cons e rest ih =>
    rw [List.map_cons, readDictionary?_cons, h e List.mem_cons_self]
    exact ih (fun e he => h e (List.mem_cons_of_mem _ he)) _

/-- **A sorted dictionary is read back**, if what it holds is. -/
theorem readDictionary?_orNull {α : Type} {f : α → Json} {item : Json → Option α}
    {a : Option (Dictionary α)} (hsorted : ∀ d ∈ a, d.Sorted)
    (hitem : ∀ d ∈ a, ∀ e ∈ d.entries, item (f e.2) = some e.2) :
    Json.readDictionary? item (orNull (dictionaryJson f) a) none = some a := by
  cases a with
  | none => rfl
  | some d =>
    have hread := readDictionary?_object (hitem d rfl) .empty
    rw [← Dictionary.ofList, Dictionary.ofList_entries (hsorted d rfl)] at hread
    exact hread

/-- A list of texts that may be missing is read back. -/
theorem readList?_textsJson (ks : Option (List String)) :
    Json.readList? readEntry? (orNull textsJson ks) = some ks := by
  have hitems : ∀ ks : List String, (ks.map Json.text).mapM readEntry? = some ks := by
    intro ks
    induction ks with
    | nil => rfl
    | cons s ks ih =>
      rw [List.map_cons, List.mapM_cons, ih]
      rfl
  cases ks with
  | none => rfl
  | some ks => simp only [orNull, textsJson, Json.readList?, hitems, Option.map_some]

/-- **A stored event is read back.** -/
theorem readRecord?_eventJson {e : EventSnapshot} (h : e.IsSound) :
    Json.readRecord? readEventField? (eventJson e) NodeSnapshot.empty.event = some e := by
  have hkey : Json.foldName "key" = "key" := by decide
  have htask : Json.foldName "taskId" = "taskid" := by decide
  have htimestamp : Json.foldName "timestamp" = "timestamp" := by decide
  have hlocation : Json.foldName "location" = "location" := by decide
  have htype : Json.foldName "type" = "type" := by decide
  have hattributes : Json.foldName "attributes" = "attributes" := by decide
  have hread : Json.readDictionary? readEntry? (orNull (dictionaryJson .text) e.attributes) none =
      some e.attributes :=
    readDictionary?_orNull h.attributes fun _ _ _ _ => rfl
  obtain ⟨⟨task, timestamp⟩, location, type, attributes⟩ := e
  have hread' : Json.readRecord? readKeyField?
      (.object [("taskId", orNull .ofInt task), ("timestamp", orNull .ofInt timestamp)])
      ⟨none, none⟩ =
        some ⟨task, timestamp⟩ := by
    simp [readRecord?_object, htask, htimestamp, readKeyField?, readOptionalInt?_orNull h.task,
      readOptionalInt?_orNull h.timestamp]
  -- a location that is missing is left out of the text
  cases location with
  | none =>
    simp [eventJson, readRecord?_object, hkey, htype, hattributes, readEventField?, hread', hread,
      Json.readString?, NodeSnapshot.empty]
  | some n =>
    have hn : Json.readOptionalInt? (.ofInt n) = some (some n) := readOptionalInt?_orNull h.location
    simp [eventJson, readRecord?_object, hkey, hlocation, htype, hattributes, readEventField?,
      hread', hn, hread, Json.readString?, NodeSnapshot.empty]

/-- **A stored node is read back**, with its event, attributes and edges. -/
theorem readRecord?_nodeJson {n : NodeSnapshot} (h : n.IsSound) :
    Json.readRecord? readNodeField? (nodeJson n) .empty = some n := by
  have hevent : Json.foldName "event" = "event" := by decide
  have hattributes : Json.foldName "attributes" = "attributes" := by decide
  have hedges : Json.foldName "edges" = "edges" := by decide
  have hread : Json.readDictionary? readEntry? (orNull (dictionaryJson .text) n.attributes) none =
      some n.attributes :=
    readDictionary?_orNull h.attributes fun _ _ _ _ => rfl
  have hsuccessors : Json.readDictionary? (Json.readList? readEntry?)
      (orNull (dictionaryJson (orNull textsJson)) n.edges) none = some n.edges :=
    readDictionary?_orNull h.edges fun _ _ e _ => readList?_textsJson e.2
  have hnone : NodeSnapshot.empty.attributes = none := rfl
  have hnone' : NodeSnapshot.empty.edges = none := rfl
  simp [nodeJson, readRecord?_object, hevent, hattributes, hedges, readNodeField?,
    readRecord?_eventJson h.event, hread, hsuccessors, hnone, hnone']

/-- **A stored graph is read back.** -/
theorem readRecord?_toJson {s : Snapshot} (h : s.IsSound) :
    Json.readRecord? readField? s.toJson ⟨none⟩ = some s := by
  have hnodes : Json.foldName "nodes" = "nodes" := by decide
  have hread : Json.readDictionary? (fun v => Json.readRecord? readNodeField? v .empty)
      (orNull (dictionaryJson nodeJson) s.nodes) none = some s.nodes :=
    readDictionary?_orNull h.sorted fun d hd e he => readRecord?_nodeJson (h.nodes d hd e he)
  simp [toJson, readRecord?_object, hnodes, readField?, hread]

/-! ### Checking -/

theorem checkSuccessors_eq_ok {node : String} {ks : List String}
    (h : ∀ s ∈ ks, ∃ k, Key.parse? s = .ok k) : checkSuccessors node ks = .ok () := by
  induction ks with
  | nil => rfl
  | cons s ks ih =>
    obtain ⟨k, hk⟩ := h s List.mem_cons_self
    rw [checkSuccessors, hk]
    exact ih fun s hs => h s (List.mem_cons_of_mem _ hs)

/-- Edges with known relations and legible keys pass the check. -/
theorem checkEdges_eq_ok {node : String} {edges : List (String × Option (List String))}
    (hnames : ∀ e ∈ edges, (Relation.ofName? e.1).isSome = true)
    (hkeys : ∀ e ∈ edges, ∀ s ∈ e.2.getD [], ∃ k, Key.parse? s = .ok k) : checkEdges node edges =
      .ok () := by
  induction edges with
  | nil => rfl
  | cons e edges ih =>
    obtain ⟨name, ks⟩ := e
    obtain ⟨r, hr⟩ := Option.isSome_iff_exists.mp (hnames _ List.mem_cons_self)
    rw [checkEdges, hr, checkSuccessors_eq_ok (hkeys _ List.mem_cons_self)]
    exact ih (fun e he => hnames e (List.mem_cons_of_mem _ he)) fun e he =>
      hkeys e (List.mem_cons_of_mem _ he)

/-- Nodes with legible keys and good edges pass the check. -/
theorem checkNodes_eq_ok
    {entries : List (String × NodeSnapshot)} (hkeys : ∀ e ∈ entries, ∃ k, Key.parse? e.1 = .ok k)
    (hnodes : ∀ e ∈ entries, e.2.IsSound) : checkNodes entries = .ok () := by
  induction entries with
  | nil => rfl
  | cons e entries ih =>
    obtain ⟨name, n⟩ := e
    obtain ⟨k, hk⟩ := hkeys _ List.mem_cons_self
    have hn : n.IsSound := hnodes (name, n) List.mem_cons_self
    have hedges : checkEdges name ((n.edges.map (·.entries)).getD []) = .ok () := by
      cases hd : n.edges with
      | none => rfl
      | some d => exact checkEdges_eq_ok (hn.relations d hd) (hn.successors d hd)
    rw [checkNodes, hk, hedges]
    exact ih (fun e he => hkeys e (List.mem_cons_of_mem _ he)) fun e he =>
      hnodes e (List.mem_cons_of_mem _ he)

/-- **A text that holds a sound snapshot is read as that snapshot.** -/
theorem decode_of_parse? {s : Snapshot} (h : s.IsSound) {text : String}
    (htext : Json.parse? text = some s.toJson) : decode text = .ok s := by
  have hchecks : checkNodes ((s.nodes.map (·.entries)).getD []) = .ok () := by
    cases hd : s.nodes with
    | none => rfl
    | some d => exact checkNodes_eq_ok (h.keys d hd) (h.nodes d hd)
  rw [decode, htext, Option.bind_some, readRecord?_toJson h]
  simp only [hchecks]
  rfl

/-- A stored graph is decoded from its text on one line. -/
theorem decode_compact {s : Snapshot} (h : s.IsSound) : decode s.toJson.compact = .ok s :=
  decode_of_parse? h (Json.parse?_compact (legible_toJson s) (by decide))

/-- A stored graph is decoded from its indented text. -/
theorem decode_indented {s : Snapshot} (h : s.IsSound) : decode s.toJson.indented = .ok s :=
  decode_of_parse? h (Json.parse?_indented (legible_toJson s) (by decide))

end Snapshot

end Interleaving
