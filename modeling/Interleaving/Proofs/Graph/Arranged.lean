import Interleaving.Proofs.Graph.Acyclic
import Interleaving.Proofs.Graph.Editing

/-!
# Graphs that can be put in order

To sort a graph, to compute its clocks anew and to compare it with another one, little has to be
known of it: nodes are numbered through in their tasks, the total order lists all of them but the
labels, edges are kept at both ends, every event comes after another one in program order, and
nothing comes before the first event or after a label. Such a graph is **arranged**
(`Interleaving.Graph.Arranged`). Edges may run in a cycle, clocks may be anything, and chains play
no part. Where program order comes from the place before, the graph is **numbered**
(`Interleaving.Graph.Numbered`). Every regular graph is both.

Labels do not count as events, but edges lead to them. The graph without them
(`Interleaving.Graph.unlabelled`) has the same events with the same edges between them
(`Interleaving.Graph.Arranged.sameEvents_unlabelled`), and can be walked as it is
(`Interleaving.Graph.Arranged.formed_unlabelled`).
-/

namespace Interleaving.Graph

variable {g h : Graph} {a b k : Key} {r : Relation} {t n : Nat}

/-- **A graph that can be put in order**: its views agree, edges are kept at both ends, and every
event but the first comes after another one in program order. -/
structure Arranged (g : Graph) : Prop where
  tidy : g.Tidy
  mirrored : g.Mirrored
  nodup : g.order.Nodup
  first : g.order.head? = some .init
  /-- The key of a node is its place in its task. -/
  tasks : ∀ t : Nat, ∃ n, g.taskKeys t = places t n
  /-- Every node but that of the first event stands in a task. -/
  has_iff : ∀ {k}, g.Has k ↔ k = .init ∨ ∃ t : Nat, k ∈ g.taskKeys t
  /-- The total order lists all nodes but the labels. -/
  mem_iff : ∀ {k}, k ∈ g.order ↔ g.Has k ∧ g.isLabel k = false
  /-- A label is the last node of its task. -/
  label_last : ∀ {t i : Nat}, g.isLabel (.place t i) = true → g.taskKeys t = places t (i + 1)
  label_end : ∀ {r a b}, g.isLabel a = true → ¬g.Out r a b
  linked : ∀ {k}, k ∈ g.order → k ≠ .init → ∃ a, g.In .programOrder a k
  no_cause : ∀ {r a}, ¬g.In r a .init

/-- A graph that can be put in order, in which program order comes from the place before. -/
structure Numbered (g : Graph) : Prop extends g.Arranged where
  programOrder : ∀ {t i : Nat} {a}, g.Has (.place t i) →
    (g.In .programOrder a (.place t i) ↔ a = .prior t i)

/-- Two graphs have the same events with the same edges between them; labels may differ. -/
structure SameEvents (g h : Graph) : Prop where
  mem : ∀ k, k ∈ g.order ↔ k ∈ h.order
  out : ∀ {r a b}, b ∈ g.order → (g.Out r a b ↔ h.Out r a b)

theorem named_place (t i : Nat) : (Key.place t i).Named := by
  intro hinit
  rw [Key.isInit_place] at hinit
  cases hinit

/-- Graphs with the same events are of the same size. -/
theorem SameEvents.size (hs : SameEvents g h) (hg : g.order.Nodup) (hh : h.order.Nodup) :
    h.size = g.size :=
  ((List.perm_ext_iff_of_nodup hh hg).mpr fun k => (hs.mem k).symm).length_eq

namespace Arranged

variable (hg : g.Arranged)
include hg

theorem init_mem : Key.init ∈ g.order := List.mem_of_mem_head? (by rw [hg.first]; rfl)

theorem has (hk : k ∈ g.order) : g.Has k := (hg.mem_iff.mp hk).1

theorem not_label (hk : k ∈ g.order) : g.isLabel k = false := (hg.mem_iff.mp hk).2

/-- A node is an event or a label. -/
theorem mem_or_label (hk : g.Has k) : k ∈ g.order ∨ g.isLabel k = true := by
  cases hlabel : g.isLabel k with
  | true => exact Or.inr rfl
  | false => exact Or.inl (hg.mem_iff.mpr ⟨hk, hlabel⟩)

/-- Nodes have places in tasks, apart from the first event. -/
theorem key (hk : g.Has k) : k = .init ∨ ∃ t i : Nat, k = .place t i := by
  refine (hg.has_iff.mp hk).imp_right ?_
  rintro ⟨t, hmem⟩
  obtain ⟨n, hn⟩ := hg.tasks t
  rw [hn] at hmem
  obtain ⟨i, -, rfl⟩ := mem_places.mp hmem
  exact ⟨t, i, rfl⟩

/-- The keys of nodes can be told apart by the order of keys. -/
theorem named (hk : g.Has k) : k.Named := by
  rcases hg.key hk with rfl | ⟨t, i, rfl⟩
  · exact fun _ => rfl
  · exact named_place t i

/-- Edges start at events. -/
theorem source_mem (hin : g.In r a b) : a ∈ g.order := by
  have hout := hg.mirrored _ _ _ hin
  exact (hg.mem_or_label (has_of_out hout)).resolve_right fun hlabel => hg.label_end hlabel hout

/-- An event is what is in the total order. -/
theorem isEvent_iff {m : Node} (hm : g.find? k = some m) : isEvent m = true ↔ k ∈ g.order := by
  rw [hg.mem_iff, and_iff_right (has_of_find? hm), ← Bool.not_eq_true, isLabel_iff hm]
  simp [isEvent, Kind.isBlocking]

/-- A label is the last of its task. -/
theorem lastOf_label (hk : g.isLabel k = true) : g.lastOf k.task = k := by
  rcases hg.key (has_of_isLabel hk) with rfl | ⟨t, i, rfl⟩
  · exact absurd hk (by rw [hg.not_label hg.init_mem]; decide)
  · exact lastOf_eq (hg.label_last hk)

/-- Every node is found when it becomes free. -/
theorem reachable? {m : Node} (hm : g.find? k = some m) : g.reachable? k = some m := by
  unfold Graph.reachable?
  rw [if_pos ?_, hm]
  rcases hg.mem_or_label (has_of_find? hm) with hk | hlabel
  · simp [hk]
  · simp [hlabel, hg.lastOf_label hlabel]

end Arranged

/-- A graph whose events are numbered through is arranged when its edges are kept at both ends and
program order links every node to the one before it. -/
theorem Shaped.arranged (hg : g.Shaped) (hm : g.Mirrored)
    (hend : ∀ {r a b}, g.isLabel a = true → ¬g.In r a b)
    (hlinked : ∀ {t i : Nat}, g.Has (.place t i) → g.In .programOrder (.prior t i) (.place t i)) :
    g.Arranged where
  tidy := hg.tidy
  mirrored := hm
  nodup := hg.nodup
  first := hg.first
  tasks := by
    intro t
    obtain ⟨n, -, hkeys | ⟨hkeys, -⟩⟩ := hg.tasks t
    · exact ⟨n, hkeys⟩
    · exact ⟨n + 1, hkeys⟩
  has_iff := by
    intro k
    constructor
    · intro hhas
      rcases hg.mem_or_label hhas with hk | hlabel
      · refine (hg.key hk).imp_right ?_
        rintro ⟨t, i, rfl⟩
        exact ⟨t, hg.mem_taskKeys.mpr ⟨i, rfl, hhas⟩⟩
      · obtain ⟨t, n, rfl, -⟩ := hg.label hlabel
        exact Or.inr ⟨t, hg.mem_taskKeys.mpr ⟨n, rfl, hhas⟩⟩
    · rintro (rfl | ⟨t, hk⟩)
      · exact hg.has hg.init_mem
      · obtain ⟨-, -, hhas⟩ := hg.mem_taskKeys.mp hk
        exact hhas
  mem_iff := by
    intro k
    refine ⟨fun hk => ⟨hg.has hk, hg.isLabel_of_mem hk⟩,
      fun hk => (hg.mem_or_label hk.1).resolve_right ?_⟩
    rw [hk.2]
    decide
  label_last := by
    intro t i hlabel
    obtain ⟨u, n, heq, hkeys⟩ := hg.label hlabel
    obtain ⟨rfl, rfl⟩ := Key.place_inj.mp heq
    exact hkeys
  label_end := fun hlabel hout => hend hlabel (hg.tidy.known hout)
  linked := by
    intro k hk hne
    obtain ⟨t, i, rfl⟩ := (hg.key hk).resolve_left hne
    exact ⟨.prior t i, hlinked (hg.has hk)⟩
  no_cause := hg.no_cause

/-- A regular graph is arranged. -/
theorem Regular.arranged (hg : g.Regular) : g.Arranged :=
  hg.toShaped.arranged hg.mirrored hg.label_end hg.linked

/-- **Every regular graph is numbered.** -/
theorem Regular.numbered (hg : g.Regular) : g.Numbered where
  toArranged := hg.arranged
  programOrder := fun hhas => ⟨hg.programOrder, fun heq => heq ▸ hg.linked hhas⟩

/-! ### The graph without labels -/

/-- A node without its edges to labels. -/
def withoutLabels (g : Graph) (m : Node) : Node :=
  { m with succ := m.succ.filter fun e => g.order.contains e.2 }

/-- **The graph without labels.** -/
def unlabelled (g : Graph) : Graph :=
  { g with
    nodes := (g.nodes.filter fun m => g.order.contains m.key).map g.withoutLabels
    tasks := [] }

/-- The nodes of the graph without labels are those of events. -/
theorem find?_unlabelled (g : Graph) (k : Key) :
    g.unlabelled.find? k = if k ∈ g.order then (g.find? k).map g.withoutLabels else none := by
  have hcomp : (fun m : Node => m.key == k) ∘ g.withoutLabels = fun m : Node => m.key == k := rfl
  have hfilter := find?_filter_key (fun k => g.order.contains k) g.nodes k
  unfold Graph.find? unlabelled
  rw [List.find?_map, hcomp, hfilter]
  by_cases hk : k ∈ g.order
  · simp [hk]
  · simp [hk]

/-- The edges of the graph without labels are those to events. -/
theorem in_unlabelled : g.unlabelled.In r a b ↔ b ∈ g.order ∧ g.In r a b := by
  unfold In
  rw [find?_unlabelled]
  by_cases hb : b ∈ g.order
  · simp [hb, withoutLabels]
  · simp [hb]

theorem out_unlabelled : g.unlabelled.Out r a b ↔ a ∈ g.order ∧ b ∈ g.order ∧ g.Out r a b := by
  unfold Out
  rw [find?_unlabelled]
  by_cases ha : a ∈ g.order
  · by_cases hb : b ∈ g.order
    · simp [ha, hb, withoutLabels]
    · simp [ha, hb, withoutLabels]
  · simp [ha]

theorem isLabel_unlabelled (hg : g.Arranged) (k : Key) : g.unlabelled.isLabel k = false := by
  have hkind : g.unlabelled.kindOf? k = if k ∈ g.order then g.kindOf? k else none := by
    unfold kindOf?
    rw [find?_unlabelled]
    split
    · rw [Option.map_map]
      rfl
    · rfl
  unfold isLabel
  rw [hkind]
  split
  · rename_i hk
    exact hg.not_label hk
  · rfl

namespace Arranged

variable (hg : g.Arranged)
include hg

theorem has_unlabelled : g.unlabelled.Has k ↔ k ∈ g.order := by
  unfold Has
  rw [find?_unlabelled]
  by_cases hk : k ∈ g.order
  · rw [if_pos hk, Option.isSome_map]
    exact iff_of_true (hg.has hk) hk
  · rw [if_neg hk]
    exact iff_of_false Bool.false_ne_true hk

theorem tidy_unlabelled : g.unlabelled.Tidy where
  keys := by
    have hkeys : g.unlabelled.nodes.map (·.key) =
        (g.nodes.filter fun m => g.order.contains m.key).map (·.key) := by
      unfold unlabelled
      rw [List.map_map]
      rfl
    rw [hkeys]
    exact hg.tidy.keys.sublist (List.filter_sublist.map _)
  known := by
    intro r a b hout
    obtain ⟨-, hb, hout⟩ := out_unlabelled.mp hout
    exact in_unlabelled.mpr ⟨hb, hg.tidy.known hout⟩
  pred := by
    intro k m hm
    rw [find?_unlabelled] at hm
    split at hm
    · obtain ⟨m', hm', rfl⟩ := Option.map_eq_some_iff.mp hm
      have hpred := hg.tidy.pred hm'
      exact hpred
    · cases hm
  succ := by
    intro k m hm
    rw [find?_unlabelled] at hm
    split at hm
    · obtain ⟨m', hm', rfl⟩ := Option.map_eq_some_iff.mp hm
      exact (hg.tidy.succ hm').filter _
    · cases hm

theorem mirrored_unlabelled : g.unlabelled.Mirrored := by
  intro r a b hin
  obtain ⟨hb, hin⟩ := in_unlabelled.mp hin
  exact out_unlabelled.mpr ⟨hg.source_mem hin, hb, hg.mirrored r a b hin⟩

/-- **Without its labels an arranged graph can be walked.** -/
theorem formed_unlabelled : g.unlabelled.Formed where
  tidy := hg.tidy_unlabelled
  nodup := hg.nodup
  first := hg.first
  has_iff := by
    intro k
    rw [hg.has_unlabelled, isLabel_unlabelled hg]
    simp [unlabelled]
  not_label := fun _ => isLabel_unlabelled hg _
  label_pred := fun _ hlabel => absurd hlabel (by rw [isLabel_unlabelled hg]; decide)
  label_succ := fun hlabel => absurd hlabel (by rw [isLabel_unlabelled hg]; decide)
  no_cause := fun hin => hg.no_cause (in_unlabelled.mp hin).2
  caused := by
    intro b hb hne
    have hk := hg.has_unlabelled.mp hb
    obtain ⟨a, hin⟩ := hg.linked hk hne
    exact ⟨.programOrder, a, in_unlabelled.mpr ⟨hk, hin⟩⟩

/-- A graph without labels has the same events. -/
theorem sameEvents_unlabelled (hs : SameEvents h g) : SameEvents h g.unlabelled where
  mem := hs.mem
  out := by
    intro r a b hb
    rw [hs.out hb, out_unlabelled]
    refine ⟨fun hout => ⟨?_, (hs.mem b).mp hb, hout⟩, fun hout => hout.2.2⟩
    exact (hg.mem_or_label (has_of_out hout)).resolve_right fun hlabel => hg.label_end hlabel hout

/-! ### Other labels -/

/-- A task that is not blocked has an event at its end. -/
theorem last_mem (hkeys : g.taskKeys t = places t n) (hfree : g.isBlocked t = false) :
    Key.prior t n ∈ g.order := by
  cases n with
  | zero => exact hg.init_mem
  | succ i =>
    have hmem : Key.place t i ∈ g.taskKeys t := hkeys ▸ mem_places.mpr ⟨i, Nat.lt_succ_self i, rfl⟩
    refine (hg.mem_or_label (hg.has_iff.mpr (Or.inr ⟨t, hmem⟩))).resolve_right fun hlabel => ?_
    have hnodes : g.hasNodes t = true := by
      unfold hasNodes
      rw [hkeys, places_succ]
      simp
    have hkind : (g.lastKind? t == some .block) = true := by
      unfold lastKind?
      rw [lastOf_eq hkeys]
      exact hlabel
    rw [isBlocked, hnodes, hkind] at hfree
    cases hfree

theorem not_has (hkeys : g.taskKeys t = places t n) : ¬g.Has (.place t n) := by
  intro hhas
  obtain ⟨u, hmem⟩ := (hg.has_iff.mp hhas).resolve_left (Key.place_ne_init t n)
  obtain ⟨m, hm⟩ := hg.tasks u
  obtain ⟨i, hi, heq⟩ := mem_places.mp (hm ▸ hmem)
  obtain ⟨rfl, rfl⟩ := Key.place_inj.mp heq
  have hlength := congrArg List.length (hm.symm.trans hkeys)
  rw [length_places, length_places] at hlength
  omega

/-- A task that is not blocked can be given a label. -/
theorem blocks (hkeys : g.taskKeys t = places t n) (hfree : g.isBlocked t = false) :
    Blocks g (g.block t) t n :=
  blocks_of hg.tidy (hg.not_has hkeys) (hg.has (hg.last_mem hkeys hfree)) hkeys

/-- **A task is blocked**: its label comes last. -/
theorem block (hfree : g.isBlocked t = false) : (g.block t).Arranged := by
  obtain ⟨n, hkeys⟩ := hg.tasks t
  have hb := hg.blocks hkeys hfree
  have hnew := hg.not_has hkeys
  have hprior := hg.last_mem hkeys hfree
  obtain ⟨e, hblock, hevent⟩ := hb.event
  have hhas : ∀ {k}, (g.block t).Has k ↔ k = .place t n ∨ g.Has k := by
    intro k
    rw [has_iff_event?, hevent, has_iff_event?]
    by_cases hk : k = .place t n
    · simp [hk]
    · simp [hk]
  -- a task with a label is another one, since this one is not blocked
  have hother : ∀ {u i : Nat}, g.isLabel (.place u i) = true → u ≠ t := by
    rintro u i hlabel rfl
    have hlength := congrArg List.length ((hg.label_last hlabel).symm.trans hkeys)
    rw [length_places, length_places] at hlength
    subst hlength
    have hevent := hg.not_label hprior
    rw [Key.prior, hlabel] at hevent
    cases hevent
  refine ⟨hb.tidy, fun r a b hin => ?_, hb.order ▸ hg.nodup, hb.order ▸ hg.first, fun u => ?_,
    fun {k} => ?_,
    fun {k} => ?_, fun {u i} hlabel => ?_, fun {r a b} hlabel hout => ?_, fun {k} hk hne => ?_,
      fun {r a} hin => ?_⟩
  · exact (hb.edges r a b).2.mpr (((hb.edges r a b).1.mp hin).imp_left (hg.mirrored r a b))
  · rw [hb.taskKeys]
    split
    · rename_i hu
      exact ⟨n + 1, by rw [hu]⟩
    · exact hg.tasks u
  · rw [hhas, hg.has_iff]
    constructor
    · rintro (rfl | rfl | ⟨u, hmem⟩)
      · exact Or.inr
          ⟨t, by rw [hb.taskKeys, if_pos rfl]; exact mem_places.mpr ⟨n, Nat.lt_succ_self n, rfl⟩⟩
      · exact Or.inl rfl
      · refine Or.inr ⟨u, ?_⟩
        rw [hb.taskKeys]
        split
        · rename_i hu
          subst hu
          rw [places_succ, ← hkeys]
          exact List.mem_append_left _ hmem
        · exact hmem
    · rintro (rfl | ⟨u, hmem⟩)
      · exact Or.inr (Or.inl rfl)
      · rw [hb.taskKeys] at hmem
        split at hmem
        · rename_i hu
          rw [places_succ, ← hkeys, List.mem_append, List.mem_singleton] at hmem
          exact hmem.elim (fun hmem => Or.inr (Or.inr ⟨t, hmem⟩)) Or.inl
        · exact Or.inr (Or.inr ⟨u, hmem⟩)
  · rw [hb.order, hhas, hg.mem_iff, ← Bool.not_eq_true, ← Bool.not_eq_true, hb.isLabel_iff]
    constructor
    · rintro ⟨hk, hlabel⟩
      exact ⟨Or.inr hk, fun h => h.elim (fun heq => hnew (heq ▸ hk)) hlabel⟩
    · rintro ⟨hk, hlabel⟩
      exact ⟨hk.resolve_left fun heq => hlabel (Or.inl heq), fun h => hlabel (Or.inr h)⟩
  · rw [hb.taskKeys]
    rcases hb.isLabel_iff.mp hlabel with heq | hlabel
    · obtain ⟨rfl, rfl⟩ := Key.place_inj.mp heq
      exact if_pos rfl
    · rw [if_neg (hother hlabel)]
      exact hg.label_last hlabel
  · rcases (hb.edges r a b).2.mp hout with hout | ⟨-, rfl, -⟩
    · rcases hb.isLabel_iff.mp hlabel with rfl | hlabel
      · exact hnew (has_of_out hout)
      · exact hg.label_end hlabel hout
    · rcases hb.isLabel_iff.mp hlabel with heq | hlabel
      · exact hnew (heq ▸ hg.has hprior)
      · rw [hg.not_label hprior] at hlabel
        cases hlabel
  · obtain ⟨a, hin⟩ := hg.linked (hb.order ▸ hk) hne
    exact ⟨a, (hb.edges _ _ _).1.mpr (Or.inl hin)⟩
  · rcases (hb.edges r a .init).1.mp hin with hin | ⟨-, -, heq⟩
    · exact hg.no_cause hin
    · exact Key.init_ne_place t n heq

/-- Blocking a task leaves the events and the edges between them as they are. -/
theorem sameEvents_block (hfree : g.isBlocked t = false) : SameEvents g (g.block t) := by
  obtain ⟨n, hkeys⟩ := hg.tasks t
  have hb := hg.blocks hkeys hfree
  refine ⟨fun k => by rw [hb.order], fun {r a b} hk => ?_⟩
  rw [(hb.edges r a b).2]
  refine (or_iff_left ?_).symm
  rintro ⟨-, -, rfl⟩
  exact hg.not_has hkeys (hg.has hk)

section Unblocking

variable (hlabel : g.isLabel (.place t n) = true)
  (hcause : ∀ r a, g.In r a (.place t n) → r = .programOrder ∧ a = .prior t n)
include hlabel hcause

/-- A label at the end of a task can be taken off. -/
theorem unblocks : Unblocks g (g.dropLabel t) t n := by
  refine unblocks_of (hg.label_last hlabel) hg.tidy (fun hk => ?_) fun {r a} => hcause r a
  rw [hg.not_label hk] at hlabel
  cases hlabel

/-- **A task is let go**: what only program order leads to can be taken out. -/
theorem dropLabel : (g.dropLabel t).Arranged := by
  have hu := hg.unblocks hlabel hcause
  have hkeys := hg.label_last hlabel
  have hnot : ∀ {k}, k ∈ g.order → k ≠ .place t n := by
    rintro k hk rfl
    rw [hg.not_label hk] at hlabel
    cases hlabel
  have hhas : ∀ {k}, (g.dropLabel t).Has k ↔ k ≠ .place t n ∧ g.Has k := by
    intro k
    rw [has_iff_event?, hu.event, has_iff_event?]
    by_cases hk : k = .place t n
    · simp [hk]
    · simp [hk]
  refine ⟨hu.tidy, fun r a b hin => ?_, hu.order ▸ hg.nodup, hu.order ▸ hg.first, fun u => ?_,
    fun {k} => ?_,
    fun {k} => ?_, fun {u i} hlab => ?_, fun {r a b} hlab hout => ?_, fun {k} hk hne => ?_,
      fun {r a} hin => ?_⟩
  · obtain ⟨hin, hb⟩ := (hu.edges r a b).1.mp hin
    exact (hu.edges r a b).2.mpr ⟨hg.mirrored r a b hin, hnot (hg.source_mem hin), hb⟩
  · rw [hu.taskKeys]
    split
    · rename_i heq
      exact ⟨n, by rw [heq]⟩
    · exact hg.tasks u
  · rw [hhas, hg.has_iff]
    constructor
    · rintro ⟨hne, rfl | ⟨u, hmem⟩⟩
      · exact Or.inl rfl
      · refine Or.inr ⟨u, ?_⟩
        rw [hu.taskKeys]
        split
        · rename_i heq
          rw [heq, hkeys, places_succ, List.mem_append, List.mem_singleton] at hmem
          exact hmem.resolve_right hne
        · exact hmem
    · rintro (rfl | ⟨u, hmem⟩)
      · exact ⟨hnot hg.init_mem, Or.inl rfl⟩
      · rw [hu.taskKeys] at hmem
        split at hmem
        · obtain ⟨i, hi, rfl⟩ := mem_places.mp hmem
          refine ⟨fun heq => Nat.ne_of_lt hi (Key.place_inj.mp heq).2, Or.inr ⟨t, ?_⟩⟩
          rw [hkeys]
          exact mem_places.mpr ⟨i, Nat.lt_succ_of_lt hi, rfl⟩
        · rename_i hne
          obtain ⟨m, hm⟩ := hg.tasks u
          obtain ⟨i, -, rfl⟩ := mem_places.mp (hm ▸ hmem)
          exact ⟨fun heq => hne (Key.place_inj.mp heq).1, Or.inr ⟨u, hmem⟩⟩
  · rw [hu.order, hhas, hg.mem_iff, ← Bool.not_eq_true, ← Bool.not_eq_true, hu.isLabel_iff, not_and]
    constructor
    · exact fun hk => ⟨⟨hnot (hg.mem_iff.mpr ⟨hk.1, Bool.eq_false_iff.mpr hk.2⟩), hk.1⟩,
        fun _ => hk.2⟩
    · exact fun hk => ⟨hk.1.2, hk.2 hk.1.1⟩
  · obtain ⟨hne, hold⟩ := hu.isLabel_iff.mp hlab
    rw [hu.taskKeys, if_neg ?_]
    · exact hg.label_last hold
    rintro rfl
    -- the label of a task is the only one
    have hlength := congrArg List.length ((hg.label_last hold).symm.trans hkeys)
    rw [length_places, length_places, Nat.succ_inj] at hlength
    exact hne (by rw [hlength])
  · exact hg.label_end (hu.isLabel_iff.mp hlab).2 ((hu.edges r a b).2.mp hout).1
  · have hk := hu.order ▸ hk
    obtain ⟨a, hin⟩ := hg.linked hk hne
    exact ⟨a, (hu.edges _ _ _).1.mpr ⟨hin, hnot hk⟩⟩
  · exact hg.no_cause ((hu.edges r a .init).1.mp hin).1

/-- Letting it go does so as well. -/
theorem sameEvents_dropLabel : SameEvents g (g.dropLabel t) := by
  have hu := hg.unblocks hlabel hcause
  refine ⟨fun k => by rw [hu.order], fun {r a b} hb => ?_⟩
  rw [(hu.edges r a b).2]
  refine (and_iff_left_of_imp fun hout => ⟨?_, ?_⟩).symm
  · rintro rfl
    exact hg.label_end hlabel hout
  · rintro rfl
    rw [hg.not_label hb] at hlabel
    cases hlabel

end Unblocking

end Arranged

end Interleaving.Graph
