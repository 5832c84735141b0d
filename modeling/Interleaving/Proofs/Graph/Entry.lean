import Interleaving.Proofs.Graph.Recorded

/-!
# Events that enter a graph

What recording an event makes of a recorded graph, for every way in which edges to it are drawn
(`Interleaving.Graph.Entry`): a marker enters by itself, the start of a thread after the previous
start and after the spawn, a join after the end of the other task, a read after the last write to
its location, and a write waits to take effect. The graph stays recorded, and it shows the new event
besides those that it has shown (`Interleaving.Graph.Logs`).
-/

namespace Interleaving.Graph

variable {g g' : Graph} {a b k w : Key} {r : Relation} {e : Event} {t n : Nat} {loc : Location}
  {l l' : List Key} {cause extra : Relation → Key → Prop}

/-- The graph with room for an event: a list for its task and a chain for its location. -/
def prepared (g : Graph) (e : Event) : Graph := (g.ensureTask e.task).opened e.location

/-- The graph with an event and the edges that it always gets. -/
def noted (g : Graph) (e : Event) : Graph := (g.prepared e).withEvent e

/-- The starts of threads so far, the first event in front. -/
def threadStarts (g : Graph) : List Key :=
  if (g.chain .thread).isEmpty then [.init] else g.chain .thread

/-- A thread start is listed, unless it is the first event. -/
theorem mem_threadStarts (hk : k ∈ g.threadStarts) : k = .init ∨ k ∈ g.chain .thread := by
  unfold threadStarts at hk
  split at hk
  · exact Or.inl (List.mem_singleton.mp hk)
  · exact Or.inr hk

/-- The latest start of a thread. -/
def lastStart (g : Graph) : Key := g.threadStarts.getLast?.getD .init

/-- The last thread start is one of them. -/
theorem lastStart_mem (g : Graph) : g.lastStart ∈ g.threadStarts := by
  have hne : g.threadStarts ≠ [] := by
    unfold threadStarts
    split
    · simp
    · rename_i hne
      simpa using hne
  rw [lastStart, List.getLast?_eq_some_getLast hne]
  exact List.getLast_mem hne

/-- One more event is shown, with the edges that it always gets and some more, and nothing else has
changed but the chain that a write has joined. -/
structure Logs (g g' : Graph) (e : Event) (t n : Nat) (extra : Relation → Key → Prop) : Prop where
  order : g'.order = g.order ++ [.place t n]
  face : ∀ k ∈ g.order, g'.face k = g.face k
  self : g'.face (.place t n) = some (faceOf e)
  edge : ∀ {r a b}, r ≠ .coherency → b ∈ g'.order →
    (g'.In r a b ↔ g.In r a b ∨ b = .place t n ∧ (g.Follows t n r a ∨ extra r a))
  last : ∀ {loc}, loc ≠ .thread →
    g'.lastWrite loc = if e.kind.isWrite = true ∧
      loc = e.location then .place t n else g.lastWrite loc
  start : g'.lastStart = if e.kind = .threadStart then .place t n else g.lastStart

/-- A lock is held when its last write is an acquisition. -/
def Held (g : Graph) (loc : Location) : Prop := g.kindOf? (g.lastWrite loc) = some .lockAcquireWrite

/-- The same tasks are blocked and wait. -/
structure Awaits (g g' : Graph) : Prop where
  blocked : ∀ u : Nat, g'.isBlocked u = g.isBlocked u
  waiting : ∀ loc, g'.waitingFor loc = g.waitingFor loc

/-- Two changes that leave the waiting tasks alone can be made one after the other. -/
theorem Awaits.trans {g'' : Graph} (h : Awaits g g') (h' : Awaits g' g'') : Awaits g g'' :=
  ⟨fun u => (h'.blocked u).trans (h.blocked u), fun loc => (h'.waiting loc).trans (h.waiting loc)⟩

/-- Which tasks are blocked depends on kinds and lists only. -/
theorem isBlocked_congr (htasks : g'.tasks = g.tasks)
    (hkind : ∀ k, g'.kindOf? k = g.kindOf? k) (u : Int) : g'.isBlocked u = g.isBlocked u := by
  unfold isBlocked hasNodes lastKind? lastOf taskKeys
  rw [htasks, hkind]

/-- An edge makes no task wait. -/
theorem Awaits.link (g : Graph) (a b : Key) (r : Relation) : Awaits g (g.link a b r) where
  blocked := fun u => isBlocked_congr (link_tasks ..) (fun _ => kindOf?_congr event?_link) u
  waiting := by
    intro loc
    rw [waitingFor, waitingFor, link_waiting]

theorem Awaits.setChain (g : Graph) (loc : Location) (ks : List Key) :
    Awaits g (g.setChain loc ks) :=
  ⟨fun _ => rfl, fun _ => rfl⟩

theorem Awaits.opened (g : Graph) (loc : Location) : Awaits g (g.opened loc) := by
  unfold Graph.opened
  split
  · exact .setChain ..
  · exact ⟨fun _ => rfl, fun _ => rfl⟩

theorem Awaits.ensureTask (g : Graph) (t : Int) : Awaits g (g.ensureTask t) where
  blocked := by
    intro u
    unfold isBlocked hasNodes lastKind? lastOf
    rw [taskKeys_ensureTask]
    rfl
  waiting := fun _ => rfl

theorem lastWrite_setChain (g : Graph) (loc loc' : Location) (ks : List Key) :
    (g.setChain loc ks).lastWrite loc' =
      if loc' = loc then ks.getLast?.getD .init else g.lastWrite loc' := by
  rw [lastWrite, lastWrite, chain_setChain]
  split <;> rfl

/-- Touching a location changes no last write. -/
theorem lastWrite_opened (g : Graph) (loc loc' : Location) :
    (g.opened loc).lastWrite loc' = g.lastWrite loc' := by
  unfold Graph.opened
  split
  · rename_i hnew
    rw [Bool.and_eq_true, Option.isNone_iff_eq_none] at hnew
    rw [lastWrite_setChain]
    split
    · rename_i heq
      rw [heq, lastWrite, chain?_eq_none_of_chain hnew.2]
      rfl
    · rfl
  · rfl

/-- Touching a location adds no event. -/
theorem event?_opened : (g.opened loc).event? k = g.event? k := by
  unfold Graph.opened
  split <;> rfl

theorem order_opened (g : Graph) (loc : Location) : (g.opened loc).order = g.order := by
  unfold Graph.opened
  split <;> rfl

theorem tasks_opened (g : Graph) (loc : Location) : (g.opened loc).tasks = g.tasks := by
  unfold Graph.opened
  split <;> rfl

/-- Touching a location adds no edge. -/
theorem in_opened : (g.opened loc).In r a b ↔ g.In r a b := by
  unfold Graph.opened
  split <;> exact Iff.rfl

theorem out_opened : (g.opened loc).Out r a b ↔ g.Out r a b := by
  unfold Graph.opened
  split <;> exact Iff.rfl

theorem lastStart_congr (h : g'.chain .thread = g.chain .thread) : g'.lastStart = g.lastStart := by
  unfold lastStart threadStarts
  rw [h]

/-- Touching a location starts no thread. -/
theorem lastStart_opened (g : Graph) (loc : Location) : (g.opened loc).lastStart = g.lastStart := by
  unfold Graph.opened
  split
  · rename_i hnew
    rw [Bool.and_eq_true, Option.isNone_iff_eq_none] at hnew
    by_cases hloc : loc = .thread
    · subst hloc
      have hnil : g.chain .thread = [] := by
        rw [chain, hnew.2]
        rfl
      unfold lastStart threadStarts
      rw [chain_setChain, if_pos rfl, hnil]
      rfl
    · refine lastStart_congr ?_
      rw [chain_setChain, if_neg (Ne.symm hloc)]
  · rfl

theorem chain_thread_opened (hk : k ∈ (g.opened loc).chain .thread) :
    k ∈ g.chain .thread ∨ k = .init := by
  unfold Graph.opened at hk
  split at hk
  · rw [chain_setChain] at hk
    split at hk
    · exact Or.inr (List.mem_singleton.mp hk)
    · exact Or.inl hk
  · exact Or.inl hk

/-- **A recorded graph stays recorded when a location is touched.** -/
theorem Recorded.opened (h : g.Recorded l) (loc : Location) : (g.opened loc).Recorded l where
  toSound := h.toSound.opened loc
  written := by
    intro k loc' hk
    unfold WritesTo at hk
    rw [event?_opened] at hk
    obtain ⟨hloc, hmem⟩ := h.written hk
    exact ⟨hloc, mem_chain_opened hmem⟩
  located := by
    intro k loc' hk
    unfold WritesTo at hk
    rw [event?_opened] at hk
    exact h.located hk
  start := by
    intro a b hin
    rw [kindOf?_congr event?_opened]
    exact h.start (in_opened.mp hin)
  starts := by
    intro k hk
    rw [kindOf?_congr event?_opened]
    exact (chain_thread_opened hk).elim h.starts Or.inl

/-- Touching a location tears no pair. -/
theorem Paired.opened (h : g.Paired) (loc : Location) : (g.opened loc).Paired where
  completed := by
    intro k e he
    rw [event?_opened] at he ⊢
    exact h.completed he
  alone := by
    intro k loc' r b hlock hout
    unfold LocksAt at hlock
    rw [event?_opened] at hlock
    exact h.alone hlock (out_opened.mp hout)

theorem PairedBut.opened (h : g.PairedBut w) (loc : Location) : (g.opened loc).PairedBut w where
  completed := by
    intro k e he
    rw [event?_opened] at he ⊢
    exact h.completed he
  alone := by
    intro k loc' r b hlock hout
    unfold LocksAt at hlock
    rw [event?_opened] at hlock
    exact h.alone hlock (out_opened.mp hout)

/-- A new start of a thread that comes after the latest one. -/
structure Created (g g' : Graph) (e : Event) (t n : Nat) : Prop where
  adds : Adds (g.prepared e) g' ((g.prepared e).entered e) t n
    fun r a => (g.prepared e).Follows t n r a ∨ r = .threadCreation ∧ a = g.lastStart
  timed : g'.Timed
  awaits : Awaits g g'
  tasks : g'.tasks = (g.noted e).tasks
  starts : ∀ {k}, k ∈ g'.chain .thread →
    k ∈ (g.prepared e).chain .thread ∨ k = .init ∨ k = .place t n
  mem : g.lastStart ∈ g.order
  not_locks : ∀ {loc}, ¬g.LocksAt g.lastStart loc
  start : g'.lastStart = .place t n

/-! ### A task that may take an event -/

/-- An event of a task of a recorded graph that is not blocked and has not come to its end. -/
structure Entry (g : Graph) (l : List Key) (e : Event) (t n : Nat) : Prop where
  recorded : g.Recorded l
  task : e.task = t
  fills : g.Fills t n
  free : g.isBlocked t = false
  going : g.kindOf? (.prior t n) ≠ some .threadFinish
  kind : e.kind ≠ .block
  room : g.order.length + 1 < 2 ^ 62

namespace Entry

variable (h : Entry g l e t n)
include h

omit h in
theorem order_prepared : (g.prepared e).order = g.order := order_opened ..

omit h in
theorem event?_prepared : (g.prepared e).event? k = g.event? k := event?_opened

omit h in
theorem nodes_prepared : (g.prepared e).nodes = g.nodes := by
  unfold Graph.prepared Graph.opened
  split <;> rfl

/-- The graph that a new event enters is recorded. -/
theorem prepared : (g.prepared e).Recorded l := by
  have hr := Relabels.ensureTask g e.task
  exact (hr.resembles.recorded h.recorded (hr.wired h.recorded.toWired)).opened e.location

theorem fills_prepared : (g.prepared e).Fills t n := by
  unfold Fills
  rw [order_prepared]
  exact h.fills

theorem taskKeys_prepared : (g.prepared e).taskKeys t = places t n := by
  unfold Graph.prepared taskKeys
  rw [tasks_opened]
  exact (taskKeys_ensureTask g e.task t).trans (h.recorded.taskKeys_of_not_blocked h.fills h.free)

/-- The next place of the task is free. -/
theorem absent : ¬(g.prepared e).Has (.place t n) :=
  h.prepared.not_has h.fills_prepared h.taskKeys_prepared

/-- **The event gets the next place of its task.** -/
theorem grows : Grows (g.prepared e) e t n (g.noted e) := by
  refine h.prepared.grows h.fills_prepared h.taskKeys_prepared h.task ?_ h.kind
  have hlen := length_ensureTask g e.task
  rw [h.task, Int.toNat_natCast] at hlen
  rw [Graph.prepared, tasks_opened, h.task]
  exact hlen

/-- The event comes with the edges of program order and of thread starts. -/
theorem adds :
    Adds (g.prepared e) (g.noted e) ((g.prepared e).entered e) t n ((g.prepared e).Follows t n) :=
  h.grows.adds h.fills_prepared

theorem room_prepared : (g.prepared e).order.length + 1 < 2 ^ 62 := by
  rw [order_prepared]
  exact h.room

/-- Clocks tell the past with the new event, too. -/
theorem timed : (g.noted e).Timed :=
  h.prepared.toSound.timed_grows h.grows h.fills_prepared h.absent h.room_prepared

/-- The new event makes no task wait. -/
theorem awaits : Awaits g (g.noted e) := by
  refine (Awaits.ensureTask g e.task).trans
    ((Awaits.opened _ e.location).trans ⟨h.grows.unblocked, fun loc => ?_⟩)
  rw [waitingFor, h.grows.waiting]
  rfl

/-- **The event is added.** -/
theorem addEvent : (Graph.addEvent e).run g = .ok (.place t n) (g.noted e) := by
  have htask : ¬e.task < 0 := by
    rw [h.task]
    omega
  have hkeys : (g.ensureTask e.task).taskKeys e.task = places t n := by
    rw [taskKeys_ensureTask, h.task]
    exact h.recorded.taskKeys_of_not_blocked h.fills h.free
  have hlast : (g.ensureTask e.task).lastKind? e.task = g.kindOf? (.prior t n) := by
    rw [lastKind?, h.task, lastOf_eq (by rw [← h.task]; exact hkeys)]
    rfl
  have hblock : g.kindOf? (.prior t n) ≠ some .block := by
    intro hkind
    have hlab := h.recorded.isLabel_of_mem (h.recorded.prior_mem h.fills)
    rw [isLabel, hkind] at hlab
    cases hlab
  have hadded : (g.noted e).lastOf e.task = .place t n := by
    have hfills : (g.noted e).Fills t (n + 1) := by
      intro i
      rw [h.grows.order, List.mem_append, List.mem_singleton, h.fills_prepared, Key.place_inj]
      omega
    have hfree : (g.noted e).isBlocked t = false := by
      rw [h.awaits.blocked, h.free]
    rw [h.task, lastOf_eq (h.grows.shaped.taskKeys_of_not_blocked hfills hfree)]
    rfl
  have hins : (g.ensureTask e.task).insertEvent e = g.noted e := insertEvent_eq_withEvent ..
  have hgo : EStateM.bind (set ((g.ensureTask e.task).insertEvent e))
      (fun _ => EStateM.pure (((g.ensureTask e.task).insertEvent e).lastOf e.task))
      (g.ensureTask e.task) =
        (.ok (.place t n) (g.noted e) : EStateM.Result Error Graph Key) := by
    rw [hins, hadded]
    rfl
  have hnot := And.intro hblock h.going
  rw [← hlast] at hnot
  simp only [Graph.addEvent, if_neg htask, EStateM.run, bind, EStateM.bind, modify, modifyGet,
    MonadStateOf.modifyGet, EStateM.modifyGet, get, getThe, MonadStateOf.get, EStateM.get, pure]
  rcases hkind : (g.ensureTask e.task).lastKind? e.task with _ | kind
  · exact hgo
  · rw [hkind] at hnot
    cases kind <;> first | exact hgo | exact absurd rfl hnot.1 | exact absurd rfl hnot.2

/-- Where the edges that a new event always gets come from. -/
theorem not_locks_of_follows {loc : Location} (hf : (g.prepared e).Follows t n r a)
    (hlock : (g.prepared e).LocksAt a loc) : r = .programOrder := by
  rcases hf with ⟨hr, -⟩ | ⟨-, -, hout⟩
  · exact hr
  · obtain ⟨e₀, he₀, hex, -⟩ := hlock
    have hkind := h.prepared.start (h.prepared.tidy.known hout)
    rw [kindOf?_of_event? he₀, Option.some_inj] at hkind
    rw [hkind] at hex
    cases hex

/-- The causes of the event are those of its place and the ones that it brings along. -/
theorem caused (extra : Relation → Key → Prop)
    (hextra : ∀ {r a}, extra r a → a ∈ g.order ∧ r ≠ .programOrder ∧ r ≠ .coherency ∧ r ≠ .fromRead)
    (hsource : ∀ {a}, extra .readsFrom a ↔ e.kind.isRead = true ∧ a = g.lastWrite e.location)
    (hloc : e.kind.isRead = true → e.location ≠ .thread ∧ e.location ≠ .none) :
    Caused (g.prepared e) ((g.prepared e).entered e) t n
      fun r a => (g.prepared e).Follows t n r a ∨ extra r a where
  fills := h.fills_prepared
  absent := h.absent
  kind := h.kind
  mem := by
    rintro r a (hf | hx)
    · exact h.prepared.mem_of_follows h.fills_prepared hf
    · rw [order_prepared]
      exact (hextra hx).1
  programOrder := by
    intro a
    refine (or_iff_left fun hx => (hextra hx).2.1 rfl).trans ?_
    simp [Follows]
  coherency := by
    rintro a (hf | hx)
    · simp [Follows] at hf
    · exact (hextra hx).2.2.1 rfl
  fromRead := by
    rintro a (hf | hx)
    · simp [Follows] at hf
    · exact (hextra hx).2.2.2 rfl
  readsFrom := by
    intro a
    refine (or_iff_right fun hf => ?_).trans (hsource.trans ?_)
    · simp [Follows] at hf
    · show _ ↔ _ ∧ a = (g.prepared e).lastWrite e.location
      unfold Graph.prepared
      rw [lastWrite_opened]
      rfl
  read := fun hread => ⟨(hloc hread).1,
    chain_opened_ne_nil ((Relabels.ensureTask g e.task).wired h.recorded.toWired) (hloc hread).2
      (hloc hread).1⟩

omit h in
theorem follows_prepared : (g.prepared e).Follows t n r a ↔ g.Follows t n r a := by
  unfold Follows Graph.prepared
  rw [out_opened]
  exact Iff.rfl

omit h in
/-- Preparing a graph for an event adds no edge. -/
theorem in_prepared : (g.prepared e).In r a b ↔ g.In r a b := in_opened

omit h in
theorem lastStart_prepared : (g.prepared e).lastStart = g.lastStart := by
  unfold Graph.prepared
  rw [lastStart_opened]
  rfl

/-- Noting an event lists no thread start. -/
theorem lastStart_noted : (g.noted e).lastStart = g.lastStart := by
  refine (lastStart_congr (g := g.prepared e) ?_).trans lastStart_prepared
  rw [chain, chain?, h.grows.chains]
  rfl

/-- What a graph shows after an event that writes nothing. -/
theorem logs (ha : Adds (g.prepared e) g' ((g.prepared e).entered e) t n
      fun r a => (g.prepared e).Follows t n r a ∨ extra r a) (hwrite : e.kind.isWrite = false)
    (hstart : g'.lastStart = if e.kind = .threadStart then .place t n else g.lastStart) :
    Logs g g' e t n extra where
  start := hstart
  order := by rw [ha.order, order_prepared]
  face := by
    intro k hk
    refine face_congr ?_
    rw [ha.event, if_neg (h.fills.ne_of_mem hk), event?_prepared]
  self := by
    have hself : g'.event? (.place t n) = some ((g.prepared e).entered e) := by
      rw [ha.event, if_pos rfl]
    exact face_of_event? (e := (g.prepared e).entered e) hself
  edge := by
    intro r a b _ _
    rw [(ha.edges r a b).1, in_prepared, follows_prepared]
  last := by
    intro loc hloc
    rw [if_neg (by simp [hwrite]), lastWrite, ha.chain hloc, ← lastWrite, Graph.prepared,
      lastWrite_opened]
    rfl

/-- What a graph shows after a write that has taken effect. -/
theorem logs_write {g'' : Graph}
    (hr : Resembles (g.noted e) g'') (hg : g''.Writing l' (.place t n) e.location)
    (hwrite : e.kind.isWrite = true) :
    Logs g (g''.trackCoherency (.place t n)) e t n fun _ _ => False where
  start := by
    have hkind : e.kind ≠ .threadStart := by
      intro heq
      rw [heq] at hwrite
      cases hwrite
    rw [if_neg hkind, ← h.lastStart_noted]
    refine lastStart_congr ?_
    rw [hg.toWrites.chain_trackCoherency, if_neg hg.location.symm, hr.chain]
  order := by rw [hg.toWrites.order_trackCoherency, hr.order, h.adds.order, order_prepared]
  face := by
    intro k hk
    have hne := h.fills.ne_of_mem hk
    have hmem : k ∈ (g.noted e).order := by
      rw [h.adds.order, order_prepared]
      exact List.mem_append_left _ hk
    rw [face_congr hg.toWrites.event?_trackCoherency, hr.face k hmem]
    exact face_congr (by rw [h.adds.event, if_neg hne, event?_prepared])
  self := by
    have hself : (g.noted e).event? (.place t n) = some ((g.prepared e).entered e) := by
      rw [h.adds.event, if_pos rfl]
    have hmem : .place t n ∈ (g.noted e).order := by
      rw [h.adds.order]
      simp
    rw [face_congr hg.toWrites.event?_trackCoherency, hr.face _ hmem]
    exact face_of_event? (e := (g.prepared e).entered e) hself
  edge := by
    intro r a b hr' hb
    rw [hg.toWrites.order_trackCoherency, hr.order] at hb
    rw [hg.toWrites.in_trackCoherency hg.toShaped, or_iff_left fun heq => hr' heq.1, hr.edge hb,
      (h.adds.edges r a b).1, in_prepared, follows_prepared, or_false]
  last := by
    intro loc hloc
    rw [lastWrite, hg.toWrites.chain_trackCoherency]
    split
    · rename_i heq
      rw [if_pos ⟨hwrite, heq⟩, List.getLast?_concat]
      rfl
    · rename_i heq
      rw [if_neg fun hself => heq hself.2, hr.chain, h.adds.chain hloc, ← lastWrite, Graph.prepared,
        lastWrite_opened]
      rfl

/-! ### The ways in which events enter -/

/-- The graph after an event is recorded, and no pair is left open but those that were. -/
structure Enters (g g' : Graph) (l : List Key) (e : Event) (t n : Nat)
    (extra : Relation → Key → Prop) : Prop where
  recorded : g'.Recorded (l ++ [.place t n])
  logs : Logs g g' e t n extra

/-- The edges of the event alone. -/
theorem caused_alone (hread : e.kind.isRead = false) :
    Caused (g.prepared e) ((g.prepared e).entered e) t n ((g.prepared e).Follows t n) := by
  have hc := h.caused (fun _ _ => False) (fun hx => hx.elim) (by simp [hread]) (by simp [hread])
  simpa using hc

/-- Preparing a graph for an event tears no pair. -/
theorem paired_prepared (hp : g.Paired) : (g.prepared e).Paired := by
  have hr := Relabels.ensureTask g e.task
  have hw := h.recorded.toWired
  exact (hr.resembles.paired hw (hr.wired hw) hp).opened e.location

/-- **A marker** enters by itself. -/
theorem marker (hp : g.Paired) (hmarker : e.kind.isMarker = true) (hkind : e.kind ≠ .threadStart) :
    Enters g (g.noted e) l e t n (fun _ _ => False) ∧ (g.noted e).Paired := by
  have hkinds : e.kind.isRead = false ∧ e.kind.isWrite = false ∧
      e.kind.isExclusiveRead = false := by
    revert hmarker
    generalize e.kind = kind
    cases kind <;> decide
  have hc := h.caused_alone hkinds.1
  have hp' := h.paired_prepared hp
  refine ⟨⟨?_, h.logs (by simpa using h.adds) hkinds.2.1 (by rw [if_neg hkind, h.lastStart_noted])⟩,
    h.adds.paired hc h.prepared.toWired hp' hkinds.2.2 h.not_locks_of_follows⟩
  refine h.prepared.adds h.adds hc h.timed h.room_prepared isSome_chain?_opened hkinds.2.1
    (fun hlock _ hnext => hc.not_before hp' hlock hnext) (fun hcause => ?_) fun hk => ?_
  · simp [Follows] at hcause
  · refine Or.inl ?_
    rw [chain, chain?, h.grows.chains] at hk
    exact hk

omit h in
/-- The last write to a location is an event, and no exclusive read. -/
theorem lastWrite_cases (hr : g.Recorded l) (hloc : loc ≠ .thread) :
    g.lastWrite loc ∈ g.order ∧ ∀ {loc'}, ¬g.LocksAt (g.lastWrite loc) loc' := by
  have hcases : g.lastWrite loc = .init ∨ g.WritesTo (g.lastWrite loc) loc := by
    by_cases hnil : g.chain loc = []
    · left
      rw [lastWrite, hnil]
      rfl
    · exact hr.mem_chain hloc (lastWrite_mem hnil)
  rcases hcases with heq | hwrite
  · rw [heq]
    exact ⟨hr.init_mem, fun hlock => hr.ne_init_of_readsAt hlock.readsAt rfl⟩
  · exact ⟨hr.mem_of_writesTo hwrite, fun hlock => hlock.readsAt.not_writesTo hwrite⟩

omit h in
theorem locksAt_prepared : (g.prepared e).LocksAt k loc ↔ g.LocksAt k loc := by
  unfold LocksAt
  rw [event?_prepared]

/-- **A read** sees the last write to its location. -/
theorem read (hp : g.Paired) (hread : e.kind.isRead = true) (hnone : e.location ≠ .none)
    (hthread : e.location ≠ .thread) :
    Enters g ((g.noted e).setReadsFrom (.place t n) (g.lastWrite e.location)) l e t n
        (fun r a => r = .readsFrom ∧ a = g.lastWrite e.location) ∧
      ((g.noted e).setReadsFrom (.place t n) (g.lastWrite e.location)).PairedBut (.place t n) ∧
      (e.kind.isExclusiveRead = false →
        ((g.noted e).setReadsFrom (.place t n) (g.lastWrite e.location)).Paired) := by
  have hwrite : e.kind.isWrite = false := by
    revert hread
    generalize e.kind = kind
    cases kind <;> decide
  obtain ⟨hmem, hnot⟩ := lastWrite_cases h.recorded hthread
  have hmem' : g.lastWrite e.location ∈ (g.prepared e).order := by
    rw [order_prepared]
    exact hmem
  have ha := h.adds.link hmem' h.fills_prepared (r := .readsFrom) (by decide)
  have hc := h.caused (fun r a => r = .readsFrom ∧ a = g.lastWrite e.location)
    (fun hx => ⟨hx.2 ▸ hmem, by simp [hx.1], by simp [hx.1], by simp [hx.1]⟩) (by simp [hread])
    fun _ => ⟨hthread, hnone⟩
  have hp' := h.paired_prepared hp
  have hlocks : ∀ {r a loc},
      ((g.prepared e).Follows t n r a ∨ r = .readsFrom ∧ a = g.lastWrite e.location) →
      (g.prepared e).LocksAt a loc → r = .programOrder := by
    rintro r a loc (hf | ⟨-, rfl⟩) hlock
    · exact h.not_locks_of_follows hf hlock
    · exact absurd (locksAt_prepared.mp hlock) hnot
  have htimed := h.adds.timed_link h.prepared.toWired h.fills_prepared h.timed
    (h.prepared.mem_of_follows h.fills_prepared) hmem' (r := .readsFrom) rfl
  have hkind : e.kind ≠ .threadStart := by
    intro heq
    rw [heq] at hread
    cases hread
  have hstart : ((g.noted e).setReadsFrom (.place t n) (g.lastWrite e.location)).lastStart =
      if e.kind = .threadStart then .place t n else g.lastStart := by
    rw [if_neg hkind, ← h.lastStart_noted]
    exact lastStart_congr (by rw [chain, chain?, setReadsFrom, link_chains]; rfl)
  refine ⟨⟨?_, h.logs ha hwrite hstart⟩, ha.pairedBut hc h.prepared.toWired hp' hlocks,
    fun hex => ha.paired hc h.prepared.toWired hp' hex hlocks⟩
  refine h.prepared.adds ha hc htimed h.room_prepared isSome_chain?_opened hwrite
    (fun hlock _ hnext => hc.not_before hp' hlock hnext) (fun hcause => ?_) fun hk => ?_
  · simp [Follows] at hcause
  · refine Or.inl ?_
    rw [chain, chain?, setReadsFrom, link_chains, h.grows.chains] at hk
    exact hk

omit h in
/-- The last event of a task is no exclusive read when all pairs are complete. -/
theorem not_locks_prior (hp : g.Paired) {u m : Nat} (hu : g.Fills u m) (hm : m ≠ 0)
    (hs : g.Shaped) : ¬g.LocksAt (.prior u m) loc := by
  rintro ⟨e₀, he₀, hex, -⟩
  obtain ⟨m, rfl⟩ := Nat.exists_eq_succ_of_ne_zero hm
  obtain ⟨e', he', hpair, -⟩ := hp.completed he₀ hex
  have hmem : Key.place u (m + 1) ∈ g.order := by
    refine (hs.mem_iff he').mpr fun hblock => ?_
    rw [hblock] at hpair
    revert hpair
    generalize e₀.kind = kind
    cases kind <;> decide
  exact hu.ne_of_mem hmem rfl

/-- Another task that is not blocked has the events that it has had. -/
theorem taskKeys_noted {u m : Nat} (hut : u ≠ t) (hu : g.Fills u m)
    (hfree : g.isBlocked u = false) : (g.noted e).taskKeys u = places u m := by
  have hfills : (g.noted e).Fills u m := by
    intro i
    rw [h.grows.order, List.mem_append, List.mem_singleton, order_prepared, hu, Key.place_inj]
    simp [hut]
  exact h.grows.shaped.taskKeys_of_not_blocked hfills (by rw [h.awaits.blocked, hfree])

/-- The new event is found. -/
theorem find?_noted : ∃ m, (g.noted e).find? (.place t n) = some m ∧
    m.event = (g.prepared e).entered e := by
  have hself := h.grows.event (.place t n)
  rw [if_pos rfl] at hself
  exact Option.map_eq_some_iff.mp hself

omit h in
theorem hasNodes_of_taskKeys {u m : Nat} (hkeys : g.taskKeys u = places u m) (hm : m ≠ 0) :
    g.hasNodes u = true := by
  obtain ⟨m, rfl⟩ := Nat.exists_eq_succ_of_ne_zero hm
  unfold hasNodes
  rw [hkeys, places_succ]
  simp

/-- An event of the life of threads, with more edges into it. -/
theorem bound (hp : g.Paired) (hread : e.kind.isRead = false) (hwrite : e.kind.isWrite = false)
    (ha : Adds (g.prepared e) g' ((g.prepared e).entered e) t n
      fun r a => (g.prepared e).Follows t n r a ∨ extra r a)
    (ht : g'.Timed)
    (hextra : ∀ {r a}, extra r a → a ∈ g.order ∧ (∀ {loc}, ¬g.LocksAt a loc) ∧
      (r = .threadCreation ∨ r = .threadJoin ∨ r = .threadStart ∧ e.kind = .threadStart))
    (hstarts : ∀ {k}, k ∈ g'.chain .thread → k ∈ (g.prepared e).chain .thread ∨ k = .init ∨
      k = .place t n ∧ e.kind = .threadStart)
    (hlast : g'.lastStart = if e.kind = .threadStart then .place t n else g.lastStart) :
    Enters g g' l e t n extra ∧ g'.Paired := by
  have hc := h.caused extra (fun hx => ⟨(hextra hx).1, ?_⟩) (fun {a} => ?_) (by simp [hread])
  · have hp' := h.paired_prepared hp
    have hlocks : ∀ {r a loc}, ((g.prepared e).Follows t n r a ∨ extra r a) →
        (g.prepared e).LocksAt a loc → r = .programOrder := by
      rintro r a loc (hf | hx) hlock
      · exact h.not_locks_of_follows hf hlock
      · exact absurd (locksAt_prepared.mp hlock) (hextra hx).2.1
    have hex : e.kind.isExclusiveRead = false := by
      revert hread
      generalize e.kind = kind
      cases kind <;> decide
    refine ⟨⟨?_, h.logs ha hwrite hlast⟩, ha.paired hc h.prepared.toWired hp' hex hlocks⟩
    refine h.prepared.adds ha hc ht h.room_prepared isSome_chain?_opened hwrite
      (fun hlock _ hnext => hc.not_before hp' hlock hnext) (fun hcause => ?_) hstarts
    rcases hcause with hf | hx
    · simp [Follows] at hf
    · rcases (hextra hx).2.2 with hr | hr | hr
      · cases hr
      · cases hr
      · exact hr.2
  · rcases (hextra hx).2.2 with rfl | rfl | ⟨rfl, -⟩ <;> decide
  · refine iff_of_false (fun hx => ?_) (by simp [hread])
    rcases (hextra hx).2.2 with hr | hr | ⟨hr, -⟩ <;> cases hr

/-- **A join** comes after the end of the other task. -/
theorem join (hp : g.Paired) (hkind : e.kind = .threadJoin) {u m : Nat}
    (hjoined : e.joinedTask? = some (u : Int)) (hut : u ≠ t) (hu : g.Fills u m) (hm : m ≠ 0)
    (hfree : g.isBlocked u = false) :
    ∃ g', (g.noted e).trackThreadJoins (.place t n) = .ok g' ∧
      Enters g g' l e t n (fun r a => r = .threadJoin ∧ a = .prior u m) ∧ g'.Paired ∧
      Awaits g g' := by
  have hkeys := h.taskKeys_noted hut hu hfree
  obtain ⟨node, hnode, hevent⟩ := h.find?_noted
  have hnkind : node.kind = .threadJoin := by
    rw [Node.kind, hevent]
    exact hkind
  have hnjoined : node.event.joinedTask? = some (u : Int) := by
    rw [hevent]
    exact hjoined
  have hprior : Key.prior u m ∈ g.order := h.recorded.prior_mem hu
  have hprior' : Key.prior u m ∈ (g.prepared e).order := by
    rw [order_prepared]
    exact hprior
  have ha := h.adds.link hprior' h.fills_prepared (r := .threadJoin) (by decide)
  have htimed := h.adds.timed_link h.prepared.toWired h.fills_prepared h.timed
    (h.prepared.mem_of_follows h.fills_prepared) hprior' (r := .threadJoin) rfl
  obtain ⟨henters, hpaired⟩ := h.bound hp (by rw [hkind]; rfl) (by rw [hkind]; rfl) ha htimed
    (fun hx => ⟨hx.2 ▸ hprior, hx.2 ▸ not_locks_prior hp hu hm h.recorded.toShaped,
      Or.inr (Or.inl hx.1)⟩)
    (fun hk => by
      rw [chain, chain?, link_chains, h.grows.chains] at hk
      exact Or.inl hk) (by
      rw [if_neg (by rw [hkind]; decide), ← h.lastStart_noted]
      exact lastStart_congr (by rw [chain, chain?, link_chains]; rfl))
  refine ⟨(g.noted e).link (.prior u m) (.place t n) .threadJoin, ?_, henters, hpaired,
    h.awaits.trans (.link ..)⟩
  unfold trackThreadJoins
  rw [hnode]
  dsimp only
  rw [if_neg (by simp [hnkind]), hnjoined]
  dsimp only
  rw [if_pos (hasNodes_of_taskKeys hkeys hm), lastOf_eq hkeys]

/-- **The start of a thread** comes after the previous start. -/
theorem created (hkind : e.kind = .threadStart) :
    Created g ((g.noted e).trackThreadCreates (.place t n)) e t n := by
  have hchain : (g.noted e).chain .thread = (g.prepared e).chain .thread := by
    rw [chain, chain?, h.grows.chains]
    rfl
  have hcreates : (g.noted e).trackThreadCreates (.place t n) =
      ((g.noted e).link g.lastStart (.place t n) .threadCreation).setChain .thread
        ((g.prepared e).threadStarts ++ [.place t n]) := by
    have hself : (g.noted e).kindOf? (.place t n) = some .threadStart := by
      rw [h.adds.kindOf?_self]
      exact congrArg some hkind
    unfold trackThreadCreates
    rw [if_pos hself, hchain, ← lastStart_prepared (e := e)]
    rfl
  -- the previous start is a start, or there is none and the first event stands for it
  have hstart : g.lastStart = .init ∨ (g.prepared e).kindOf? g.lastStart = some .threadStart := by
    rw [← lastStart_prepared (e := e)]
    rcases mem_threadStarts (g.prepared e).lastStart_mem with heq | hmem
    · exact Or.inl heq
    · exact h.prepared.starts hmem
  have hmem : g.lastStart ∈ (g.prepared e).order := by
    rcases hstart with heq | hstart
    · rw [heq]
      exact h.prepared.init_mem
    · exact h.prepared.mem_of_kindOf? hstart (by decide)
  have ha := h.adds.link hmem h.fills_prepared (r := .threadCreation) (by decide)
  have htimed := h.adds.timed_link h.prepared.toWired h.fills_prepared h.timed
    (h.prepared.mem_of_follows h.fills_prepared) hmem (r := .threadCreation) rfl
  rw [hcreates]
  refine ⟨ha.setThreadChain _, htimed.of_nodes rfl rfl,
    h.awaits.trans ((Awaits.link ..).trans (.setChain ..)), link_tasks ..,
    fun {k} hk => ?_, order_prepared ▸ hmem, fun {loc} hlock => ?_, ?_⟩
  · rw [chain_setChain, if_pos rfl, List.mem_append, List.mem_singleton] at hk
    rcases hk with hk | hk
    · exact (mem_threadStarts hk).elim (fun heq => Or.inr (Or.inl heq)) Or.inl
    · exact Or.inr (Or.inr hk)
  · have hlock := locksAt_prepared (e := e).mpr hlock
    rcases hstart with heq | hstart
    · exact h.prepared.ne_init_of_readsAt hlock.readsAt heq
    · obtain ⟨e₀, he₀, hex, -⟩ := hlock
      rw [kindOf?_of_event? he₀, Option.some_inj] at hstart
      rw [hstart] at hex
      cases hex
  · rw [lastStart, threadStarts, chain_setChain, if_pos rfl, if_neg (by simp), List.getLast?_concat]
    rfl

/-- **The start of the main task** has no spawn before it. -/
theorem first (hp : g.Paired) (hkind : e.kind = .threadStart) :
    Enters g ((g.noted e).trackThreadCreates (.place t n)) l e t n
        (fun r a => r = .threadCreation ∧ a = g.lastStart) ∧
      ((g.noted e).trackThreadCreates (.place t n)).Paired ∧
      Awaits g ((g.noted e).trackThreadCreates (.place t n)) := by
  have hc := h.created hkind
  obtain ⟨henters, hpaired⟩ := h.bound hp (by rw [hkind]; rfl) (by rw [hkind]; rfl) hc.adds hc.timed
    (fun hx => ⟨hx.2 ▸ hc.mem, hx.2 ▸ hc.not_locks, Or.inl hx.1⟩)
    (fun hk => (hc.starts hk).imp_right (Or.imp_right fun heq => ⟨heq, hkind⟩))
    (by rw [if_pos hkind, hc.start])
  exact ⟨henters, hpaired, hc.awaits⟩

/-- **The start of a thread** comes after the spawn, which is the last event of the other task. -/
theorem start (hp : g.Paired) (hkind : e.kind = .threadStart) {u m : Nat}
    (hstarted : e.startedBy? = some (u : Int)) (hut : u ≠ t) (hu : g.Fills u m) (hm : m ≠ 0)
    (hfree : g.isBlocked u = false) :
    ∃ g', ((g.noted e).trackThreadCreates (.place t n)).trackThreadStarts (.place t n) = .ok g' ∧
      Enters g g' l e t n (fun r a => r = .threadCreation ∧ a = g.lastStart ∨
        r = .threadStart ∧ a = .prior u m) ∧
      g'.Paired ∧ Awaits g g' := by
  have hc := h.created hkind
  generalize (g.noted e).trackThreadCreates (.place t n) = g₁ at hc ⊢
  have hkeys : g₁.taskKeys u = places u m := by
    unfold taskKeys
    rw [hc.tasks]
    exact h.taskKeys_noted hut hu hfree
  obtain ⟨node, hnode, hevent⟩ : ∃ m, g₁.find? (.place t n) = some m ∧
      m.event = (g.prepared e).entered e := by
    have hself := hc.adds.event (.place t n)
    rw [if_pos rfl] at hself
    exact Option.map_eq_some_iff.mp hself
  have hnkind : node.kind = .threadStart := by
    rw [Node.kind, hevent]
    exact hkind
  have hnstarted : node.event.startedBy? = some (u : Int) := by
    rw [hevent]
    exact hstarted
  have hprior : Key.prior u m ∈ g.order := h.recorded.prior_mem hu
  have hprior' : Key.prior u m ∈ (g.prepared e).order := by
    rw [order_prepared]
    exact hprior
  have hfollows : ∀ {r a},
      ((g.prepared e).Follows t n r a ∨ r = .threadCreation ∧ a = g.lastStart) →
      a ∈ (g.prepared e).order := by
    rintro r a (hf | ⟨-, rfl⟩)
    · exact h.prepared.mem_of_follows h.fills_prepared hf
    · rw [order_prepared]
      exact hc.mem
  -- the edge from the spawn is one more of those that lead to the event
  have ha := hc.adds.link hprior' h.fills_prepared (r := .threadStart) (by decide)
  have htimed := hc.adds.timed_link h.prepared.toWired h.fills_prepared hc.timed hfollows hprior'
    (r := .threadStart) rfl
  simp only [or_assoc] at ha
  have hbound := h.bound hp (by rw [hkind]; rfl) (by rw [hkind]; rfl) ha htimed (fun hx => ?_)
    (fun hk => by
      rw [chain, chain?, link_chains] at hk
      exact (hc.starts hk).imp_right (Or.imp_right fun heq => ⟨heq, hkind⟩))
    (by
      rw [if_pos hkind, ← hc.start]
      exact lastStart_congr (by rw [chain, chain?, link_chains]; rfl))
  · obtain ⟨henters, hpaired⟩ := hbound
    refine ⟨g₁.link (.prior u m) (.place t n) .threadStart, ?_, henters, hpaired,
      hc.awaits.trans (.link ..)⟩
    unfold trackThreadStarts
    rw [hnode]
    dsimp only
    rw [if_neg (by simp [hnkind]), hnstarted]
    dsimp only
    rw [if_pos (hasNodes_of_taskKeys hkeys hm), lastOf_eq hkeys]
  · rcases hx with ⟨rfl, rfl⟩ | ⟨rfl, rfl⟩
    · exact ⟨hc.mem, hc.not_locks, Or.inl rfl⟩
    · exact ⟨hprior, not_locks_prior hp hu hm h.recorded.toShaped, Or.inr (Or.inr ⟨rfl, hkind⟩)⟩

/-- **A write** waits to take effect. -/
theorem writing (hwrite : e.kind.isWrite = true) (hnone : e.location ≠ .none)
    (hthread : e.location ≠ .thread)
    (hpending : ∀ {r v loc}, g.LocksAt r loc → g.WritesTo v loc → r.next = .place t n →
      ¬Before l r v) :
    (g.noted e).Writing (l ++ [.place t n]) (.place t n) e.location := by
  have hread : e.kind.isRead = false := by
    revert hwrite
    generalize e.kind = kind
    cases kind <;> decide
  refine h.prepared.writing (e := (g.prepared e).entered e) h.adds (h.caused_alone hread) h.timed
    h.room_prepared hwrite hthread hnone
    (chain_opened_ne_nil ((Relabels.ensureTask g e.task).wired h.recorded.toWired) hnone hthread)
    (fun hlock hv hnext => ?_) (fun {a} hcause => ?_) ?_
  · refine hpending (locksAt_prepared.mp hlock) ?_ hnext
    unfold WritesTo at hv
    rw [event?_prepared] at hv
    exact hv
  · simp [Follows] at hcause
  · rw [chain, chain?, h.grows.chains]
    rfl

theorem lastWrite_noted (loc : Location) : (g.noted e).lastWrite loc = g.lastWrite loc := by
  have hsame : (g.noted e).lastWrite loc = (g.prepared e).lastWrite loc := by
    rw [lastWrite, lastWrite, chain, chain?, h.grows.chains]
    rfl
  rw [hsame, Graph.prepared, lastWrite_opened]
  rfl

/-- **A write that is no half of a pair** waits to take effect. -/
theorem writes (hp : g.Paired) (hwrite : e.kind.isWrite = true) (hnone : e.location ≠ .none)
    (hthread : e.location ≠ .thread) :
    (g.noted e).Writing (l ++ [.place t n]) (.place t n) e.location ∧ (g.noted e).Paired := by
  have hkinds : e.kind.isRead = false ∧ e.kind.isExclusiveRead = false := by
    revert hwrite
    generalize e.kind = kind
    cases kind <;> decide
  have hc := h.caused_alone hkinds.1
  refine ⟨h.writing hwrite hnone hthread fun hlock _ hnext => ?_,
    h.adds.paired hc h.prepared.toWired (h.paired_prepared hp) hkinds.2 h.not_locks_of_follows⟩
  exact hc.not_before (h.paired_prepared hp) (locksAt_prepared.mpr hlock) hnext

omit h in
/-- **The second half of a pair** waits to take effect. The first half is the latest event, so no
write has come between the two. -/
theorem completes (h : Entry g (l ++ [.place t n]) e t (n + 1)) (hp : g.PairedBut (.place t n))
    {e₀ : Event} (he₀ : g.event? (.place t n) = some e₀) (hpair : e₀.kind.pairsWith e.kind = true)
    (hloc : e.location = e₀.location) (hnone : e.location ≠ .none)
    (hthread : e.location ≠ .thread) :
    (g.noted e).Writing (l ++ [.place t n] ++ [.place t (n + 1)]) (.place t (n + 1)) e.location ∧
      (g.noted e).Paired := by
  have hkinds : e.kind.isRead = false ∧ e.kind.isWrite = true := by
    revert hpair
    generalize e₀.kind = kind
    generalize e.kind = kind'
    cases kind <;> cases kind' <;> decide
  have hprepared : (g.prepared e).PairedBut (.place t n) :=
    PairedBut.opened (g := g.ensureTask e.task) ⟨hp.completed, hp.alone⟩ e.location
  have hnext : (Key.place t n).next = .place t (n + 1) := rfl
  refine ⟨h.writing hkinds.2 hnone hthread fun {r v loc} _ _ heq hbefore => ?_,
    h.adds.paired_of_pairedBut (h.caused_alone hkinds.1) h.prepared.toWired hprepared hnext
      (event?_prepared.trans he₀) hpair hloc h.not_locks_of_follows⟩
  obtain rfl : r = .place t n := Key.next_injective (heq.trans hnext.symm)
  have hnodup := h.recorded.explained.perm.nodup_iff.mpr h.recorded.nodup
  have hnot : Key.place t n ∉ l :=
    fun hmem => (List.nodup_append.mp hnodup).2.2 _ hmem _ (List.mem_singleton_self _) rfl
  rcases before_append.mp hbefore with hbefore | ⟨-, ⟨hmem, -⟩ | ⟨-, hbefore⟩⟩
  · exact hnot hbefore.left_mem
  · exact hnot hmem
  · exact hbefore.ne (List.mem_singleton.mp hbefore.right_mem).symm

/-- **A write takes effect** when labels have been put or taken off meanwhile. -/
theorem takesEffect {g'' : Graph} (hwrite : e.kind.isWrite = true)
    (hw : (g.noted e).Writing (l ++ [.place t n]) (.place t n) e.location) (hp : (g.noted e).Paired)
    (hr : Resembles (g.noted e) g'') (hg : g''.Wired) :
    Enters g (g''.trackCoherency (.place t n)) l e t n (fun _ _ => False) ∧
      (g''.trackCoherency (.place t n)).Paired := by
  have hw'' := hr.writing hw hg
  exact ⟨⟨hw''.recorded, h.logs_write hr hw'' hwrite⟩,
    hw''.toWrites.paired hg (hr.paired hw.toWired hg hp)⟩

end Entry

/-- A write that takes effect blocks no task. -/
theorem Writing.awaits (h : g.Writing l w loc) : Awaits g (g.trackCoherency w) := by
  rw [trackCoherency_eq h.write h.touched h.absent]
  exact (Awaits.setChain ..).trans (.link ..)

/-- The mark of an acquisition blocks no task. -/
theorem Awaits.markFinalLockWrite (g : Graph) (k : Key) : Awaits g (g.markFinalLockWrite k) where
  blocked := by
    have htasks : (g.markFinalLockWrite k).tasks = g.tasks := rfl
    exact fun u => isBlocked_congr htasks (kindOf?_markFinalLockWrite g k) u
  waiting := fun _ => rfl

end Interleaving.Graph
