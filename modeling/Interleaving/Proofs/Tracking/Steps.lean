import Interleaving.Proofs.Exploration.Recording
import Interleaving.Proofs.Tracking.Sites
import Interleaving.Proofs.Tracking.Stages

/-!
# Recording the steps of a machine

A graph **tracks** a machine (`Interleaving.Graph.Tracks`) when it is recorded, all pairs are
completed, and it shows how far the tasks of the machine have come, which locks are taken and who
waits for them. Recording the events of a step leads from a graph that tracks the machine before the
step to one that tracks the machine after it. There is one lemma for each way in which events enter:
what they share is how the events of a task add up (`Interleaving.Graph.Tracks.gains`) and that a
step which has nothing to do with locks changes nothing about them
(`Interleaving.Graph.Tracks.plain`).
-/

namespace Interleaving

open Machine

namespace Graph

variable {g g' g₁ : Graph} {T T' : LocationTable} {m m' : Machine} {t u n n' : Nat}
  {f f' : TaskFrame} {e e' : Event} {l l' : List Key} {loc : Location} {lock name : String}
  {more : List TaskFrame}
  {extra : Relation → Key → Prop}

/-- **A graph that tracks a machine**, whose places have the locations that a table gives them. -/
structure Tracks (g : Graph) (T : LocationTable) (m : Machine) : Prop where
  recorded : ∃ l, g.Recorded l
  paired : g.Paired
  stage : ∀ t : Nat, g.Stage t m.tasks[t]?
  waits : Waits (T.siteOf? m) g m
  sites : Sites T m
  /-- Nothing is written where no place is yet. -/
  untouched : ∀ {loc}, m.lastLocation < loc → g.lastWrite loc = .init

/-- A step leads to a graph that tracks the machine after it, with at most two more events. -/
def Reaches (g : Graph) (T : LocationTable) (m : Machine) (g' : Graph) : Prop :=
  g'.Tracks T m ∧ g'.order.length ≤ g.order.length + 2

/-- The edges that bind an event to other tasks: a thread starts after the thread before it and
after what its spawner has done, and a join comes after what the other task has done. -/
structure Bound (g : Graph) (e : Event) (extra : Relation → Key → Prop) : Prop where
  created : e.kind = .threadStart → extra .threadCreation g.lastStart
  started : e.kind = .threadStart → ∀ u : Nat, e.startedBy? = some (u : Int) →
    ∃ n, g.Fills u n ∧ extra .threadStart (.prior u n)
  joined : e.kind = .threadJoin → ∀ u : Nat, e.joinedTask? = some (u : Int) →
    ∃ n, g.Fills u n ∧ extra .threadJoin (.prior u n)

theorem Bound.of_kind (h : e.kind ≠ .threadStart ∧ e.kind ≠ .threadJoin) : Bound g e extra :=
  ⟨fun hkind => absurd hkind h.1, fun hkind => absurd hkind h.1, fun hkind => absurd hkind h.2⟩

/-- **The events of a step enter a graph**, one after the other: none that a graph shows, one, or
two halves. -/
inductive Enlists (g : Graph) (l : List Key) : List Event → Graph → Prop
  | labels {g' : Graph} (resembles : Resembles g g') (wired : g'.Wired) : Enlists g l [] g'
  | one {e : Event} {t n : Nat} {g' : Graph} {extra : Relation → Key → Prop} (task : e.task = t)
      (fills : g.Fills t n) (enters : Entry.Enters g g' l e t n extra) (bound : Bound g e extra) :
      Enlists g l [e] g'
  | pair {e e' : Event} {t n : Nat} {g₁ g' : Graph} {extra extra' : Relation → Key → Prop}
      (task : e.task = t) (task' : e'.task = t) (fills : g.Fills t n)
      (first : Entry.Enters g g₁ l e t n extra)
      (second : Entry.Enters g₁ g' (l ++ [.place t n]) e' t (n + 1) extra')
      (pairs : e.kind.pairsWith e'.kind = true) : Enlists g l [e, e'] g'

/-! ### Tasks and locations -/

theorem ne_thread_of_range (h : Sites T m) {p : Place} (hp : T.siteOf? m p = some loc) :
    loc ≠ .thread := by
  have hpos := (h.range hp).1
  rintro rfl
  exact absurd hpos (by decide)

theorem ne_none_of_range (h : Sites T m) {p : Place} (hp : T.siteOf? m p = some loc) :
    loc ≠ .none := by
  have hpos := (h.range hp).1
  rintro rfl
  exact absurd hpos (by decide)

theorem ne_thread_of_lt (h : Sites T m) (hloc : m.lastLocation < loc) : loc ≠ .thread := by
  have hbase := h.base
  rintro rfl
  exact absurd (Int.lt_of_le_of_lt hbase hloc) (by decide)

/-- A task at an instruction wants a lock only if it is the lock of this instruction. -/
theorem eq_of_wants {id : Int} {position : Nat} {i : Option Instruction}
    (h : m.StandsAt id f position i) (hw : f.Wants lock) : i = some (.lock lock) := by
  rcases hw with hs | hs | ⟨-, hcode⟩
  · rw [h.ready] at hs
    cases hs
  · rw [h.ready] at hs
    cases hs
  · exact h.instruction.symm.trans (hcode position h.passed)

/-- A read blocks no task. -/
theorem awaits_readLast (he : Entry g l e t n) : Awaits g (Engine.readLast g e (.place t n)) :=
  he.awaits.trans (.link (g.noted e) (g.lastWrite e.location) (.place t n) .readsFrom)

/-- After an event its task may go on with the next one. -/
theorem Entry.next {e' : Event} (he : Entry g l e t n) (henters : Entry.Enters g g' l e t n extra)
    (ha : Awaits g g') (hkind : e.kind ≠ .threadFinish) (htask : e'.task = t)
    (hkind' : e'.kind ≠ .block)
    (hroom : g.order.length + 2 < 2 ^ 62) : Entry g' (l ++ [.place t n]) e' t (n + 1) where
  recorded := henters.recorded
  task := htask
  fills := henters.logs.gains.fills he.fills
  free := (ha.blocked t).trans he.free
  going := by
    rw [henters.logs.gains.kindOf?_self]
    simpa using hkind
  kind := hkind'
  room := by
    have hlen := henters.logs.gains.length
    omega

/-- The first half of a pair, when the second half comes. -/
theorem Entry.halfway {e₁ : Event} (henters : Entry.Enters g g' l e t n extra)
    (he₁ : Entry g' (l ++ [.place t n]) e₁ t (n + 1)) :
    (∃ e₀, g'.event? (.place t n) = some e₀ ∧ e₀.kind = e.kind ∧ e₀.location = e.location) ∧
      (g'.noted e₁).In .programOrder (.place t n) (.place t (n + 1)) := by
  refine ⟨?_, ?_⟩
  · have hself := henters.logs.self
    rw [face, Option.map_eq_some_iff] at hself
    obtain ⟨e₀, he₀, hface⟩ := hself
    rw [faceOf, faceOf, Face.mk.injEq] at hface
    exact ⟨e₀, he₀, hface.1, hface.2.1⟩
  · exact (he₁.adds.edges .programOrder (.place t n) (.place t (n + 1))).1.mpr
      (Or.inr ⟨rfl, Or.inl ⟨rfl, rfl⟩⟩)

namespace Tracks

/-- The events of a task that there is, unless it has come to its end, may go on. -/
theorem entry (h : g.Tracks T m) (hl : g.Recorded l)
    (hf : m.tasks[t]? = some f) (hgoing : f.state ≠ .finished)
    (hnot : ∀ lock, f.Wants lock → m.holders.has lock = false)
    (hroom : g.order.length + 1 < 2 ^ 62) :
    ∃ n, g.Fills t n ∧ n ≠ 0 ∧ ∀ e : Event, e.task = t → e.kind ≠ .block → Entry g l e t n := by
  obtain ⟨n, hn, -⟩ := hl.tasks t
  have hstage := h.stage t
  rw [hf] at hstage
  have hbegun := (hn 0).mp (hstage.begun.mpr rfl)
  refine ⟨n, hn, by omega, fun e htask hkind => ?_⟩
  refine ⟨hl, htask, hn, h.waits.not_blocked hf hnot, fun hend => hgoing ?_, hkind, hroom⟩
  exact (hstage.ended rfl hn).mpr hend

/-- There are no more tasks than events. -/
theorem length_tasks (h : g.Tracks T m) : m.tasks.length ≤ g.order.length := by
  have hnodup : ((List.range m.tasks.length).map fun t => Key.place t 0).Nodup := by
    refine List.nodup_range.map fun t u heq => ?_
    exact (Key.place_inj.mp heq).1
  have hsub : ((List.range m.tasks.length).map fun t => Key.place t 0) ⊆ g.order := by
    intro k hk
    obtain ⟨t, ht, rfl⟩ := List.mem_map.mp hk
    refine (h.stage t).begun.mpr ?_
    rw [List.getElem?_eq_getElem (List.mem_range.mp ht)]
    rfl
  have hle := (hnodup.subperm hsub).length_le
  rwa [List.length_map, List.length_range] at hle

/-- The number of a task is a word. -/
theorem wrap_task (h : g.Tracks T m) (hroom : g.order.length < 2 ^ 62) (hf : m.tasks[t]? = some f) :
    Word.wrap ((t : Int) + 1 - 1) = t := by
  have hle := h.length_tasks
  have hlt := (List.getElem?_eq_some_iff.mp hf).1
  rw [show (t : Int) + 1 - 1 = t by omega]
  refine Word.wrap_of_fits ?_
  rw [Word.fits, Bool.and_eq_true, decide_eq_true_eq, decide_eq_true_eq, Word.least, Word.greatest]
  omega

/-- **What the events of a step add up to.** -/
theorem gains (h : g.Tracks T m) (hl : g.Recorded l)
    (hturn : m.Turn m' t f f' []) (hn : g.Fills t n) (hg : Gains g g' t n n' e)
    (hr : g'.Recorded l') (hp : g'.Paired)
    (hended : f'.state = .finished ↔ e.kind = .threadFinish)
    (hparked : f'.state = .parked → e.kind = .assume ∧ e.holds = false)
    (hwaits : Waits (T'.siteOf? m') g' m') (hsites : Sites T' m')
    (hwrite : e.kind.isWrite = true → e.location ≤ m'.lastLocation)
    (hlast : m.lastLocation ≤ m'.lastLocation) : g'.Tracks T' m' where
  recorded := ⟨l', hr⟩
  paired := hp
  stage := by
    intro u
    by_cases hu : u = t
    · subst hu
      rw [hturn.after]
      exact hg.stage hn hended hparked
    · have hother : m'.tasks[u]? = m.tasks[u]? := by
        rw [hturn.tasks, List.append_nil, List.getElem?_set, if_neg (Ne.symm hu)]
      rw [hother]
      exact (h.stage u).gains_other hl.toShaped hg hu
  waits := hwaits
  sites := hsites
  untouched := by
    intro loc hloc
    rw [hg.last (ne_thread_of_lt hsites hloc), if_neg]
    · exact h.untouched (by lia)
    · rintro ⟨hw, rfl⟩
      have := hwrite hw
      lia

/-- **A step that has nothing to do with locks.** -/
theorem plain (h : g.Tracks T m) (hl : g.Recorded l)
    (hturn : m.Turn m' t f f' []) (hn : g.Fills t n) (hg : Gains g g' t n n' e)
    (hr : g'.Recorded l') (hp : g'.Paired) (ha : Awaits g g')
    (hended : f'.state = .finished ↔ e.kind = .threadFinish)
    (hparked : f'.state = .parked → e.kind = .assume ∧ e.holds = false) (hsites : Sites T' m')
    (hφ : ∀ lock, T'.siteOf? m' (.lock lock) = T.siteOf? m (.lock lock))
    (hwrite : e.kind.isWrite = true → e.location ≤ m'.lastLocation ∧
      ∀ lock, T.siteOf? m (.lock lock) ≠ some e.location)
    (hlast : m.lastLocation ≤ m'.lastLocation) (hholders : m'.holders = m.holders)
    (hwants : ∀ lock, ¬f.Wants lock) (hstate : ∀ lock, f'.state ≠ .waiting lock) :
    g'.Tracks T' m' := by
  refine h.gains hl hturn hn hg hr hp hended hparked ?_ hsites (fun hw => (hwrite hw).1) hlast
  refine h.waits.plain hturn ha hφ (fun {lock loc} hlock => ?_) hholders
    (fun lock hw => absurd hw (hwants lock)) hstate (by simp)
  refine hg.held_of_ne hl (ne_thread_of_range h.sites hlock) fun hw heq => ?_
  exact (hwrite hw).2 lock (heq ▸ hlock)

/-- **A step that only puts and takes off labels.** -/
theorem relabel (h : g.Tracks T m) (hl : g.Recorded l)
    (hturn : m.Turn m' t f f' []) (hr : Resembles g g') (hg' : g'.Wired)
    (hended : f'.state = .finished ↔ f.state = .finished)
    (hparked : f'.state = .parked → f.state = .parked) (hwaits : Waits (T'.siteOf? m') g' m')
    (hsites : Sites T' m') (hlast : m.lastLocation ≤ m'.lastLocation) : g'.Tracks T' m' where
  recorded := ⟨l, hr.recorded hl hg'⟩
  paired := hr.paired hl.toWired hg' h.paired
  stage := by
    intro u
    refine Stage.resembles ?_ hl.toShaped hr
    have hstage := h.stage u
    by_cases hu : u = t
    · subst hu
      rw [hturn.self] at hstage
      rw [hturn.after]
      exact hstage.move hended hparked
    · rwa [hturn.tasks, List.append_nil, List.getElem?_set, if_neg (Ne.symm hu)]
  waits := hwaits
  sites := hsites
  untouched := by
    intro loc hloc
    rw [lastWrite, hr.chain]
    exact h.untouched (by lia)

/-! ### Steps on variables -/

section Variables

/-- A step on a variable. -/
theorem access (h : g.Tracks T m) (hl : g.Recorded l)
    (hturn : m.Turn m' t f f' []) (hn : g.Fills t n) (hg : Gains g g' t n n' e)
    (hr : g'.Recorded l') (hp : g'.Paired) (ha : Awaits g g')
    (ht : Touched T T' m m' (.shared name) loc) (hkind : e.kind ≠ .threadFinish)
    (hloc : e.location = loc) (hf' : f'.state = .ready) (hholders : m'.holders = m.holders)
    (hwants : ∀ lock, ¬f.Wants lock) :
    g'.Tracks T' m' := by
  have hφ : ∀ lock, T'.siteOf? m' (.lock lock) = T.siteOf? m (.lock lock) :=
    fun lock => ht.other (by simp)
  refine h.plain hl hturn hn hg hr hp ha (by simp [hf', hkind]) (by simp [hf']) ht.sites hφ
    (fun _ => ⟨hloc ▸ (ht.sites.range ht.self).2, fun lock hlock => ?_⟩) ht.grows.1 hholders hwants
    (by simp [hf'])
  -- a lock and a variable have different locations
  rw [hloc, ← hφ] at hlock
  cases ht.sites.injective hlock ht.self

variable (h : g.Tracks T m) (hl : g.Recorded l) (hroom : g.order.length + 2 < 2 ^ 62)
  (hturn : m.Turn m' t f f' []) (hf : f.state = .ready) (hf' : f'.state = .ready)
  (hwants : ∀ lock, ¬f.Wants lock)
  (ht : Touched T T' m m' (.shared name) loc) (hholders : m'.holders = m.holders)
include h hl hroom hturn hf hf' hwants ht hholders

/-- **A read of a variable.** -/
theorem read : Engine.Brings (Engine.record (.new t .read loc)) g fun _ g' =>
    Reaches g T' m' g' ∧ Enlists g l [.new t .read loc] g' := by
  obtain ⟨n, hn, -, hentry⟩ :=
    h.entry hl hturn.self (by simp [hf]) (fun lock hw => absurd hw (hwants lock)) (by omega)
  have he := hentry (.new t .read loc) rfl (by simp [Event.new])
  obtain ⟨henters, -, hpaired⟩ :=
    he.read h.paired rfl (ne_none_of_range ht.sites ht.self) (ne_thread_of_range ht.sites ht.self)
  refine (Engine.recordRead_brings he).mono fun _ g' heq => ?_
  subst heq
  refine ⟨⟨h.access hl hturn hn henters.logs.gains henters.recorded (hpaired rfl) ?_ ht
    (by simp [Event.new]) rfl hf' hholders hwants, ?_⟩,
    .one rfl hn henters (.of_kind (by simp [Event.new]))⟩
  · exact awaits_readLast he
  · exact henters.logs.gains.length.trans_le (by omega)

omit hf' hholders in
/-- A write to a variable enters and waits to take effect. -/
theorem write_enters : ∃ n, Entry g l (.new t .write loc) t n ∧
    (g.noted (.new t .write loc)).Writing (l ++ [.place t n]) (.place t n) loc ∧
    (g.noted (.new t .write loc)).Paired := by
  obtain ⟨n, -, -, hentry⟩ :=
    h.entry hl hturn.self (by simp [hf]) (fun lock hw => absurd hw (hwants lock)) (by omega)
  have he := hentry (.new t .write loc) rfl (by simp [Event.new])
  obtain ⟨hw, hp⟩ :=
    he.writes h.paired rfl (ne_none_of_range ht.sites ht.self) (ne_thread_of_range ht.sites ht.self)
  exact ⟨n, he, hw, hp⟩

/-- **A write to a variable.** -/
theorem write : Engine.Brings (Engine.record (.new t .write loc)) g fun _ g' =>
    Reaches g T' m' g' ∧ Enlists g l [.new t .write loc] g' := by
  obtain ⟨n, he, hw, hp⟩ := h.write_enters hl hroom hturn hf hwants ht
  obtain ⟨henters, hpaired⟩ := he.takesEffect rfl hw hp (.refl _) hw.toWired
  refine (Engine.recordWrite_brings he hw).mono fun _ g' heq => ?_
  subst heq
  refine ⟨⟨h.access he.recorded hturn he.fills henters.logs.gains henters.recorded hpaired ?_ ht
    (by simp [Event.new]) rfl hf' hholders hwants, ?_⟩,
    .one rfl he.fills henters (.of_kind (by simp [Event.new]))⟩
  · exact he.awaits.trans hw.awaits
  · exact henters.logs.gains.length.trans_le (by omega)

/-- A graph in which the first half of an atomic update is recorded and the second half waits to
take effect. -/
structure Half (g g₁ : Graph) (l : List Key) (t n : Nat) (loc : Location) : Prop where
  enters : Entry.Enters g g₁ l (.new t .readExclusive loc) t n fun r a =>
    r = .readsFrom ∧ a = g.lastWrite loc
  awaits : Awaits g g₁
  entry : Entry g₁ (l ++ [.place t n]) (.new t .writeExclusive loc) t (n + 1)
  own : (g₁.noted (.new t .writeExclusive loc)).In .programOrder (.place t n) (.place t (n + 1))
  writing :
    (g₁.noted (.new t .writeExclusive loc)).Writing (l ++ [.place t n] ++ [.place t (n + 1)])
    (.place t (n + 1)) loc
  paired : (g₁.noted (.new t .writeExclusive loc)).Paired

omit hf' hholders in
/-- The first half of an atomic update is recorded, and the second half waits to take effect. -/
theorem update_enters : ∃ n g₁, g.Fills t n ∧
    Engine.Brings (Engine.record (.new t .readExclusive loc)) g (fun _ g' => g' = g₁) ∧
    Half g g₁ l t n loc := by
  obtain ⟨n, hn, -, hentry⟩ :=
    h.entry hl hturn.self (by simp [hf]) (fun lock hw => absurd hw (hwants lock)) (by omega)
  have hnone := ne_none_of_range ht.sites ht.self
  have hthread := ne_thread_of_range ht.sites ht.self
  have he := hentry (.new t .readExclusive loc) rfl (by simp [Event.new])
  obtain ⟨henters, hbut, -⟩ := he.read h.paired rfl hnone hthread
  refine ⟨n, Engine.readLast g (.new t .readExclusive loc) (.place t n), hn,
    Engine.recordRead_brings he, ?_⟩
  have ha := awaits_readLast he
  generalize hg₁ : Engine.readLast g (.new t .readExclusive loc) (.place t n) = g₁ at ha
  unfold Engine.readLast at hg₁
  rw [hg₁] at henters hbut
  have he₁ : Entry g₁ (l ++ [.place t n]) (.new t .writeExclusive loc) t (n + 1) :=
    he.next henters ha (by simp [Event.new]) rfl (by simp [Event.new]) hroom
  obtain ⟨⟨e₀, he₀, hkind, hloc⟩, hown⟩ := Entry.halfway henters he₁
  obtain ⟨hw, hp⟩ := he₁.completes hbut he₀ (by rw [hkind]; rfl) hloc.symm hnone hthread
  exact ⟨henters, ha, he₁, hown, hw, hp⟩

/-- **An atomic update of a variable** in two halves. -/
theorem update :
    ∃ P : Graph → Prop, Engine.Brings (Engine.record (.new t .readExclusive loc)) g
      (fun _ g₁ => P g₁) ∧
      ∀ g₁, P g₁ → Engine.Brings (Engine.record (.new t .writeExclusive loc)) g₁ fun _ g' =>
        Reaches g T' m' g' ∧ Enlists g l [.new t .readExclusive loc,
            .new t .writeExclusive loc] g' := by
  obtain ⟨n, _, hn, hbrings, henters, ha, he₁, hown, hw, hp⟩ :=
    h.update_enters hl hroom hturn hf hwants ht
  have hthread := ne_thread_of_range ht.sites ht.self
  refine ⟨_, hbrings, ?_⟩
  rintro g₁ rfl
  obtain ⟨henters₁, hpaired⟩ := he₁.takesEffect rfl hw hp (.refl _) hw.toWired
  have hsource : (g₁.noted (.new t .writeExclusive loc)).In .readsFrom
      ((g₁.noted (.new t .writeExclusive loc)).lastWrite loc) (.place t n) := by
    have hlast : g₁.lastWrite loc = g.lastWrite loc := by
      rw [henters.logs.last hthread, if_neg]
      rintro ⟨hwrite, -⟩
      cases hwrite
    rw [he₁.lastWrite_noted, hlast]
    refine (he₁.adds.edges ..).1.mpr (Or.inl (Entry.in_prepared.mpr ?_))
    refine (henters.logs.edge (by decide) ?_).mpr (Or.inr ⟨rfl, Or.inr ⟨rfl, rfl⟩⟩)
    exact henters.logs.order ▸ List.mem_append_right _ (List.mem_singleton.mpr rfl)
  refine (Engine.recordExclusiveWrite_brings he₁ hw hp hown hsource).mono fun _ g' heq => ?_
  subst heq
  have hgains := henters.logs.gains_pair henters₁.logs rfl
  refine ⟨⟨h.access hl hturn hn hgains henters₁.recorded hpaired ?_ ht (by simp [Event.new]) rfl hf'
    hholders hwants, ?_⟩, .pair rfl rfl hn henters henters₁ rfl⟩
  · exact ha.trans (he₁.awaits.trans hw.awaits)
  · exact hgains.length.trans_le (by omega)

end Variables

/-! ### Steps on locks -/

section Locks

variable (h : g.Tracks T m) (hl : g.Recorded l) (hroom : g.order.length + 2 < 2 ^ 62)
  (hturn : m.Turn m' t f f' []) (hwants : ∀ lock', f.Wants lock' → lock' = lock)
  (ht : Touched T T' m m' (.lock lock) loc)
include h hl ht

/-- A lock that is free is not held. -/
theorem not_held (hfree : m.holders.has lock = false) : ¬g.Held loc := by
  cases hsite : T.siteOf? m (.lock lock) with
  | some old =>
    rw [← ht.old hsite, h.waits.held hsite, hfree]
    decide
  | none =>
    rw [Held, h.untouched (ht.fresh hsite)]
    obtain ⟨e, he⟩ := hl.event? hl.init_mem
    rw [kindOf?_of_event? he, hl.initial he]
    decide

include hturn hwants

/-- **A task finds a lock taken.** -/
theorem await (hf : f.state = .ready) (hf' : f'.state = .waiting lock)
    (htaken : m.holders.has lock = true) (hholders : m'.holders = m.holders) :
    ∃ P : Graph → Prop, Engine.Brings (Engine.recordLockRead (.new t .lockAcquireRead loc)) g
      (fun _ g₁ => P g₁) ∧
      ∀ g₁, P g₁ →
        Engine.Brings (Engine.recordLockWrite (.new t .lockAcquireWrite loc)) g₁ fun _ g' =>
        Reaches g T' m' g' ∧ Enlists g l [] g' := by
  obtain ⟨old, hold⟩ := h.waits.known htaken
  obtain rfl := ht.old hold
  obtain ⟨hr, hblocked, hwaiting⟩ := hl.toWired.blockForLock t old
  refine ⟨_, Engine.recordLockRead_brings_held ((h.waits.held hold).mpr htaken), ?_⟩
  rintro _ rfl
  refine (Engine.recordLockWrite_brings_blocked ((hblocked t).mpr (Or.inr rfl))).mono
    fun _ g' heq => ?_
  subst heq
  have hφ : ∀ lock', T'.siteOf? m' (.lock lock') = T.siteOf? m (.lock lock') := by
    intro lock'
    by_cases heq : lock' = lock
    · rw [heq, ht.self, hold]
    · exact ht.other (by simpa using heq)
  refine ⟨⟨h.relabel hl hturn hr.resembles (hr.wired hl.toWired) (by simp [hf, hf'])
    (by simp [hf']) ?_ ht.sites ht.grows.1, ?_⟩, .labels hr.resembles (hr.wired hl.toWired)⟩
  · exact h.waits.blocks hturn hφ hold htaken
      (fun hlock' => hr.resembles.held_iff hl (ne_thread_of_range h.sites hlock')) hblocked hwaiting
      hholders hf' hwants
  · show (g.blockForLock t old).order.length ≤ _
    rw [hr.resembles.order]
    omega

include hroom

/-- **A task takes a lock**, in two halves. -/
theorem acquire {id : Int} (hgoing : f.state ≠ .finished) (hf' : f'.state = .ready)
    (hfree : m.holders.has lock = false) (hholders : m'.holders = m.holders.set lock id) :
    ∃ P : Graph → Prop, Engine.Brings (Engine.recordLockRead (.new t .lockAcquireRead loc)) g
      (fun _ g₁ => P g₁) ∧
      ∀ g₁, P g₁ →
        Engine.Brings (Engine.recordLockWrite (.new t .lockAcquireWrite loc)) g₁ fun _ g' =>
        Reaches g T' m' g' ∧ Enlists g l [.new t .lockAcquireRead loc,
            .new t .lockAcquireWrite loc] g' := by
  obtain ⟨n, hn, -, hentry⟩ :=
    h.entry hl hturn.self hgoing (fun lock' hw => hwants lock' hw ▸ hfree) (by omega)
  have hnone := ne_none_of_range ht.sites ht.self
  have hthread := ne_thread_of_range ht.sites ht.self
  have he := hentry (.new t .lockAcquireRead loc) rfl (by simp [Event.new])
  obtain ⟨henters, hbut, -⟩ := he.read h.paired rfl hnone hthread
  refine ⟨_, Engine.recordLockRead_brings he (h.not_held hl ht hfree), ?_⟩
  rintro _ rfl
  have ha := awaits_readLast he
  -- the read is recorded, and the write of the same acquisition has to follow it
  generalize hg₁ : Engine.readLast g (.new t .lockAcquireRead loc) (.place t n) = g₁ at ha
  unfold Engine.readLast at hg₁
  rw [hg₁] at henters hbut
  have he₁ : Entry g₁ (l ++ [.place t n]) (.new t .lockAcquireWrite loc) t (n + 1) :=
    he.next henters ha (by simp [Event.new]) rfl (by simp [Event.new]) hroom
  obtain ⟨⟨e₀, he₀, hkind, hloc⟩, hown⟩ := Entry.halfway henters he₁
  obtain ⟨hw, hp⟩ := he₁.completes hbut he₀ (by rw [hkind]; rfl) hloc.symm hnone hthread
  have he₀' : (g₁.noted (.new t .lockAcquireWrite loc)).event? (.place t n) = some e₀ := by
    rw [he₁.adds.event, if_neg (by simp), Entry.event?_prepared]
    exact he₀
  have hto : Awaits g (g₁.noted (.new t .lockAcquireWrite loc)) := ha.trans he₁.awaits
  have hwaiting : ∀ task ∈ (g₁.noted (.new t .lockAcquireWrite loc)).waitingFor loc, 0 ≤ task := by
    intro task htask
    rw [hto.waiting] at htask
    exact h.waits.nonneg htask
  obtain ⟨-, hblocked, hwait⟩ := hw.toWired.acquireLock t loc hwaiting
  refine (Engine.recordLockWrite_brings he₁ hw hown he₀' hkind hloc hwaiting).mono
    fun _ g' hg' => ?_
  obtain ⟨g₂, hr, hwired, hfrom, rfl⟩ := hg'
  obtain ⟨henters₁, hpaired⟩ := he₁.takesEffect rfl hw hp hr hwired
  have hlast : Awaits ((g₁.noted (.new t .lockAcquireWrite loc)).acquireLock loc t)
      (g₂.trackCoherency (.place t (n + 1))) := hfrom.trans (hr.writing hw hwired).awaits
  have hgains := henters.logs.gains_pair henters₁.logs rfl
  refine ⟨⟨h.gains hl hturn hn hgains henters₁.recorded hpaired (by simp [hf', Event.new])
    (by simp [hf']) ?_ ht.sites (fun _ => (ht.sites.range ht.self).2) ht.grows.1,
    hgains.length.trans_le (by omega)⟩,
    .pair rfl rfl hn henters henters₁ rfl⟩
  -- those that were waiting are blocked, and the task is no longer among them
  refine h.waits.acquires hturn hfree ht.self
    (fun lock' hne => ht.other (by simpa using hne)) ht.old
    (fun {lock' loc'} hlock' heq => ?_) ?_ (fun {lock' loc'} hlock' hne => ?_) (fun u => ?_)
    (fun loc' task => ?_) hholders hf' hwants
  · have hsame := ht.sites.injective (heq ▸ hlock') ht.self
    exact Place.lock.inj hsame
  · exact (hgains.held_iff hl hthread).mpr (by rw [if_pos ⟨rfl, rfl⟩]; rfl)
  · exact hgains.held_of_ne hl (ne_thread_of_range h.sites hlock') fun _ => hne
  · rw [hlast.blocked, hblocked, hto.blocked, hto.waiting]
  · rw [hlast.waiting, hwait, hto.waiting]

omit hwants in
/-- **A task gives a lock back.** -/
theorem release (hf : f.state = .ready) (hf' : f'.state = .ready) (hnot : ∀ lock', ¬f.Wants lock')
    (htaken : m.holders.has lock = true) (hholders : m'.holders = m.holders.erase lock) :
    Engine.Brings (Engine.record (.new t .lockReleaseWrite loc)) g fun _ g' =>
      Reaches g T' m' g' ∧ Enlists g l [.new t .lockReleaseWrite loc] g' := by
  obtain ⟨old, hold⟩ := h.waits.known htaken
  obtain rfl := ht.old hold
  obtain ⟨n, hn, -, hentry⟩ :=
    h.entry hl hturn.self (by simp [hf]) (fun lock' hw => absurd hw (hnot lock')) (by omega)
  have hnone := ne_none_of_range ht.sites ht.self
  have hthread := ne_thread_of_range ht.sites ht.self
  have he := hentry (.new t .lockReleaseWrite old) rfl (by simp [Event.new])
  obtain ⟨hw, hp⟩ := he.writes h.paired rfl hnone hthread
  obtain ⟨hr, hwaiting, hblocked⟩ := hw.toWired.unblockForLock old
  have hwired := hr.wired hw.toWired
  obtain ⟨henters, hpaired⟩ := he.takesEffect rfl hw hp hr.resembles hwired
  have hlast := (hr.resembles.writing hw hwired).awaits
  have hgains := henters.logs.gains
  refine (Engine.recordLockRelease_brings he).mono fun _ g' heq => ?_
  replace heq : g' = ((g.noted (.new t .lockReleaseWrite old)).unblockForLock old).trackCoherency
    (.place t n) := heq
  subst heq
  refine ⟨⟨h.gains hl hturn hn hgains henters.recorded hpaired (by simp [hf', Event.new])
    (by simp [hf']) ?_ ht.sites (fun _ => (ht.sites.range ht.self).2) ht.grows.1,
    hgains.length.trans_le (by omega)⟩,
    .one rfl hn henters (.of_kind (by simp [Event.new]))⟩
  refine h.waits.releases hturn (fun lock' => ?_) hold (fun {lock'} hlock' => ?_) ?_
    (fun {lock' loc'} hlock' hne => ?_) (fun u => ?_) (fun loc' => ?_) hholders hf' hnot
  · by_cases heq : lock' = lock
    · rw [heq, ht.self, hold]
    · exact ht.other (by simpa using heq)
  · exact Place.lock.inj (h.sites.injective hlock' hold)
  · rw [hgains.held_iff hl hthread, if_pos ⟨rfl, rfl⟩]
    simp [Event.new]
  · exact hgains.held_of_ne hl (ne_thread_of_range h.sites hlock') fun _ => hne
  · rw [hlast.blocked]
    exact (hblocked u).trans (by rw [he.awaits.blocked, he.awaits.waiting])
  · rw [hlast.waiting, waitingFor, hwaiting]
    exact he.awaits.waiting loc'

end Locks

/-! ### Steps in the life of threads -/

section Threads

variable (h : g.Tracks T m) (hl : g.Recorded l) (hroom : g.order.length + 2 < 2 ^ 62)
  (hturn : m.Turn m' t f f' more) (hwants : ∀ lock, ¬f.Wants lock) (hsites : Sites T' m')
  (hφ : ∀ p, T'.siteOf? m' p = T.siteOf? m p)
  (hlast : m'.lastLocation = m.lastLocation) (hholders : m'.holders = m.holders)
include h hl hroom hturn hwants hsites hφ hlast hholders

/-- **A marker.** -/
theorem marker
    (hmore : more = []) (hgoing : f.state ≠ .finished) (hstate : ∀ lock, f'.state ≠ .waiting lock)
    (htask : e.task = t) (hmarker : e.kind.isMarker = true)
    (hkind : e.kind ≠ .threadStart ∧ e.kind ≠ .threadJoin)
    (hended : f'.state = .finished ↔ e.kind = .threadFinish)
    (hparked : f'.state = .parked → e.kind = .assume ∧ e.holds = false)
    (hbrings : ∀ {l n}, Entry g l e t n →
      Engine.Brings (Engine.record e) g fun _ g' => g' = g.noted e) :
    Engine.Brings (Engine.record e) g fun _ g' => Reaches g T' m' g' ∧ Enlists g l [e] g' := by
  subst hmore
  obtain ⟨n, hn, -, hentry⟩ :=
    h.entry hl hturn.self hgoing (fun lock hw => absurd hw (hwants lock)) (by omega)
  have hplain : e.kind ≠ .block ∧ e.kind.isWrite = false := by
    revert hmarker
    cases e.kind <;> decide
  have he := hentry e htask hplain.1
  obtain ⟨henters, hpaired⟩ := he.marker h.paired hmarker hkind.1
  refine (hbrings he).mono fun _ g' heq => ?_
  subst heq
  refine ⟨⟨h.plain hl hturn hn henters.logs.gains henters.recorded hpaired he.awaits hended
    hparked hsites (fun lock => hφ _) (fun hw => ?_) (by lia) hholders hwants hstate,
    henters.logs.gains.length.trans_le (by omega)⟩, .one htask hn henters (.of_kind hkind)⟩
  rw [hplain.2] at hw
  cases hw

/-- **A task has waited for another one**, which has come to its end. -/
theorem join {other : TaskFrame}
    (hmore : more = []) (hgoing : f.state ≠ .finished) (hf' : f'.state = .ready)
    (hother : m.tasks[u]? = some other) (hend : other.state = .finished) :
    Engine.Brings
      (Engine.record ((Event.new t .threadJoin .thread).set Event.joinedTaskName (.task u))) g
      fun _ g' => Reaches g T' m' g' ∧
        Enlists g l [(Event.new t .threadJoin .thread).set Event.joinedTaskName (.task u)] g' := by
  subst hmore
  obtain ⟨n, hn, -, hentry⟩ :=
    h.entry hl hturn.self hgoing (fun lock hw => absurd hw (hwants lock)) (by omega)
  have hut : u ≠ t := by
    rintro rfl
    rw [hturn.self, Option.some_inj] at hother
    exact hgoing (hother ▸ hend)
  have hnot : ∀ lock, ¬other.Wants lock := by
    rintro lock (hs | hs | ⟨hs, -⟩) <;> rw [hend] at hs <;> cases hs
  obtain ⟨k, hk, -⟩ := hl.tasks u
  have hk0 : k ≠ 0 := by
    have hstage := h.stage u
    rw [hother] at hstage
    have hbegun := (hk 0).mp (hstage.begun.mpr rfl)
    omega
  have hfree := h.waits.not_blocked hother fun lock hw => absurd hw (hnot lock)
  have he := hentry ((Event.new t .threadJoin .thread).set Event.joinedTaskName (.task u)) rfl
    (by simp [Event.new, Event.set])
  have hjoined :
      ((Event.new t .threadJoin .thread).set Event.joinedTaskName (.task u)).joinedTask? =
        some (u : Int) := by
    rw [Event.joinedTask?, Attributes.task?, Event.set, Dictionary.get?_set_self]
  obtain ⟨g', hok, henters, hpaired, ha⟩ := he.join h.paired rfl hjoined hut hk hk0 hfree
  refine (Engine.recordMarker_brings_join he rfl hok).mono fun _ g'' heq => ?_
  subst heq
  have hbound : Bound g ((Event.new t .threadJoin .thread).set Event.joinedTaskName (.task u))
      fun r a => r = .threadJoin ∧ a = .prior u k := by
    refine ⟨fun hkind => (by cases hkind), fun hkind => (by cases hkind),
      fun _ w hw => ⟨k, ?_, rfl, ?_⟩⟩
    all_goals
      obtain rfl : u = w := by exact_mod_cast Option.some.inj (hjoined.symm.trans hw)
    · exact hk
    · rfl
  refine ⟨⟨h.plain hl hturn hn henters.logs.gains henters.recorded hpaired ha
    (by simp [hf', Event.new, Event.set]) (by simp [hf'])
    hsites (fun lock => hφ _) (fun hw => ?_) (by lia) hholders hwants (by simp [hf']),
    henters.logs.gains.length.trans_le (by omega)⟩, .one rfl hn henters hbound⟩
  cases hw

/-- **A task spawns another one**, which starts. -/
theorem spawn {x : TaskFrame} (hmore : more = [x]) (hf : f.state = .ready) (hf' : f'.state = .ready)
    (hx : x.state = .ready) :
    Engine.Brings (Engine.record
      ((Event.new m.tasks.length .threadStart .thread).set Event.startedByName (.task t))) g
      fun _ g' => Reaches g T' m' g' ∧
        Enlists g l [(Event.new m.tasks.length .threadStart .thread).set Event.startedByName
          (.task t)] g' := by
  subst hmore
  obtain ⟨n, hn, hn0, hentry⟩ :=
    h.entry hl hturn.self (by simp [hf]) (fun lock hw => absurd hw (hwants lock)) (by omega)
  have hlt := hturn.lt
  have hnone : m.tasks[m.tasks.length]? = none := List.getElem?_eq_none (Nat.le_refl _)
  generalize hlen : m.tasks.length = u at hnone hlt
  -- a task that is not there yet has no events
  have hzero : g.Fills u 0 := by
    obtain ⟨k, hk, -⟩ := hl.tasks u
    have hstage := h.stage u
    rw [hnone] at hstage
    have hbegun := (hk 0).not.mp fun hmem => by simpa using hstage.begun.mp hmem
    obtain rfl : k = 0 := by omega
    exact hk
  have hstarted :
      ((Event.new u .threadStart .thread).set Event.startedByName (.task t)).startedBy? =
        some (t : Int) := by
    rw [Event.startedBy?, Attributes.task?, Event.set, Dictionary.get?_set_self]
  have hfree := h.waits.not_blocked hturn.self fun lock hw => absurd hw (hwants lock)
  have he :
      Entry g l ((Event.new u .threadStart .thread).set Event.startedByName (.task t)) u 0 := by
    refine ⟨hl, rfl, hzero, h.waits.not_blocked_of_none hnone,
      ?_, by simp [Event.new, Event.set], by omega⟩
    obtain ⟨e, he⟩ := hl.event? hl.init_mem
    rw [show Key.prior u 0 = .init from rfl, kindOf?_of_event? he, hl.initial he]
    decide
  obtain ⟨g', hok, henters, hpaired, ha⟩ := he.start h.paired rfl hstarted (by omega) hn hn0 hfree
  have hgains := henters.logs.gains
  refine (Engine.recordMarker_brings_start he rfl (by omega) hok).mono fun _ g'' heq => ?_
  subst heq
  have hbound : Bound g ((Event.new u .threadStart .thread).set Event.startedByName (.task t))
      fun r a => r = .threadCreation ∧ a = g.lastStart ∨ r = .threadStart ∧ a = .prior t n := by
    refine ⟨fun _ => Or.inl ⟨rfl, rfl⟩, fun _ w hw => ⟨n, ?_, Or.inr ⟨rfl, ?_⟩⟩,
      fun hkind => by cases hkind⟩
    all_goals
      obtain rfl : t = w := by exact_mod_cast Option.some.inj (hstarted.symm.trans hw)
    · exact hn
    · rfl
  refine ⟨⟨⟨⟨_, henters.recorded⟩, hpaired, fun w => ?_, ?_, hsites, fun {loc} hloc => ?_⟩,
    hgains.length.trans_le (by omega)⟩, .one rfl hzero henters hbound⟩
  -- only the spawner and the new task stand elsewhere than before
  · have htasks : m'.tasks[w]? =
        if w = u then some x else if w = t then some f' else m.tasks[w]? := by
      rw [hturn.tasks, List.getElem?_append, List.length_set, hlen, List.getElem?_set]
      by_cases hw : w = u
      · subst hw
        simp
      · rw [if_neg hw]
        by_cases hwu : w < u
        · rw [if_pos hwu]
          by_cases hwt : w = t
          · subst hwt
            simp [hlen, hwu]
          · rw [if_neg (Ne.symm hwt), if_neg hwt]
        · rw [if_neg hwu, if_neg (by omega),
            List.getElem?_eq_none (by rw [List.length_singleton]; omega),
            List.getElem?_eq_none (by omega)]
    rw [htasks]
    split
    · rename_i hw
      subst hw
      exact hgains.stage hzero (by simp [hx, Event.new, Event.set]) (by simp [hx])
    · rename_i hwu
      have hstage := (h.stage w).gains_other hl.toShaped hgains hwu
      split
      · rename_i hwt
        subst hwt
        rw [hturn.self] at hstage
        exact hstage.move (by simp [hf, hf']) (by simp [hf'])
      · exact hstage
  · refine h.waits.plain hturn ha (fun lock => hφ _) (fun {lock loc} hlock => ?_) hholders
      (fun lock hw => absurd hw (hwants lock)) (by simp [hf']) fun y hy => by
        rw [List.mem_singleton.mp hy, hx]
    exact hgains.held_of_ne hl (ne_thread_of_range h.sites hlock) fun hw => by cases hw
  · rw [hgains.last (ne_thread_of_lt hsites hloc), if_neg]
    · exact h.untouched (hlast ▸ hloc)
    · rintro ⟨hw, -⟩
      cases hw

end Threads

end Tracks

end Graph

end Interleaving
