import Interleaving.Proofs.Graph.Entry
import Interleaving.Proofs.Machine.Step

/-!
# What a graph shows of a machine

The graph of a run shows how far every task has come (`Interleaving.Graph.Stage`): the task has
begun when it has an event, it has ended when its last event says so, and when it is parked its last
event is an assumption that does not hold. It also shows which locks are taken and who waits for
them (`Interleaving.Graph.Waits`).

An observation adds the events of one step of one task at its end (`Interleaving.Graph.Gains`), or
it only puts and takes off labels.
-/

namespace Interleaving

open Machine

/-- A task waits for a lock, or it will attempt the lock in its next step, or it has failed. -/
def Machine.TaskFrame.Wants (f : TaskFrame) (lock : String) : Prop :=
  f.state = .waiting lock ∨ f.state = .failed ∨
    f.state = .ready ∧ ∀ position, f.assertions = .passed position →
      f.code[position]? = some (.lock lock)

/-- One task has changed, and others may have been added. -/
structure Machine.Turn (m m' : Machine) (t : Nat) (f f' : TaskFrame)
    (extra : List TaskFrame) : Prop where
  self : m.tasks[t]? = some f
  tasks : m'.tasks = m.tasks.set t f' ++ extra

namespace Machine.Turn

variable {m m' : Machine} {t u : Nat} {f f' x : TaskFrame} {extra : List TaskFrame}
  (h : m.Turn m' t f f' extra)
include h

theorem lt : t < m.tasks.length := (List.getElem?_eq_some_iff.mp h.self).1

theorem after : m'.tasks[t]? = some f' := by
  rw [h.tasks, List.getElem?_append_left (by rw [List.length_set]; exact h.lt), List.getElem?_set,
    if_pos rfl, if_pos h.lt]

theorem other (hu : u ≠ t) (hlt : u < m.tasks.length) : m'.tasks[u]? = m.tasks[u]? := by
  rw [h.tasks, List.getElem?_append_left (by rw [List.length_set]; exact hlt), List.getElem?_set,
    if_neg (Ne.symm hu)]

theorem old (hu : u ≠ t) (hx : m.tasks[u]? = some x) : m'.tasks[u]? = some x :=
  (h.other hu (List.getElem?_eq_some_iff.mp hx).1).trans hx

theorem cases (hx : m'.tasks[u]? = some x) :
    u ≠ t ∧ m.tasks[u]? = some x ∨ u = t ∧ x = f' ∨ x ∈ extra := by
  rw [h.tasks, List.getElem?_append] at hx
  split at hx
  · rw [List.getElem?_set] at hx
    split at hx
    · rename_i heq
      subst heq
      rw [if_pos h.lt, Option.some_inj] at hx
      exact Or.inr (Or.inl ⟨rfl, hx.symm⟩)
    · rename_i hne
      exact Or.inl ⟨Ne.symm hne, hx⟩
  · exact Or.inr (Or.inr (List.mem_of_getElem? hx))

end Machine.Turn

namespace Graph

variable {g g' g'' : Graph} {e e' : Event} {t u n n' : Nat} {k : Key} {l : List Key}
  {loc : Location} {extra extra' : Relation → Key → Prop} {o : Option TaskFrame} {f f' : TaskFrame}

/-! ### The events of a step -/

/-- A task has got the events of a step, of which only the last one may write. -/
structure Gains (g g' : Graph) (t n n' : Nat) (e : Event) : Prop where
  lt : n < n'
  mem : ∀ {k}, k ∈ g'.order ↔ k ∈ g.order ∨ ∃ i, n ≤ i ∧ i < n' ∧ k = .place t i
  length : g'.order.length = g.order.length + (n' - n)
  face : ∀ k ∈ g.order, g'.face k = g.face k
  self : g'.face (.prior t n') = some (faceOf e)
  last : ∀ {loc}, loc ≠ .thread →
    g'.lastWrite loc = if e.kind.isWrite = true ∧ loc = e.location then .prior t n'
      else g.lastWrite loc

theorem Logs.gains (h : Logs g g' e t n extra) : Gains g g' t n (n + 1) e where
  lt := Nat.lt_succ_self n
  mem := by
    intro k
    rw [h.order, List.mem_append, List.mem_singleton]
    refine or_congr_right ⟨fun hk => ⟨n, Nat.le_refl n, Nat.lt_succ_self n, hk⟩, ?_⟩
    rintro ⟨i, hle, hlt, rfl⟩
    rw [Nat.le_antisymm (Nat.lt_succ_iff.mp hlt) hle]
  length := by
    rw [h.order, List.length_append, List.length_singleton]
    omega
  face := h.face
  self := h.self
  last := h.last

/-- **A step of two events.** -/
theorem Logs.gains_pair (h : Logs g g' e t n extra) (h' : Logs g' g'' e' t (n + 1) extra')
    (hread : e.kind.isWrite = false) : Gains g g'' t n (n + 2) e' where
  lt := by omega
  mem := by
    intro k
    rw [h'.order, h.order, List.append_assoc, List.mem_append]
    simp only [List.singleton_append, List.mem_cons, List.not_mem_nil, or_false]
    refine or_congr_right ⟨?_, ?_⟩
    · rintro (hk | hk)
      · exact ⟨n, Nat.le_refl n, by omega, hk⟩
      · exact ⟨n + 1, by omega, by omega, hk⟩
    · rintro ⟨i, hle, hlt, rfl⟩
      obtain rfl | rfl : i = n ∨ i = n + 1 := by omega
      · exact Or.inl rfl
      · exact Or.inr rfl
  length := by
    rw [h'.order, h.order, List.length_append, List.length_append, List.length_singleton,
      List.length_singleton]
    omega
  face := fun k hk => (h'.face k (h.order ▸ List.mem_append_left _ hk)).trans (h.face k hk)
  self := h'.self
  last := by
    intro loc hloc
    rw [h'.last hloc, h.last hloc,
      if_neg (by simp [hread] : ¬(e.kind.isWrite = true ∧ loc = e.location))]
    rfl

namespace Gains

variable (h : Gains g g' t n n' e)
include h

theorem fills (hn : g.Fills t n) : g'.Fills t n' := by
  intro i
  rw [h.mem, hn]
  have hlt := h.lt
  constructor
  · rintro (hi | ⟨j, -, hj, heq⟩)
    · omega
    · rw [Key.place_inj] at heq
      omega
  · intro hi
    by_cases hin : i < n
    · exact Or.inl hin
    · exact Or.inr ⟨i, by omega, hi, rfl⟩

theorem mem_other (hu : u ≠ t) {i : Nat} : .place u i ∈ g'.order ↔ .place u i ∈ g.order := by
  rw [h.mem]
  refine or_iff_left ?_
  rintro ⟨j, -, -, heq⟩
  rw [Key.place_inj] at heq
  exact hu heq.1

theorem fills_other (hu : u ≠ t) (m : Nat) : g'.Fills u m ↔ g.Fills u m :=
  forall_congr' fun _ => by rw [h.mem_other hu]

theorem kindOf?_eq (hk : k ∈ g.order) : g'.kindOf? k = g.kindOf? k := by
  rw [kindOf?_eq_face, kindOf?_eq_face, h.face k hk]

theorem kindOf?_self : g'.kindOf? (.prior t n') = some e.kind := by
  rw [kindOf?_eq_face, h.self]
  rfl

/-- Whether a lock is held afterwards. -/
theorem held_iff (hr : g.Recorded l) (hloc : loc ≠ .thread) :
    g'.Held loc ↔
    if e.kind.isWrite = true ∧ loc = e.location then e.kind =
      .lockAcquireWrite else g.Held loc := by
  unfold Held
  rw [h.last hloc]
  split
  · rw [h.kindOf?_self, Option.some_inj]
  · rw [h.kindOf?_eq (Entry.lastWrite_cases hr hloc).1]

/-- Only the location of the event may change hands. -/
theorem held_of_ne (hr : g.Recorded l) (hloc : loc ≠ .thread)
    (hne : e.kind.isWrite = true → loc ≠ e.location) : g'.Held loc ↔ g.Held loc := by
  rw [h.held_iff hr hloc, if_neg fun heq => hne heq.1 heq.2]

end Gains

/-- In graphs that resemble each other the same locks are held. -/
theorem Resembles.held_iff (h : Resembles g g') (hr : g.Recorded l) (hloc : loc ≠ .thread) :
    g'.Held loc ↔ g.Held loc := by
  unfold Held
  rw [show g'.lastWrite loc = g.lastWrite loc by rw [lastWrite, lastWrite, h.chain],
    h.kindOf?_eq (Entry.lastWrite_cases hr hloc).1]

/-! ### How far the tasks have come -/

/-- **What a graph shows of a task**, or of a task that there is not. -/
structure Stage (g : Graph) (t : Nat) (o : Option TaskFrame) : Prop where
  begun : .place t 0 ∈ g.order ↔ o.isSome = true
  ended : ∀ {n f}, o = some f → g.Fills t n →
    (f.state = .finished ↔ g.kindOf? (.prior t n) = some .threadFinish)
  parked : ∀ {n f}, o = some f → g.Fills t n → f.state = .parked →
    ∃ x, g.face (.prior t n) = some x ∧ x.kind = .assume ∧ x.holds = false

namespace Stage

/-- Other events do not matter. -/
theorem congr (h : Stage g t o) (hs : g.Shaped) (hfills : ∀ n, g'.Fills t n ↔ g.Fills t n)
    (hface : ∀ k ∈ g.order, g'.face k = g.face k) : Stage g' t o where
  begun := by
    obtain ⟨n, hn, -⟩ := hs.tasks t
    rw [← h.begun, (hfills n).mpr hn, hn]
  ended := by
    intro n f hf hn
    have hn := (hfills n).mp hn
    rw [h.ended hf hn, kindOf?_eq_face, kindOf?_eq_face, hface _ (hs.prior_mem hn)]
  parked := by
    intro n f hf hn hs'
    have hn := (hfills n).mp hn
    rw [hface _ (hs.prior_mem hn)]
    exact h.parked hf hn hs'

theorem resembles (h : Stage g t o) (hs : g.Shaped) (hr : Resembles g g') : Stage g' t o :=
  h.congr hs (fun n => by rw [Fills, Fills, hr.order]) hr.face

theorem gains_other (h : Stage g u o) (hs : g.Shaped) (hg : Gains g g' t n n' e) (hu : u ≠ t) :
    Stage g' u o :=
  h.congr hs (hg.fills_other hu) hg.face

/-- A task that stands elsewhere and has not come to an end. -/
theorem move (h : Stage g t (some f)) (hended : f'.state = .finished ↔ f.state = .finished)
    (hparked : f'.state = .parked → f.state = .parked) : Stage g t (some f') where
  begun := h.begun
  ended := by
    intro n x hx hn
    cases hx
    rw [hended]
    exact h.ended rfl hn
  parked := by
    intro n x hx hn hs
    cases hx
    exact h.parked rfl hn (hparked hs)

end Stage

/-- A task after the events of its step. -/
theorem Gains.stage (h : Gains g g' t n n' e) (hn : g.Fills t n)
    (hended : f'.state = .finished ↔ e.kind = .threadFinish)
    (hparked : f'.state = .parked → e.kind = .assume ∧ e.holds = false) : Stage g' t (some f') where
  begun := by
    have hlt := h.lt
    exact iff_of_true ((h.fills hn 0).mpr (by omega)) rfl
  ended := by
    intro m x hx hm
    cases hx
    rw [hm.unique (h.fills hn), h.kindOf?_self, Option.some_inj]
    exact hended
  parked := by
    intro m x hx hm hs
    cases hx
    rw [hm.unique (h.fills hn)]
    exact ⟨_, h.self, hparked hs⟩

/-! ### Locks -/

/-- **What a graph shows of locks**: where `φ` keeps a lock, the last write tells whether it is
taken, the tasks that want it are listed, and only such tasks are blocked while it is taken. -/
structure Waits (φ : Place → Option Location) (g : Graph) (m : Machine) : Prop where
  blocked : ∀ u : Nat, g.isBlocked u = true → ∃ loc, (u : Int) ∈ g.waitingFor loc ∧ g.Held loc
  wants : ∀ {loc} {task : Int}, task ∈ g.waitingFor loc →
    ∃ (u : Nat) (f : TaskFrame) (lock : String), task = u ∧ m.tasks[u]? = some f ∧
      φ (.lock lock) = some loc ∧ f.Wants lock
  listed : ∀ {u : Nat} {f : TaskFrame} {lock : String}, m.tasks[u]? = some f →
    f.state = .waiting lock →
    ∃ loc, φ (.lock lock) = some loc ∧ (u : Int) ∈ g.waitingFor loc
  known : ∀ {lock}, m.holders.has lock = true → ∃ loc, φ (.lock lock) = some loc
  held : ∀ {lock loc}, φ (.lock lock) = some loc → (g.Held loc ↔ m.holders.has lock = true)

namespace Waits

variable {φ φ' : Place → Option Location} {m m' : Machine} {lock : String} {more : List TaskFrame}

/-- Waiting tasks are numbered from zero. -/
theorem nonneg (h : Waits φ g m) {task : Int} (htask : task ∈ g.waitingFor loc) : 0 ≤ task := by
  obtain ⟨u, f, lock, rfl, -⟩ := h.wants htask
  exact Int.natCast_nonneg u

/-- **A task that wants no lock that is taken is not blocked.** -/
theorem not_blocked (h : Waits φ g m)
    (ht : m.tasks[t]? = some f) (hnot : ∀ lock, f.Wants lock → m.holders.has lock = false) :
    g.isBlocked t = false := by
  refine Bool.eq_false_iff.mpr fun hblocked => ?_
  obtain ⟨loc, hmem, hheld⟩ := h.blocked t hblocked
  obtain ⟨u, x, lock, heq, hx, hlock, hwants⟩ := h.wants hmem
  obtain rfl : t = u := by exact_mod_cast heq
  rw [ht, Option.some_inj] at hx
  have hhas := (h.held hlock).mp hheld
  rw [hnot lock (hx ▸ hwants)] at hhas
  cases hhas

/-- A task that there is not is not blocked. -/
theorem not_blocked_of_none (h : Waits φ g m) (ht : m.tasks[t]? = none) :
    g.isBlocked t = false := by
  refine Bool.eq_false_iff.mpr fun hblocked => ?_
  obtain ⟨loc, hmem, -⟩ := h.blocked t hblocked
  obtain ⟨u, x, lock, heq, hx, -⟩ := h.wants hmem
  obtain rfl : t = u := by exact_mod_cast heq
  rw [ht] at hx
  cases hx

/-- **A step that has nothing to do with locks.** -/
theorem plain (h : Waits φ g m) (hturn : m.Turn m' t f f' more) (ha : Awaits g g')
    (hφ : ∀ lock, φ' (.lock lock) = φ (.lock lock))
    (hheld : ∀ {lock loc}, φ (.lock lock) = some loc → (g'.Held loc ↔ g.Held loc))
    (hholders : m'.holders = m.holders) (hwants : ∀ lock, f.Wants lock → f'.Wants lock)
    (hstate : ∀ lock, f'.state ≠ .waiting lock)
    (hmore : ∀ x ∈ more, x.state = .ready) : Waits φ' g' m' where
  blocked := by
    intro u hu
    rw [ha.blocked] at hu
    obtain ⟨loc, hmem, hl⟩ := h.blocked u hu
    obtain ⟨-, -, lock, -, -, hlock, -⟩ := h.wants hmem
    exact ⟨loc, by rw [ha.waiting]; exact hmem, (hheld hlock).mpr hl⟩
  wants := by
    intro loc task htask
    rw [ha.waiting] at htask
    obtain ⟨u, x, lock, rfl, hx, hlock, hw⟩ := h.wants htask
    by_cases hu : u = t
    · subst hu
      rw [hturn.self, Option.some_inj] at hx
      exact ⟨u, f', lock, rfl, hturn.after, (hφ lock).trans hlock, hwants lock (hx ▸ hw)⟩
    · exact ⟨u, x, lock, rfl, hturn.old hu hx, (hφ lock).trans hlock, hw⟩
  listed := by
    intro u x lock hx hs
    rcases hturn.cases hx with ⟨-, hx⟩ | ⟨-, rfl⟩ | hx
    · obtain ⟨loc, hlock, hmem⟩ := h.listed hx hs
      exact ⟨loc, (hφ lock).trans hlock, by rw [ha.waiting]; exact hmem⟩
    · exact absurd hs (hstate lock)
    · rw [hmore x hx] at hs
      cases hs
  known := by
    intro lock hhas
    rw [hholders] at hhas
    rw [hφ]
    exact h.known hhas
  held := by
    intro lock loc hlock
    rw [hφ] at hlock
    rw [hheld hlock, hholders]
    exact h.held hlock

/-- **A task finds a lock taken** and waits for it. -/
theorem blocks (h : Waits φ g m)
    (hturn : m.Turn m' t f f' []) (hφ : ∀ lock, φ' (.lock lock) = φ (.lock lock))
    (hlock : φ (.lock lock) = some loc) (htaken : m.holders.has lock = true)
    (hheld : ∀ {lock loc}, φ (.lock lock) = some loc → (g'.Held loc ↔ g.Held loc))
    (hblocked : ∀ u : Nat, g'.isBlocked u = true ↔ g.isBlocked u = true ∨ u = t)
    (hwaiting : ∀ loc', ∀ task : Int, task ∈ g'.waitingFor loc' ↔
      task ∈ g.waitingFor loc' ∨ loc' = loc ∧ task = t)
    (hholders : m'.holders = m.holders) (hstate : f'.state = .waiting lock)
    (hwants : ∀ lock', f.Wants lock' → lock' = lock) : Waits φ' g' m' where
  blocked := by
    intro u hu
    rcases (hblocked u).mp hu with hu | rfl
    · obtain ⟨loc', hmem, hl⟩ := h.blocked u hu
      obtain ⟨-, -, lock', -, -, hlock', -⟩ := h.wants hmem
      exact ⟨loc', (hwaiting ..).mpr (Or.inl hmem), (hheld hlock').mpr hl⟩
    · exact ⟨loc, (hwaiting ..).mpr (Or.inr ⟨rfl, rfl⟩),
        (hheld hlock).mpr ((h.held hlock).mpr htaken)⟩
  wants := by
    intro loc' task htask
    rcases (hwaiting ..).mp htask with htask | ⟨rfl, rfl⟩
    · obtain ⟨u, x, lock', rfl, hx, hlock', hw⟩ := h.wants htask
      by_cases hu : u = t
      · subst hu
        rw [hturn.self, Option.some_inj] at hx
        obtain rfl := hwants lock' (hx ▸ hw)
        exact ⟨u, f', lock', rfl, hturn.after, (hφ lock').trans hlock', Or.inl hstate⟩
      · exact ⟨u, x, lock', rfl, hturn.old hu hx, (hφ lock').trans hlock', hw⟩
    · exact ⟨t, f', lock, rfl, hturn.after, (hφ lock).trans hlock, Or.inl hstate⟩
  listed := by
    intro u x lock' hx hs
    rcases hturn.cases hx with ⟨-, hx⟩ | ⟨rfl, rfl⟩ | hx
    · obtain ⟨loc', hlock', hmem⟩ := h.listed hx hs
      exact ⟨loc', (hφ lock').trans hlock', (hwaiting ..).mpr (Or.inl hmem)⟩
    · rw [hstate] at hs
      cases hs
      exact ⟨loc, (hφ lock).trans hlock, (hwaiting ..).mpr (Or.inr ⟨rfl, rfl⟩)⟩
    · cases hx
  known := by
    intro lock' hhas
    rw [hholders] at hhas
    rw [hφ]
    exact h.known hhas
  held := by
    intro lock' loc' hlock'
    rw [hφ] at hlock'
    rw [hheld hlock', hholders]
    exact h.held hlock'

/-- **A task takes a lock**, and all others that want it are blocked. -/
theorem acquires (h : Waits φ g m)
    (hturn : m.Turn m' t f f' []) (hfree : m.holders.has lock = false)
    (hself : φ' (.lock lock) = some loc) (hother : ∀ lock', lock' ≠ lock →
      φ' (.lock lock') = φ (.lock lock'))
    (hold : ∀ {loc'}, φ (.lock lock) = some loc' → loc' = loc)
    (hinj : ∀ {lock' loc'}, φ' (.lock lock') = some loc' → loc' = loc → lock' = lock)
    (hheld : g'.Held loc)
    (hheld' : ∀ {lock' loc'}, φ (.lock lock') = some loc' → loc' ≠ loc →
      (g'.Held loc' ↔ g.Held loc'))
    (hblocked : ∀ u : Nat, g'.isBlocked u = true ↔
      g.isBlocked u = true ∨ (u : Int) ∈ g.waitingFor loc ∧ u ≠ t)
    (hwaiting : ∀ loc', ∀ task : Int, task ∈ g'.waitingFor loc' ↔
      task ∈ g.waitingFor loc' ∧ ¬(loc' = loc ∧ task = t))
    {id : Int} (hholders : m'.holders = m.holders.set lock id) (hstate : f'.state = .ready)
    (hwants : ∀ lock', f.Wants lock' → lock' = lock) : Waits φ' g' m' where
  blocked := by
    intro u hu
    rcases (hblocked u).mp hu with hu | ⟨hmem, hne⟩
    -- the task was not blocked, as the lock it wants was free
    · have hut : u ≠ t := by
        rintro rfl
        rw [h.not_blocked hturn.self fun lock' hw => by rw [hwants lock' hw, hfree]] at hu
        cases hu
      obtain ⟨loc', hmem, hl⟩ := h.blocked u hu
      obtain ⟨-, -, lock', -, -, hlock', -⟩ := h.wants hmem
      refine ⟨loc', (hwaiting ..).mpr ⟨hmem, fun heq => hut (by exact_mod_cast heq.2)⟩, ?_⟩
      by_cases hloc : loc' = loc
      · exact hloc ▸ hheld
      · exact (hheld' hlock' hloc).mpr hl
    · exact ⟨loc, (hwaiting ..).mpr ⟨hmem, fun heq => hne (by exact_mod_cast heq.2)⟩, hheld⟩
  wants := by
    intro loc' task htask
    obtain ⟨htask, hnot⟩ := (hwaiting ..).mp htask
    obtain ⟨u, x, lock', rfl, hx, hlock', hw⟩ := h.wants htask
    have hφ' : φ' (.lock lock') = some loc' := by
      by_cases heq : lock' = lock
      · subst heq
        rw [hself, hold hlock']
      · rw [hother lock' heq, hlock']
    -- and it has left the list of those that wait
    have hut : u ≠ t := by
      rintro rfl
      rw [hturn.self, Option.some_inj] at hx
      obtain rfl := hwants lock' (hx ▸ hw)
      exact hnot ⟨hold hlock', rfl⟩
    exact ⟨u, x, lock', rfl, hturn.old hut hx, hφ', hw⟩
  listed := by
    intro u x lock' hx hs
    rcases hturn.cases hx with ⟨hut, hx⟩ | ⟨-, rfl⟩ | hx
    · obtain ⟨loc', hlock', hmem⟩ := h.listed hx hs
      refine ⟨loc', ?_, (hwaiting ..).mpr ⟨hmem, fun heq => hut (by exact_mod_cast heq.2)⟩⟩
      by_cases heq : lock' = lock
      · subst heq
        rw [hself, hold hlock']
      · rw [hother lock' heq, hlock']
    · rw [hstate] at hs
      cases hs
    · cases hx
  known := by
    intro lock' hhas
    by_cases heq : lock' = lock
    · exact ⟨loc, heq ▸ hself⟩
    · rw [hother lock' heq]
      rw [hholders, Dictionary.has, Dictionary.get?_set_of_ne _ heq] at hhas
      exact h.known hhas
  held := by
    intro lock' loc' hlock'
    rw [hholders]
    by_cases heq : lock' = lock
    · subst heq
      rw [hself, Option.some_inj] at hlock'
      subst hlock'
      refine iff_of_true hheld ?_
      rw [Dictionary.has, Dictionary.get?_set_self]
      rfl
    · have hne : loc' ≠ loc := fun hloc => heq (hinj hlock' hloc)
      rw [hother lock' heq] at hlock'
      rw [hheld' hlock' hne, h.held hlock', Dictionary.has, Dictionary.has,
        Dictionary.get?_set_of_ne _ heq]

/-- **A task gives a lock back**, and those that want it go on. -/
theorem releases (h : Waits φ g m)
    (hturn : m.Turn m' t f f' []) (hφ : ∀ lock', φ' (.lock lock') = φ (.lock lock'))
    (hlock : φ (.lock lock) = some loc) (hinj : ∀ {lock'}, φ (.lock lock') = some loc →
      lock' = lock)
    (hheld : ¬g'.Held loc)
    (hheld' : ∀ {lock' loc'}, φ (.lock lock') = some loc' → loc' ≠ loc →
      (g'.Held loc' ↔ g.Held loc'))
    (hblocked : ∀ u : Nat, g'.isBlocked u = true ↔
      g.isBlocked u = true ∧ (u : Int) ∉ g.waitingFor loc)
    (hwaiting : ∀ loc', g'.waitingFor loc' = g.waitingFor loc')
    (hholders : m'.holders = m.holders.erase lock) (hstate : f'.state = .ready)
    (hwants : ∀ lock', ¬f.Wants lock') : Waits φ' g' m' where
  blocked := by
    intro u hu
    obtain ⟨hu, hnot⟩ := (hblocked u).mp hu
    obtain ⟨loc', hmem, hl⟩ := h.blocked u hu
    obtain ⟨-, -, lock', -, -, hlock', -⟩ := h.wants hmem
    -- who is blocked still waits for another lock
    have hne : loc' ≠ loc := by
      rintro rfl
      exact hnot hmem
    exact ⟨loc', by rw [hwaiting]; exact hmem, (hheld' hlock' hne).mpr hl⟩
  wants := by
    intro loc' task htask
    rw [hwaiting] at htask
    obtain ⟨u, x, lock', rfl, hx, hlock', hw⟩ := h.wants htask
    have hut : u ≠ t := by
      rintro rfl
      rw [hturn.self, Option.some_inj] at hx
      exact hwants lock' (hx ▸ hw)
    exact ⟨u, x, lock', rfl, hturn.old hut hx, (hφ lock').trans hlock', hw⟩
  listed := by
    intro u x lock' hx hs
    rcases hturn.cases hx with ⟨-, hx⟩ | ⟨-, rfl⟩ | hx
    · obtain ⟨loc', hlock', hmem⟩ := h.listed hx hs
      exact ⟨loc', (hφ lock').trans hlock', by rw [hwaiting]; exact hmem⟩
    · rw [hstate] at hs
      cases hs
    · cases hx
  known := by
    intro lock' hhas
    rw [hφ]
    by_cases heq : lock' = lock
    · exact ⟨loc, heq ▸ hlock⟩
    · rw [hholders, Dictionary.has, Dictionary.get?_erase_of_ne _ heq] at hhas
      exact h.known hhas
  held := by
    intro lock' loc' hlock'
    rw [hφ] at hlock'
    rw [hholders]
    by_cases heq : lock' = lock
    · subst heq
      rw [hlock, Option.some_inj] at hlock'
      subst hlock'
      refine iff_of_false hheld ?_
      rw [Dictionary.has, Dictionary.get?_erase_self]
      simp
    · have hne : loc' ≠ loc := by
        rintro rfl
        exact heq (hinj hlock')
      rw [hheld' hlock' hne, h.held hlock', Dictionary.has, Dictionary.has,
        Dictionary.get?_erase_of_ne _ heq]

end Waits

end Graph

end Interleaving
