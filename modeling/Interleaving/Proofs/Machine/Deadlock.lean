import Interleaving.Proofs.Machine.Step

/-!
# Deadlocks need locks

A task that waits for another one waits for one that was spawned later, so waiting for tasks alone
is never circular: **a program without locks and assumptions comes to a standstill only after an
error has shown** (`Interleaving.Program.shows_of_deadlock`).
-/

namespace Interleaving

/-- The kind of the operation that does an instruction. -/
def Instruction.kind : Instruction → OperationKind
  | .read _ _ => .read
  | .write _ _ => .write
  | .fetchAdd _ _ _ => .fetchAdd
  | .lock _ => .lock
  | .unlock _ => .unlock
  | .spawn _ => .spawn
  | .join _ => .join
  | .assert _ _ => .assert
  | .assume _ => .assume

/-- An operation does an instruction of its own kind. -/
theorem Operation.kind_of_instruction? {op : Operation} {i : Instruction}
    (h : op.instruction? = some i) : op.kind = i.kind := by
  unfold Operation.instruction? at h
  split at h
  all_goals
    first
      | cases h; assumption
      | obtain ⟨_, -, rfl⟩ := Option.map_eq_some_iff.mp h; assumption
      | cases h

/-- The code of a program has only instructions of the kinds that it uses. -/
theorem Program.kind_mem_of_usesOnly {p : Program} {kinds : List OperationKind}
    (h : p.usesOnly kinds = true) {thread : String} {i : Instruction}
    (hi : i ∈ Machine.codeOf ((p.threads.get? thread).getD [])) : i.kind ∈ kinds := by
  obtain ⟨op, hop, hinstr⟩ := List.mem_filterMap.mp hi
  cases hget : p.threads.get? thread with
  | none =>
    rw [hget] at hop
    cases hop
  | some ops =>
    rw [hget] at hop
    have hmem : (thread, ops) ∈ p.threads.entries := by
      obtain ⟨before, after, heq, -⟩ := List.lookup_eq_some_iff.mp hget
      rw [heq]
      exact List.mem_append_right before List.mem_cons_self
    have hall := List.all_eq_true.mp h _ hmem
    have hkind := List.all_eq_true.mp hall op hop
    rw [← Operation.kind_of_instruction? hinstr]
    exact List.contains_iff_mem.mp hkind

namespace Machine

variable {m m' : Machine} {id : Int} {seen : List Observation}

/-- A program without locks and assumptions. -/
def lockFreeKinds : List OperationKind := [.read, .write, .fetchAdd, .spawn, .join, .assert]

/-- Where the tasks of a program without locks and assumptions can be, before an error has shown. -/
def Unimpeded (m : Machine) : Prop :=
  ∀ t ∈ m.tasks, t.state = .ready ∨ (∃ target, t.state = .joining target) ∨ t.state = .finished

/-- The instruction that a task stands at is one of its thread. -/
theorem StandsAt.kind_mem {p : Program} {kinds : List OperationKind} {t : TaskFrame}
    {position : Nat} {i : Instruction} (h : m.StandsAt id t position (some i)) (hr : m.Runs p)
    (hp : p.usesOnly kinds = true) : i.kind ∈ kinds := by
  have ht : t ∈ m.tasks := List.mem_of_getElem? (task?_eq_some.mp h.task).2
  have hi : i ∈ t.code := List.mem_of_getElem? h.instruction
  rw [hr.code t ht] at hi
  exact Program.kind_mem_of_usesOnly hp hi

/-- Tasks stay unimpeded through a step that shows no error. -/
theorem Unimpeded.takes {p : Program} (hu : m.Unimpeded) (hr : m.Runs p)
    (hp : p.usesOnly lockFreeKinds = true) (h : Takes m id seen m')
    (hseen : ∀ o ∈ seen, o.kind ≠ .assertFailure) : m'.Unimpeded := by
  have hset : ∀ {m₁ : Machine} {t' : TaskFrame}, m₁.tasks = (m.setTask id t').tasks →
      (t'.state = .ready ∨ (∃ target, t'.state = .joining target) ∨ t'.state = .finished) →
      m₁.Unimpeded := by
    intro m₁ t' htasks hstate u hmem
    rw [htasks] at hmem
    rcases List.mem_or_eq_of_mem_set hmem with hmem | rfl
    · exact hu u hmem
    · exact hstate
  cases h with
  | @acquired t lock _ ht hs hfree hm =>
    have := hu t (List.mem_of_getElem? (task?_eq_some.mp ht).2)
    simp [hs] at this
  | joined ht hs ho hf => exact hset rfl (Or.inl rfl)
  | refuted ht hs ha => exact absurd rfl (hseen _ List.mem_cons_self)
  | finished h => exact hset rfl (Or.inr (Or.inr rfl))
  | read h hm =>
    subst hm
    exact hset (touch_tasks _ _) (Or.inl h.ready)
  | write h hv hm =>
    subst hm
    exact hset (touch_tasks _ _) (Or.inl h.ready)
  | fetchAdd h hv hold hsum hm =>
    subst hm
    exact hset (touch_tasks _ _) (Or.inl h.ready)
  | lockTaken h htaken hm =>
    exact absurd (h.kind_mem hr hp) (by simp [Instruction.kind, lockFreeKinds])
  | lockFree h hfree hm =>
    exact absurd (h.kind_mem hr hp) (by simp [Instruction.kind, lockFreeKinds])
  | unlock h hheld hm => exact absurd (h.kind_mem hr hp) (by simp [Instruction.kind, lockFreeKinds])
  | unlockRefused h hheld => exact absurd rfl (hseen _ List.mem_cons_self)
  | @spawn t position thread h =>
    have hold : (m.setTask id { t with
        position := position + 1
        children := t.children.set thread (m.tasks.length + 1) }).Unimpeded :=
      hset rfl (Or.inl h.ready)
    intro u hmem
    rcases List.mem_append.mp hmem with hmem | hmem
    · exact hold u hmem
    · rw [List.mem_singleton.mp hmem]
      exact Or.inl rfl
  | joins h hchild => exact hset rfl (Or.inr (Or.inl ⟨_, rfl⟩))
  | joinRefused h hchild => exact absurd rfl (hseen _ List.mem_cons_self)
  | assume h hv => exact absurd (h.kind_mem hr hp) (by simp [Instruction.kind, lockFreeKinds])

/-- Tasks stay unimpeded along a schedule that shows no error. -/
theorem Unimpeded.follow? {p : Program} (hu : m.Unimpeded) (hr : m.Runs p)
    (hp : p.usesOnly lockFreeKinds = true) {ids : List Int}
    (hf : m.follow? ids = some (seen, m')) (hseen : ∀ o ∈ seen, o.kind ≠ .assertFailure) :
    m'.Unimpeded := by
  induction ids generalizing m seen with
  | nil =>
    cases hf
    exact hu
  | cons id ids ih =>
    obtain ⟨first, rest, m₁, hstep, hrest, rfl⟩ := follow?_cons_eq_some hf
    have htakes := takes_of_step hstep
    refine ih (hu.takes hr hp htakes fun o ho => hseen o (List.mem_append_left _ ho))
      (hr.takes htakes) hrest fun o ho => hseen o (List.mem_append_right _ ho)

/-- Of the tasks from one on, one can take a step or all have finished. -/
theorem Unimpeded.active_or_finished {p : Program} (hu : m.Unimpeded) (hr : m.Runs p) (d n : Nat)
    (hn : n + d = m.tasks.length) :
    (∃ i : Nat, m.isActive ((i : Int) + 1) = true) ∨
      ∀ (i : Nat) (t : TaskFrame), n ≤ i → m.tasks[i]? = some t → t.state = .finished := by
  -- downwards, because a task waits only for a later one
  induction d generalizing n with
  | zero =>
    refine Or.inr fun i t hi ht => ?_
    have := (List.getElem?_eq_some_iff.mp ht).1
    omega
  | succ d ih =>
    rcases ih (n + 1) (by omega) with hact | hfin
    · exact Or.inl hact
    · obtain ⟨t, ht⟩ : ∃ t, m.tasks[n]? = some t := ⟨_, List.getElem?_eq_getElem (by omega)⟩
      have htask : m.task? ((n : Int) + 1) = some t := by
        refine task?_eq_some.mpr ⟨by omega, ?_⟩
        rwa [show ((n : Int) + 1 - 1).toNat = n by omega]
      rcases hu t (List.mem_of_getElem? ht) with hs | ⟨target, hs⟩ | hs
      · refine Or.inl ⟨n, ?_⟩
        simp only [isActive, htask, canStep, hs]
      · refine Or.inl ⟨n, ?_⟩
        obtain ⟨hlt, hle⟩ := hr.joining n t ht target hs
        obtain ⟨other, hother⟩ : ∃ other, m.tasks[(target - 1).toNat]? = some other :=
          ⟨_, List.getElem?_eq_getElem (by omega)⟩
        have hfinished := hfin _ other (by omega) hother
        have htarget : m.task? target = some other := task?_eq_some.mpr ⟨by omega, hother⟩
        simp [isActive, htask, canStep, hs, htarget, hfinished]
      · refine Or.inr fun i u hi hu' => ?_
        rcases Nat.eq_or_lt_of_le hi with rfl | hlt
        · rw [ht] at hu'
          cases hu'
          exact hs
        · exact hfin i u hlt hu'

/-- **Unimpeded tasks are never deadlocked**: of the tasks that have not finished, the one that was
spawned last can take a step. -/
theorem Unimpeded.not_isDeadlocked {p : Program} (hu : m.Unimpeded) (hr : m.Runs p)
    (hne : m.tasks ≠ []) : m.isDeadlocked = false := by
  rcases hu.active_or_finished hr m.tasks.length 0 (by omega) with ⟨i, hact⟩ | hfin
  · have hmem := mem_active_of_isActive hact
    have hnonempty : m.active.isEmpty = false := by
      rw [List.isEmpty_eq_false_iff]
      exact List.ne_nil_of_mem hmem
    rw [isDeadlocked, hnonempty, Bool.and_false]
  · have hdone : m.isDone = true := by
      refine Bool.and_eq_true_iff.mpr ⟨by simpa using hne, List.all_eq_true.mpr fun t ht => ?_⟩
      obtain ⟨i, hi, hget⟩ := List.mem_iff_getElem.mp ht
      have hs := hfin i t (Nat.zero_le i) (by rw [← hget]; exact List.getElem?_eq_getElem hi)
      simp [hs]
    rw [isDeadlocked, hdone]
    rfl

end Machine

/-- **Without locks and assumptions a standstill follows only on an error.** -/
theorem Program.shows_of_deadlock {p : Program}
    (hp : p.usesOnly Machine.lockFreeKinds = true) {ids : List Int} {seen : List Observation}
    {m : Machine} (hf : p.start.follow? ids = some (seen, m)) (hd : m.isDeadlocked = true) :
    ∃ o ∈ seen, o.kind = .assertFailure := by
  have hstart : p.start.Runs p := Machine.runs_reset p 0
  have hr := hstart.follow? hf
  rcases Classical.em (∃ o ∈ seen, o.kind = .assertFailure) with h | h
  · exact h
  · have hu : p.start.Unimpeded := by
      intro t ht
      rw [List.mem_singleton.mp ht]
      exact Or.inl rfl
    have hafter := hu.follow? hstart hp hf fun o ho hkind => h ⟨o, ho, hkind⟩
    have hlen : m.tasks ≠ [] := by
      intro hnil
      have hmain := hr.main
      rw [hnil] at hmain
      cases hmain
    rw [hafter.not_isDeadlocked hr hlen] at hd
    cases hd

end Interleaving
