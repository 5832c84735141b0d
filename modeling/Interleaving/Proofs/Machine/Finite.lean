import Mathlib.Algebra.Order.BigOperators.Group.List
import Mathlib.Data.Set.Card
import Mathlib.Logic.Relation
import Interleaving.Proofs.Machine.Invariant

/-!
# Programs whose runs come to an end

A thread is a straight line of instructions, but its tasks can spawn new ones at run time. If a
thread can spawn itself, directly or through others (`Interleaving.Program.IsRecursive`), there is
no bound on the number of tasks: validation accepts such programs, and
`Interleaving.Program.endlessSpawning` goes on for as long as it is asked to.

Otherwise the threads have **ranks** (`Interleaving.Program.rank`): a thread ranks above all that it
spawns. The work that a task of some rank can still do, with the work of all tasks that come of it,
is bounded by the number of instructions that are left to it and a price for each
(`Interleaving.Machine.TaskFrame.work`). The price of a rank covers all the work of a new task of
any lower rank, so **every step takes work off** (`Interleaving.Machine.Bounded.step`): a request to
join and an attempt at a lock leave the position where it is, but they are made once for each
instruction.
-/

namespace Interleaving

namespace Program

variable {p : Program} {a b : String}

/-! ### Threads that spawn threads -/

/-- The code of a thread; a thread that does not exist has none. -/
def code (p : Program) (thread : String) : List Instruction :=
  Machine.codeOf ((p.threads.get? thread).getD [])

/-- A thread has an instruction that spawns another one. -/
def Spawns (p : Program) (a b : String) : Prop := .spawn b ∈ p.code a

/-- A run can come to a thread: it starts with it, or the thread is spawned on the way. -/
def Meets (p : Program) (thread : String) : Prop := Relation.ReflTransGen p.Spawns mainThread thread

/-- Some thread that a run can come to spawns itself, directly or through threads that it spawns. -/
def IsRecursive (p : Program) : Prop :=
  ∃ thread, p.Meets thread ∧ Relation.TransGen p.Spawns thread thread

/-- The code of a thread with operations. -/
theorem exists_entry_of_mem_code {i : Instruction} (h : i ∈ p.code a) :
    ∃ ops, (a, ops) ∈ p.threads.entries ∧ i ∈ Machine.codeOf ops := by
  unfold code at h
  cases hops : p.threads.get? a with
  | none =>
    rw [hops] at h
    cases h
  | some ops =>
    rw [hops] at h
    obtain ⟨before, after, heq, -⟩ := List.lookup_eq_some_iff.mp hops
    exact ⟨ops, heq ▸ List.mem_append_right before List.mem_cons_self, h⟩

/-- Only finitely many threads are spawned. -/
theorem finite_spawned (p : Program) : {b | ∃ a, p.Spawns a b}.Finite := by
  have hcode := (p.threads.entries.flatMap fun e => Machine.codeOf e.2).finite_toSet
  refine (hcode.preimage (f := Instruction.spawn) fun _ _ _ _ heq =>
    Instruction.spawn.inj heq).subset ?_
  rintro b ⟨a, h⟩
  obtain ⟨ops, hentry, hmem⟩ := exists_entry_of_mem_code h
  exact List.mem_flatMap.mpr ⟨(a, ops), hentry, hmem⟩

/-- The threads that come of a thread. -/
def descendants (p : Program) (thread : String) : Set String :=
  {b | Relation.TransGen p.Spawns thread b}

theorem finite_descendants (p : Program) (thread : String) : (p.descendants thread).Finite := by
  refine p.finite_spawned.subset fun b h => ?_
  obtain ⟨a, -, hab⟩ := Relation.TransGen.tail'_iff.mp h
  exact ⟨a, hab⟩

/-- How many threads come of a thread. -/
noncomputable def rank (p : Program) (thread : String) : Nat := (p.descendants thread).ncard

/-- **A thread ranks above those that it spawns**, unless they spawn themselves again. -/
theorem rank_lt (hb : ¬ Relation.TransGen p.Spawns b b) (h : p.Spawns a b) :
    p.rank b < p.rank a := by
  refine Set.ncard_lt_ncard ?_ (p.finite_descendants a)
  have hsub : p.descendants b ⊆ p.descendants a := fun c hc => Relation.TransGen.head h hc
  exact ⟨hsub, fun hsup => hb (hsup (Relation.TransGen.single h))⟩

/-- How many instructions there are in all threads together. -/
def size (p : Program) : Nat := (p.threads.entries.map fun e => (Machine.codeOf e.2).length).sum

theorem length_code_le (p : Program) (thread : String) : (p.code thread).length ≤ p.size := by
  unfold code
  cases hops : p.threads.get? thread with
  | none => exact Nat.zero_le _
  | some ops =>
    obtain ⟨before, after, heq, -⟩ := List.lookup_eq_some_iff.mp hops
    have hmem : (thread, ops) ∈ p.threads.entries :=
      heq ▸ List.mem_append_right before List.mem_cons_self
    exact List.single_le_sum (fun _ _ => Nat.zero_le _) _ (List.mem_map_of_mem hmem)

/-! ### Prices -/

/-- What an instruction of a thread of some rank costs at most: two steps, or one step and all the
work of a new task of a lower rank. -/
def price (p : Program) : Nat → Nat
  | 0 => 2
  | rank + 1 => p.size * p.price rank + 3

theorem two_le_price (p : Program) (rank : Nat) : 2 ≤ p.price rank := by
  cases rank <;> simp [price]

theorem monotone_price (p : Program) : Monotone p.price := by
  refine monotone_nat_of_le_succ fun rank => ?_
  induction rank with
  | zero => exact Nat.le_trans (Nat.le_succ 2) (Nat.le_add_left 3 _)
  | succ rank ih => exact Nat.add_le_add_right (Nat.mul_le_mul_left p.size ih) 3

/-- The price of a rank covers a step and all the work of a task of a lower rank. -/
theorem work_lt_price (p : Program) {rank rank' : Nat} (h : rank < rank') :
    p.size * p.price rank + 1 + 1 < p.price rank' :=
  Nat.lt_of_lt_of_le (Nat.lt_succ_self _) (p.monotone_price (Nat.succ_le_of_lt h))

end Program

namespace Machine

variable {m : Machine} {id : Int} {t : TaskFrame} {p : Program} {seen : List Observation}

/-! ### The work of a task -/

/-- How many instructions are left to a task. -/
def TaskFrame.left (t : TaskFrame) : Nat := t.code.length - t.position

/-- The work that is left to a task, at a price for each instruction: a ready task has its end to
come, too, and a task that waits has done one of the two steps that its instruction takes. -/
def TaskFrame.work (t : TaskFrame) (price : Nat) : Nat :=
  match t.state with
  | .ready => t.left * price + 1
  | .joining _ => t.left * price
  | .waiting _ => t.left * price
  | _ => 0

theorem work_start (thread : String) (ops : List Operation) (price : Nat) :
    (TaskFrame.start thread ops).work price = (codeOf ops).length * price + 1 := rfl

/-- What a step takes off the work of its task: the whole price of an instruction that spawns. -/
def Effect.charge (e : Effect) (price : Nat) : Nat := if e.spawned.isSome then price else 1

/-- One instruction less. -/
theorem left_advance {position : Nat} {i : Instruction}
    (hi : t.code[position]? = some i) (price : Nat) :
    (t.code.length - (position + 1)) * price + price = (t.code.length - position) * price := by
  have hlt := lt_of_instruction hi
  rw [← Nat.succ_mul]
  congr 1
  omega

/-- An instruction takes off the work that it charges for. -/
theorem work_effectOf {price : Nat} (hp : 2 ≤ price) {i : Instruction} (hs : t.state = .ready)
    (hi : t.code[t.position]? = some i) (hok : ∀ e, (m.effectOf id t i).report ≠ .fault e)
    (hassert : ∀ c msg, i ≠ .assert c msg) :
    (m.effectOf id t i).frame.work price + (m.effectOf id t i).charge price ≤ t.work price := by
  have hready : t.work price = (t.code.length - (t.position + 1)) * price + price + 1 := by
    rw [left_advance hi, TaskFrame.work, hs]
    rfl
  -- going on takes off the price of an instruction
  have hadvance : ∀ (registers : Dictionary Value) (children : Dictionary Int),
      TaskFrame.work { t with registers, children, position := t.position + 1 } price + price =
        t.work price := by
    intro registers children
    rw [hready, TaskFrame.work, hs]
    exact Nat.add_right_comm _ _ _
  -- a task that stays where it is takes off the unit for being ready
  have hwaiting : (t.code.length - t.position) * price + 1 = t.work price := by
    rw [TaskFrame.work, hs]
    rfl
  have hcharge : ∀ {w : Nat}, w + price = t.work price → w + 1 ≤ t.work price := fun h => by omega
  cases i with
  | read shared into => exact hcharge (hadvance _ _)
  | write shared value =>
    revert hok
    simp only [effectOf]
    split
    · exact fun hok => absurd rfl (hok _)
    · exact fun _ => hcharge (hadvance _ _)
  | fetchAdd shared into value =>
    revert hok
    simp only [effectOf]
    split
    · exact fun hok => absurd rfl (hok _)
    · split
      · split
        · exact fun hok => absurd rfl (hok _)
        · split
          · exact fun _ => hcharge (hadvance _ _)
          · exact fun _ => hcharge (hadvance _ _)
      · exact fun hok => absurd rfl (hok _)
  | lock name =>
    simp only [effectOf]
    split
    · exact hwaiting.le
    · exact hcharge (hadvance _ _)
  | unlock name =>
    simp only [effectOf]
    split
    · exact hcharge (hadvance _ _)
    · exact hwaiting ▸ Nat.le_add_left 1 _
  | spawn thread => exact (hadvance _ _).le
  | join thread =>
    simp only [effectOf]
    split
    · exact hwaiting.le
    · exact hwaiting ▸ Nat.le_add_left 1 _
  | assume condition =>
    revert hok
    simp only [effectOf]
    split
    · exact fun hok => absurd rfl (hok _)
    · rename_i holds _
      cases holds with
      | true => exact fun _ => hcharge (hadvance _ _)
      | false => exact fun _ => hwaiting ▸ Nat.le_add_left 1 _
  | assert condition message => exact absurd rfl (hassert _ _)

/-- Going on in the code leaves no more work. -/
theorem work_mono {position : Nat} (hs : t.state = .ready) (h : t.position ≤ position)
    (price : Nat) : TaskFrame.work { t with position } price ≤ t.work price := by
  unfold TaskFrame.work
  rw [hs]
  exact Nat.add_le_add_right (Nat.mul_le_mul_right price (Nat.sub_le_sub_left h _)) 1

/-- **A step takes off the work that it charges for.** -/
theorem work_effect {price : Nat} (hp : 2 ≤ price) (hstands : t.Stands) (hstep : m.canStep t = true)
    (hok : ∀ e, (m.effect id t).report ≠ .fault e) :
    (m.effect id t).frame.work price + (m.effect id t).charge price ≤ t.work price := by
  have hgone : ∀ {i : Instruction}, t.code[t.position]? = some i → t.work price = t.left * price →
      TaskFrame.work { t with state := .ready, position := t.position + 1 } price + 1 ≤
        t.work price := by
    intro i hi hwork
    have hleft := left_advance hi price
    rw [hwork, TaskFrame.left, ← hleft]
    exact Nat.add_le_add_left hp _
  rcases canStep_cases hstep with hs | ⟨target, other, hs, -, -⟩ | ⟨lock, hs, -⟩
  · have heffect : m.effect id t = m.effectReady id t := by rw [effect, hs]
    rw [heffect] at hok ⊢
    rw [effectReady] at hok ⊢
    have hready : 1 ≤ t.work price := by
      rw [TaskFrame.work, hs]
      exact Nat.le_add_left 1 _
    cases ha : t.assertions with
    | fault position fault =>
      rw [ha] at hok
      exact absurd rfl (hok _)
    | failed position message => exact hready
    | passed position =>
      rw [ha] at hok
      obtain ⟨hle, hnot⟩ := TaskFrame.assertionsFrom_passed ha
      cases hi : t.code[position]? with
      | none =>
        simp only [hi]
        exact hready
      | some i =>
        simp only [hi] at hok ⊢
        refine (work_effectOf (t := { t with position }) hp hs hi hok fun c msg heq =>
          hnot c msg ?_).trans (work_mono hs hle price)
        rw [List.getElem?_drop, Nat.add_sub_cancel' hle, hi, heq]
  · obtain ⟨thread, hi, -⟩ := hstands.joining target hs
    rw [effect, hs]
    exact hgone hi (by rw [TaskFrame.work, hs])
  · have hi := hstands.waiting lock hs
    rw [effect, hs]
    exact hgone hi (by rw [TaskFrame.work, hs])

/-! ### The work of a machine -/

/-- All the work that is left in a machine. -/
noncomputable def workLeft (p : Program) (m : Machine) : Nat :=
  (m.tasks.map fun t => t.work (p.price (p.rank t.thread))).sum

/-- What holds of the states of a run, as far as its length is concerned: the tasks stand well, and
they run threads that a run can come to. -/
structure Bounded (p : Program) (seen : List Observation) (m : Machine) : Prop where
  kept : m.Kept p seen
  meets : ∀ id t, m.task? id = some t → p.Meets t.thread

/-- A task that spawns runs a thread that spawns. -/
theorem Kept.spawns (h : m.Kept p seen) (ht : m.task? id = some t) {thread : String}
    (hspawned : (m.effect id t).spawned = some thread) : p.Spawns t.thread thread := by
  obtain ⟨position, hi⟩ := exists_position_of_next (next?_of_spawned hspawned)
  obtain ⟨ops, hops, hcode⟩ := h.code id t ht
  rw [hcode] at hi
  unfold Program.Spawns Program.code
  rw [hops]
  exact List.mem_of_getElem? hi

theorem bounded_reset (hv : p.isValid = true) (n : Int) :
    ((ofProgram p).reset n).2.Bounded p ((ofProgram p).reset n).1 := by
  refine ⟨kept_reset hv n, fun id t ht => ?_⟩
  obtain rfl := List.mem_singleton.mp (List.mem_of_getElem? (task?_eq_some.mp ht).2)
  exact .refl

/-- The work that an effect leaves in a machine. -/
theorem workLeft_perform {e : Effect} (ht : m.task? id = some t)
    (hthread : e.frame.thread = t.thread) :
    workLeft p (e.perform id m).2 + t.work (p.price (p.rank t.thread)) =
      workLeft p m + e.frame.work (p.price (p.rank t.thread)) +
        ((e.spawned.map fun thread => (codeOf ((m.program.threads.get? thread).getD [])).length *
          p.price (p.rank thread) + 1).getD 0) := by
  obtain ⟨-, hget⟩ := task?_eq_some.mp ht
  obtain ⟨hlt, hget⟩ := List.getElem?_eq_some_iff.mp hget
  have hsplit : m.tasks = m.tasks.take (id - 1).toNat ++
      t :: m.tasks.drop ((id - 1).toNat + 1) := by
    rw [← hget, List.getElem_cons_drop, List.take_append_drop]
  have hold := congrArg (fun l => (l.map fun u => u.work (p.price (p.rank u.thread))).sum) hsplit
  unfold workLeft
  rw [perform_snd, touched_tasks, Effect.apply]
  dsimp only at hold ⊢
  rw [List.set_eq_take_append_cons_drop, if_pos hlt, hold]
  simp only [List.map_append, List.map_cons, List.sum_append, List.sum_cons, hthread]
  cases e.spawned with
  | none =>
    simp only [Option.map_none, Option.toList_none, List.map_nil, List.sum_nil, Option.getD_none]
    omega
  | some thread =>
    simp only [Option.map_some, Option.toList_some, List.map_cons, List.map_nil, List.sum_cons,
      List.sum_nil, Option.getD_some, work_start]
    rw [show (TaskFrame.start thread ((m.program.threads.get? thread).getD [])).thread =
      thread from rfl]
    omega

/-- **Every step takes work off a machine**, and leaves it bounded. -/
theorem Bounded.step {m' : Machine} {now : List Observation} (hv : p.isValid = true)
    (hrec : ¬ p.IsRecursive) (h : m.Bounded p seen) (hstep : m.step id = (.ok now, m')) :
    m'.Bounded p (seen ++ m.seenBy id) ∧ workLeft p m' < workLeft p m := by
  obtain ⟨t, ht, hcan⟩ := exists_task_of_isActive (isActive_of_step hstep)
  have hm' : m' = ((m.effect id t).perform id m).2 := by rw [← step_eq_perform ht hcan, hstep]
  have hkept := h.kept.step hv id
  rw [hstep] at hkept
  have hkeeps := keeps_effect m id t
  have hmeets : ∀ other u, m'.task? other = some u → p.Meets u.thread := by
    intro other u hu
    rw [hm'] at hu
    rcases task?_perform_cases ht hu with ⟨-, hu⟩ | ⟨-, rfl⟩ | ⟨thread, hspawned, -, rfl⟩
    · exact h.meets other u hu
    · rw [hkeeps.thread]
      exact h.meets id t ht
    · exact (h.meets id t ht).tail (h.kept.spawns ht hspawned)
  have hok : ∀ e, (m.effect id t).report ≠ .fault e := by
    intro e he
    have hfst := perform_fst (m.effect id t) id m
    rw [← step_eq_perform ht hcan, hstep, he] at hfst
    cases hfst
  have hframe := work_effect (p.two_le_price (p.rank t.thread)) (h.kept.stands id t ht) hcan hok
  have hsum := workLeft_perform (p := p) ht hkeeps.thread
  rw [← hm'] at hsum
  refine ⟨⟨hkept, hmeets⟩, ?_⟩
  unfold Effect.charge at hframe
  cases hspawned : (m.effect id t).spawned with
  | none =>
    simp only [hspawned, Option.isSome_none, Bool.false_eq_true, if_false, Option.map_none,
      Option.getD_none] at hframe hsum
    omega
  | some thread =>
    -- the price of the instruction covers the new task
    have hspawns := h.kept.spawns ht hspawned
    have hrank : p.rank thread < p.rank t.thread :=
      Program.rank_lt (fun hself => hrec ⟨thread, (h.meets id t ht).tail hspawns, hself⟩) hspawns
    have hprice := p.work_lt_price hrank
    have hlength := Nat.mul_le_mul_right (p.price (p.rank thread)) (p.length_code_le thread)
    unfold Program.code at hlength
    simp only [hspawned, Option.isSome_some, if_true, Option.map_some, Option.getD_some,
      h.kept.program] at hframe hsum
    omega

/-- **A schedule is no longer than the work that is left.** -/
theorem Bounded.follow? {m' : Machine} {ids : List Int} {now : List Observation}
    (hv : p.isValid = true) (hrec : ¬ p.IsRecursive) (h : m.Bounded p seen)
    (hf : m.follow? ids = some (now, m')) :
    ids.length ≤ workLeft p m := by
  induction ids generalizing m seen now with
  | nil => exact Nat.zero_le _
  | cons id ids ih =>
    obtain ⟨first, rest, m₁, hstep, hrest, -⟩ := follow?_cons_eq_some hf
    obtain ⟨hbounded, hlt⟩ := h.step hv hrec hstep
    exact Nat.lt_of_le_of_lt (ih hbounded hrest) hlt

end Machine

end Interleaving
