import Interleaving.Proofs.Machine.Schedule

/-!
# Location numbers do not matter to a machine

Every run hands out location numbers from a base of its own. Two machines that differ only in the
numbers they have given out are `Interleaving.Machine.Alike`, and they stay so along every schedule:
**the same tasks can step, and the steps show the same, up to location numbers**
(`Interleaving.Machine.follow?_alike`). So what a program can do in one run it can do in every other
one (`Interleaving.Program.reaches_of_run`, `Interleaving.Program.shows_of_run`).
-/

namespace Interleaving

/-- An observation without its location number. -/
def Observation.blind (o : Observation) : Observation :=
  { o with parameters := o.parameters.erase Observation.locationName }

namespace Machine

/-- The same program in the same state, up to location numbers. -/
structure Alike (m m' : Machine) : Prop where
  program : m.program = m'.program
  tasks : m.tasks = m'.tasks
  memory : m.memory = m'.memory
  holders : m.holders = m'.holders

/-- The same result of a step, up to location numbers. -/
structure StepResult.Alike (r r' : StepResult) : Prop where
  seen : r.1.map (List.map Observation.blind) = r'.1.map (List.map Observation.blind)
  machine : r.2.Alike r'.2

namespace Alike

variable {m m' : Machine}

/-- The same tasks are at the same places. -/
theorem task? (h : m.Alike m') (id : Int) : m.task? id = m'.task? id := by
  rw [Machine.task?, Machine.task?, h.tasks]

/-- The same tasks can step. -/
theorem canStep (h : m.Alike m') (t : TaskFrame) : m.canStep t = m'.canStep t := by
  unfold Machine.canStep
  cases t.state <;> simp only [h.task?, h.holders]

theorem isActive (h : m.Alike m') (id : Int) : m.isActive id = m'.isActive id := by
  unfold Machine.isActive
  rw [h.task?]
  split
  · exact h.canStep _
  · rfl

/-- The same tasks are active. -/
theorem active (h : m.Alike m') : m.active = m'.active := by
  unfold Machine.active taskIds
  rw [h.tasks]
  exact List.filter_congr fun id _ => h.isActive id

theorem isDone (h : m.Alike m') : m.isDone = m'.isDone := by
  rw [Machine.isDone, Machine.isDone, h.tasks]

/-- One machine is deadlocked just when the other one is. -/
theorem isDeadlocked (h : m.Alike m') : m.isDeadlocked = m'.isDeadlocked := by
  rw [Machine.isDeadlocked, Machine.isDeadlocked, h.isDone, h.active]

theorem setTask (h : m.Alike m') (id : Int) (t : TaskFrame) :
    (m.setTask id t).Alike (m'.setTask id t) :=
  ⟨h.program, by rw [Machine.setTask, Machine.setTask, h.tasks], h.memory, h.holders⟩

/-- A thread is spawned under the same number. -/
theorem spawn (h : m.Alike m') (thread : String) : (m.spawn thread).Alike (m'.spawn thread) :=
  ⟨h.program, by rw [Machine.spawn, Machine.spawn, h.tasks, h.program], h.memory, h.holders⟩

/-- Places get numbers of their own in each machine. -/
theorem touch (h : m.Alike m') (p : Place) : (m.touch p).2.Alike (m'.touch p).2 := by
  have htouch : ∀ m : Machine, (m.touch p).2.Alike m := by
    intro m
    unfold Machine.touch
    split <;> exact ⟨rfl, rfl, rfl, rfl⟩
  exact ⟨(htouch m).program.trans (h.program.trans (htouch m').program.symm),
    (htouch m).tasks.trans (h.tasks.trans (htouch m').tasks.symm),
    (htouch m).memory.trans (h.memory.trans (htouch m').memory.symm),
    (htouch m).holders.trans (h.holders.trans (htouch m').holders.symm)⟩

/-- A step on a variable or lock shows the same whatever the number of its location. -/
theorem access (h : m.Alike m') (id : Int) (kind : Observation.Kind) (p : Place) :
    StepResult.Alike (m.access id kind p) (m'.access id kind p) :=
  ⟨rfl, h.touch p⟩

theorem observe (h : m.Alike m') (o : Observation) :
    StepResult.Alike (m.observe o) (m'.observe o) :=
  ⟨rfl, h⟩

/-- A task fails with the same message. -/
theorem fail (h : m.Alike m') (id : Int) (t : TaskFrame) (message : String) :
    StepResult.Alike (m.fail id t message) (m'.fail id t message) :=
  (h.setTask id _).observe _

theorem setMemory (h : m.Alike m') (memory : Dictionary Value) :
    Machine.Alike { m with memory } { m' with memory } :=
  ⟨h.program, h.tasks, rfl, h.holders⟩

theorem setHolders (h : m.Alike m') (holders : Dictionary Int) :
    Machine.Alike { m with holders } { m' with holders } :=
  ⟨h.program, h.tasks, h.memory, rfl⟩

/-- Instructions show the same on machines that are alike. -/
theorem execute (h : m.Alike m') (id : Int) (t : TaskFrame) (i : Instruction) :
    StepResult.Alike (m.execute id t i) (m'.execute id t i) := by
  cases i with
  | read shared into =>
    simp only [Machine.execute, h.memory]
    exact (h.setTask id _).access id _ _
  | write shared value =>
    simp only [Machine.execute]
    split
    · exact ⟨rfl, h⟩
    · have hset := h.setTask id t.advance
      rw [hset.memory]
      exact (hset.setMemory _).access id _ _
  | fetchAdd shared into value =>
    simp only [Machine.execute, h.memory]
    split
    · exact ⟨rfl, h⟩
    · split
      · split
        · exact ⟨rfl, h⟩
        · rw [(h.setTask id _).memory]
          exact ((h.setTask id _).setMemory _).access id _ _
      · exact ⟨rfl, h⟩
  | lock name =>
    simp only [Machine.execute, h.holders]
    split
    · exact (h.setTask id _).access id _ _
    · rw [(h.setTask id _).holders]
      exact ((h.setTask id _).setHolders _).access id _ _
  | unlock name =>
    simp only [Machine.execute, h.holders]
    split
    · rw [(h.setTask id _).holders]
      exact ((h.setTask id _).setHolders _).access id _ _
    · exact h.fail id t _
  | spawn thread =>
    simp only [Machine.execute, h.tasks]
    exact ((h.setTask id _).spawn thread).observe _
  | join thread =>
    simp only [Machine.execute]
    split
    · exact ⟨rfl, h.setTask id _⟩
    · exact h.fail id t _
  | assert condition message => exact ⟨rfl, h⟩
  | assume condition =>
    simp only [Machine.execute]
    split
    · exact ⟨rfl, h⟩
    · exact (h.setTask id _).observe _

/-- **A ready task makes the same step.** -/
theorem stepReady (h : m.Alike m') (id : Int) (t : TaskFrame) :
    StepResult.Alike (m.stepReady id t) (m'.stepReady id t) := by
  unfold Machine.stepReady
  split
  · exact ⟨rfl, h.setTask id _⟩
  · exact h.fail id _ _
  · dsimp only
    split
    · exact ((h.setTask id _).setTask id _).observe _
    · exact (h.setTask id _).execute id _ _

/-- **A step shows the same on machines that are alike**, and they stay alike. -/
theorem step (h : m.Alike m') (id : Int) : StepResult.Alike (m.step id) (m'.step id) := by
  unfold Machine.step
  rw [h.task?]
  split
  · exact ⟨rfl, h⟩
  · rename_i t _
    rw [h.canStep]
    split
    · exact ⟨rfl, h⟩
    · split
      · dsimp only
        rw [(h.setTask id _).holders]
        exact ((h.setTask id _).setHolders _).access id _ _
      · exact (h.setTask id _).observe _
      · exact h.stepReady id t

/-- **A schedule shows the same on machines that are alike.** -/
theorem follow? (h : m.Alike m') {ids : List Int} {seen : List Observation} {last : Machine}
    (hf : m.follow? ids = some (seen, last)) :
    ∃ seen' last', m'.follow? ids = some (seen', last') ∧ last.Alike last' ∧
      seen.map Observation.blind = seen'.map Observation.blind := by
  induction ids generalizing m m' seen with
  | nil =>
    cases hf
    exact ⟨[], m', rfl, h, rfl⟩
  | cons id ids ih =>
    obtain ⟨first, rest, m₁, hstep, hrest, rfl⟩ := follow?_cons_eq_some hf
    have halike := h.step id
    rw [hstep] at halike
    rcases hstep' : m'.step id with ⟨r, m₁'⟩
    rw [hstep'] at halike
    cases r with
    | error e => cases halike.seen
    | ok first' =>
      obtain ⟨rest', last', hrest', hlast, hblind⟩ := ih halike.machine hrest
      have hfirst := Except.ok.inj halike.seen
      refine ⟨first' ++ rest', last', ?_, hlast, ?_⟩
      · rw [follow?_cons_of_step hstep', hrest']
        rfl
      · rw [List.map_append, List.map_append, hblind, hfirst]

end Alike

/-- Runs start alike. -/
theorem alike_reset (m : Machine) (n n' : Int) : (m.reset n).2.Alike (m.reset n').2 :=
  ⟨rfl, rfl, rfl, rfl⟩

end Machine

namespace Program

/-- What is reached in some run is reached in the first one, up to location numbers. -/
theorem reaches_of_run {p : Program} {n : Int} {ids : List Int} {seen : List Observation}
    {m : Machine} (hf : ((Machine.ofProgram p).reset n).2.follow? ids = some (seen, m)) :
    ∃ m', p.Reaches m' ∧ m.Alike m' := by
  obtain ⟨seen', m', hf', halike, -⟩ :=
    (Machine.alike_reset (Machine.ofProgram p) n 0).follow? hf
  exact ⟨m', ⟨ids, seen', hf'⟩, halike⟩

/-- What is observed in some run is observed in the first one, up to location numbers. -/
theorem shows_of_run {p : Program} {n : Int} {ids : List Int} {seen : List Observation}
    {m : Machine} (hf : ((Machine.ofProgram p).reset n).2.follow? ids = some (seen, m))
    {o : Observation} (ho : o ∈ seen) : p.Shows o.kind := by
  obtain ⟨seen', m', hf', -, hblind⟩ :=
    (Machine.alike_reset (Machine.ofProgram p) n 0).follow? hf
  have hmem : o.blind ∈ seen'.map Observation.blind := hblind ▸ List.mem_map_of_mem ho
  obtain ⟨o', ho', heq⟩ := List.mem_map.mp hmem
  exact ⟨ids, seen', m', hf', o', ho', (congrArg Observation.kind heq :)⟩

end Program

end Interleaving
