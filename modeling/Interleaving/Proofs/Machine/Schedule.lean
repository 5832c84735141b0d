import Interleaving.Machine.Step

/-!
# Schedules of a machine

A **schedule** is a list of tasks, each of which takes a step when its turn comes.
`Interleaving.Machine.follow?` runs a machine along a schedule and gathers what is observed; there
is no result when a task cannot step at its turn. What a program can do is what its machine shows
along some schedule from the start of a run (`Interleaving.Program.Shows`), and the states it can
come to are those at the ends of schedules (`Interleaving.Program.Reaches`).

Programs whose schedules all come to an end can be searched completely:
`Interleaving.Machine.everywhere` tests all states within a number of steps, and
`Interleaving.Machine.everywhere_follow?` says that a test passed within that number holds along
every schedule.
-/

namespace Interleaving

namespace Machine

/-- The machine after a schedule, with all that was observed on the way. -/
def follow? (m : Machine) : List Int → Option (List Observation × Machine)
  | [] => some ([], m)
  | id :: ids =>
    match m.step id with
    | (.error _, _) => none
    | (.ok seen, m') => (m'.follow? ids).map fun r => (seen ++ r.1, r.2)

/-- A step that is possible, and the rest of the schedule after it. -/
theorem follow?_cons_of_step {m m' : Machine} {id : Int} {ids : List Int}
    {seen : List Observation} (h : m.step id = (.ok seen, m')) :
    m.follow? (id :: ids) = (m'.follow? ids).map fun r => (seen ++ r.1, r.2) := by
  rw [follow?, h]

/-- Along a schedule that can be followed, the first task can step. -/
theorem follow?_cons_eq_some {m last : Machine} {id : Int} {ids : List Int}
    {all : List Observation} (h : m.follow? (id :: ids) = some (all, last)) :
    ∃ seen rest m', m.step id = (.ok seen, m') ∧ m'.follow? ids = some (rest, last) ∧
      all = seen ++ rest := by
  rw [follow?] at h
  split at h
  · cases h
  · rename_i seen m' hstep
    obtain ⟨⟨rest, l⟩, hrest, heq⟩ := Option.map_eq_some_iff.mp h
    cases heq
    exact ⟨seen, rest, m', hstep, hrest, rfl⟩

/-- **Following one schedule after another** is following them joined. -/
theorem follow?_append (m : Machine) (ids ids' : List Int) :
    m.follow? (ids ++ ids') =
      (m.follow? ids).bind fun r => (r.2.follow? ids').map fun s => (r.1 ++ s.1, s.2) := by
  induction ids generalizing m with
  | nil => cases h : m.follow? ids' <;> simp [follow?, h]
  | cons id ids ih =>
    rw [List.cons_append, follow?, follow?]
    split
    · rfl
    · rename_i seen m' _
      rw [ih m']
      cases m'.follow? ids with
      | none => rfl
      | some r =>
        cases h : r.2.follow? ids' <;> simp [h, List.append_assoc]

/-- Only tasks that can step do: anything else is refused. -/
theorem isActive_of_step {m m' : Machine} {id : Int} {seen : List Observation}
    (h : m.step id = (.ok seen, m')) : m.isActive id = true := by
  rw [step] at h
  rw [isActive]
  split at h
  · cases h
  · rename_i t ht
    rw [ht]
    by_cases hc : m.canStep t = true
    · exact hc
    · rw [if_pos (by simpa using hc)] at h
      cases h

/-- An active task is one of the tasks that there are. -/
theorem mem_active_of_isActive {m : Machine} {id : Int} (h : m.isActive id = true) :
    id ∈ m.active := by
  refine List.mem_filter.mpr ⟨?_, h⟩
  rw [isActive] at h
  split at h
  · rename_i t ht
    rw [task?] at ht
    split at ht
    · rename_i hpos
      have hlt : (id - 1).toNat < m.tasks.length := (List.getElem?_eq_some_iff.mp ht).1
      exact List.mem_map.mpr ⟨(id - 1).toNat, List.mem_range.mpr hlt, by omega⟩
    · cases ht
  · cases h

/-! ### Searching all schedules -/

/-- Whether a test holds after every possible step from every state that can be reached, given that
all schedules end within a number of steps. -/
def everywhere (test : Machine → Int → StepResult → Bool) : Nat → Machine → Bool
  | 0, m => m.active.isEmpty
  | n + 1, m =>
    m.active.all fun id => test m id (m.step id) && everywhere test n (m.step id).2

/-- **A test that holds everywhere holds along every schedule**, and every schedule is within the
number of steps that the search went. -/
theorem everywhere_follow? {test : Machine → Int → StepResult → Bool} {n : Nat} {m m' : Machine}
    (h : m.everywhere test n = true) {ids : List Int} {seen : List Observation}
    (hf : m.follow? ids = some (seen, m')) :
    ids.length ≤ n ∧ m'.everywhere test (n - ids.length) = true := by
  induction ids generalizing n m seen with
  | nil =>
    cases hf
    exact ⟨Nat.zero_le _, h⟩
  | cons id ids ih =>
    obtain ⟨first, rest, m₁, hstep, hrest, -⟩ := follow?_cons_eq_some hf
    have hact : id ∈ m.active := mem_active_of_isActive (isActive_of_step hstep)
    cases n with
    | zero =>
      rw [everywhere, List.isEmpty_iff] at h
      rw [h] at hact
      cases hact
    | succ n =>
      rw [everywhere, List.all_eq_true] at h
      have hnext := (Bool.and_eq_true_iff.mp (h id hact)).2
      rw [hstep] at hnext
      obtain ⟨hle, hev⟩ := ih hnext hrest
      refine ⟨Nat.succ_le_succ hle, ?_⟩
      rwa [List.length_cons, Nat.add_sub_add_right]

/-- A test that holds everywhere holds of every step that is possible at the end of a schedule. -/
theorem test_of_everywhere {test : Machine → Int → StepResult → Bool} {n : Nat} {m m' : Machine}
    (h : m.everywhere test n = true) {ids : List Int} {seen : List Observation}
    (hf : m.follow? ids = some (seen, m')) {id : Int} (hid : m'.isActive id = true) :
    test m' id (m'.step id) = true := by
  obtain ⟨-, hev⟩ := everywhere_follow? h hf
  have hact := mem_active_of_isActive hid
  cases hn : n - ids.length with
  | zero =>
    rw [hn, everywhere, List.isEmpty_iff] at hev
    rw [hev] at hact
    cases hact
  | succ k =>
    rw [hn, everywhere, List.all_eq_true] at hev
    exact (Bool.and_eq_true_iff.mp (hev id hact)).1

end Machine

namespace Program

/-- The machine of a program at the start of its first run. -/
def start (p : Program) : Machine := ((Machine.ofProgram p).reset 0).2

/-- Some schedule leads to a state. -/
def Reaches (p : Program) (m : Machine) : Prop :=
  ∃ ids seen, p.start.follow? ids = some (seen, m)

/-- Along some schedule something of a kind is observed. -/
def Shows (p : Program) (kind : Observation.Kind) : Prop :=
  ∃ ids seen m, p.start.follow? ids = some (seen, m) ∧ ∃ o ∈ seen, o.kind = kind

/-- **Every expression has a value**: no step of a task that can step breaks off. -/
def AlwaysEvaluates (p : Program) : Prop :=
  ∀ m, p.Reaches m → ∀ id, m.isActive id = true → (m.step id).1.isOk = true

/-- Every schedule comes to an end: none is longer than a fixed number of steps. -/
def IsFinite (p : Program) : Prop :=
  ∃ n, ∀ ids seen m, p.start.follow? ids = some (seen, m) → ids.length ≤ n

/-- Whether only operations of some kinds occur. -/
def usesOnly (p : Program) (kinds : List OperationKind) : Bool :=
  p.threads.entries.all fun t => t.2.all fun op => kinds.contains op.kind

/-- Whether an operation of a kind occurs. -/
def uses (p : Program) (kind : OperationKind) : Bool :=
  p.threads.entries.any fun t => t.2.any fun op => op.kind = kind

/-- The threads that spawn others. -/
def spawners (p : Program) : List String :=
  (p.threads.entries.filter fun t => t.2.any fun op => op.kind = .spawn).map (·.1)

/-- Whether no thread but the main thread spawns others. -/
def spawnsInMainOnly (p : Program) : Bool := p.spawners.all fun t => t = mainThread

/-- Searching all schedules shows that every expression has a value. -/
theorem alwaysEvaluates_of_everywhere {p : Program} {n : Nat}
    (h : p.start.everywhere (fun _ _ r => r.1.isOk) n = true) : p.AlwaysEvaluates := by
  rintro m ⟨ids, seen, hf⟩ id hid
  exact Machine.test_of_everywhere h hf hid

/-- Searching all schedules shows that all of them come to an end. -/
theorem isFinite_of_everywhere {p : Program} {test : Machine → Int → Machine.StepResult → Bool}
    {n : Nat} (h : p.start.everywhere test n = true) : p.IsFinite :=
  ⟨n, fun _ _ _ hf => (Machine.everywhere_follow? h hf).1⟩

end Program

end Interleaving
