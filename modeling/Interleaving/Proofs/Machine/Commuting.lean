import Interleaving.Proofs.Machine.Effect
import Mathlib.Logic.Equiv.Basic

/-!
# Independent steps commute

Two tasks that can both step are **independent** (`Interleaving.Machine.Independent`) when their
next steps do not both spawn a task, are not about the same lock, and are about the same variable
only if both do no more than read it. The steps may then be taken in either order
(`Interleaving.Machine.commutes_of_independent`): neither of them stops the other one, each shows
the same in both orders or fails in the same way, and the machines afterwards agree.

Locations are numbered in the order in which they are touched. If both steps touch a place for the
first time, the two orders give the two numbers the other way round, so what is observed is the same
up to a **renaming of locations**.
-/

namespace Interleaving

/-- An observation in which locations have other numbers. -/
def Observation.relocate (σ : Location → Location) (o : Observation) : Observation :=
  match o.parameters.int? locationName with
  | some n => { o with parameters := o.parameters.set locationName (.int (σ n)) }
  | none => o

/-- A step on a variable or lock shows its location and nothing else. -/
theorem Observation.relocate_memory (σ : Location → Location) (task : Int) (kind : Observation.Kind)
    (n : Location) : (Observation.memory task kind n).relocate σ = .memory task kind (σ n) := rfl

namespace Machine

variable {m : Machine} {t u id : Int} {a b : TaskFrame}

/-! ### The numbers of two places -/

/-- A place keeps its number. -/
theorem location?_touch_of_some {p q : Place} {loc : Location} (h : m.location? p = some loc) :
    (m.touch q).2.location? p = some loc := by
  unfold touch
  split
  · exact h
  · rw [location?] at h
    rw [location?, List.lookup_append, h]
    rfl

theorem touch_fst_of_some {p : Place} {loc : Location} (h : m.location? p = some loc) :
    (m.touch p).1 = loc := by
  rw [touch, h]

/-- A place has its number from the first touch on. -/
theorem touch_touch_self (p : Place) : ((m.touch p).2.touch p).1 = (m.touch p).1 := by
  refine touch_fst_of_some ?_
  cases h : m.location? p with
  | some loc => rw [location?_touch_of_some h, touch_fst_of_some h]
  | none =>
    have hfound : m.places.lookup p = none := h
    simp only [touch, h]
    rw [location?, List.lookup_append, hfound]
    simp

/-- The number that comes next. -/
theorem touch_fst_of_none {p : Place} (h : m.location? p = none) :
    (m.touch p).1 = Word.wrap (m.lastLocation + 1) := by
  rw [touch, h]

/-- The number that comes after that of another place. -/
theorem touch_touch_of_none {p q : Place} (hne : p ≠ q) (hp : m.location? p = none)
    (hq : m.location? q = none) :
    ((m.touch q).2.touch p).1 = Word.wrap (Word.wrap (m.lastLocation + 1) + 1) := by
  have hlookup : (m.touch q).2.location? p = none := by
    rw [location?] at hp
    simp only [touch, hq]
    rw [location?, List.lookup_append, hp]
    simp [List.lookup_cons, beq_false_of_ne hne]
  rw [touch_fst_of_none hlookup]
  simp only [touch, hq]

/-- **Two places are numbered in both orders alike**, up to a renaming of locations. -/
theorem exists_renaming (m : Machine) (p? q? : Option Place) :
    ∃ σ : Equiv.Perm Location,
      (∀ p ∈ p?, ((m.touched q?).touch p).1 = σ (m.touch p).1) ∧
        ∀ q ∈ q?, (m.touch q).1 = σ ((m.touched p?).touch q).1 := by
  cases p? with
  | none => exact ⟨Equiv.refl _, by simp, fun _ _ => rfl⟩
  | some p =>
    cases q? with
    | none => exact ⟨Equiv.refl _, fun _ _ => rfl, by simp⟩
    | some q =>
      simp only [touched, Option.mem_some_iff, forall_eq']
      by_cases hpq : p = q
      · subst hpq
        exact ⟨Equiv.refl _, touch_touch_self p, (touch_touch_self p).symm⟩
      -- a place that has a number already takes none of the other one
      cases hp : m.location? p with
      | some loc =>
        refine ⟨Equiv.refl _, ?_, ?_⟩
        · rw [touch_fst_of_some hp, touch_fst_of_some (location?_touch_of_some hp)]
          rfl
        · rw [show (m.touch p).2 = m by rw [touch, hp]]
          rfl
      | none =>
        cases hq : m.location? q with
        | some loc =>
          refine ⟨Equiv.refl _, ?_, ?_⟩
          · rw [show (m.touch q).2 = m by rw [touch, hq]]
            rfl
          · rw [touch_fst_of_some hq, touch_fst_of_some (location?_touch_of_some hq)]
            rfl
        | none =>
          refine ⟨Equiv.swap (Word.wrap (m.lastLocation + 1))
            (Word.wrap (Word.wrap (m.lastLocation + 1) + 1)), ?_, ?_⟩
          · rw [touch_fst_of_none hp, touch_touch_of_none hpq hp hq, Equiv.swap_apply_left]
          · rw [touch_fst_of_none hq, touch_touch_of_none (Ne.symm hpq) hq hp,
              Equiv.swap_apply_right]

/-! ### Independence -/

/-- The next steps of two tasks have nothing to do with each other. -/
structure Independent (a b : TaskFrame) : Prop where
  spawns : ¬ (a.spawns = true ∧ b.spawns = true)
  locks : ∀ lock, a.lock? = some lock → b.lock? ≠ some lock
  memory : ∀ name, a.cell? = some name → b.cell? = some name → a.writes = false ∧ b.writes = false

theorem Independent.symm (h : Independent a b) : Independent b a where
  spawns := fun hs => h.spawns hs.symm
  locks := fun lock hb ha => h.locks lock ha hb
  memory := fun name hb ha => (h.memory name ha hb).symm

instance (a b : TaskFrame) : Decidable (Independent a b) :=
  decidable_of_iff
    (¬ (a.spawns = true ∧ b.spawns = true) ∧ (a.lock? = none ∨ a.lock? ≠ b.lock?) ∧
      (a.cell? = none ∨ a.cell? ≠ b.cell? ∨ a.writes = false ∧ b.writes = false)) (by
    constructor
    · rintro ⟨hspawns, hlocks, hvariables⟩
      refine ⟨hspawns, fun lock ha hb => ?_, fun name ha hb => ?_⟩
      · rw [ha, hb] at hlocks
        simp at hlocks
      · rw [ha, hb] at hvariables
        simpa using hvariables
    · rintro ⟨hspawns, hlocks, hvariables⟩
      refine ⟨hspawns, ?_, ?_⟩
      · cases ha : a.lock? with
        | none => exact .inl rfl
        | some lock => exact .inr (Ne.symm (hlocks lock ha))
      · cases ha : a.cell? with
        | none => exact .inl rfl
        | some name =>
          by_cases hb : b.cell? = some name
          · exact .inr (.inr (hvariables name ha hb))
          · exact .inr (.inl (Ne.symm hb)))

/-- Two tasks that can step and are independent. -/
structure Rivals (m : Machine) (t u : Int) (a b : TaskFrame) : Prop where
  ne : t ≠ u
  first : m.task? t = some a
  second : m.task? u = some b
  firstCan : m.canStep a = true
  secondCan : m.canStep b = true
  independent : Independent a b

theorem Rivals.symm (h : m.Rivals t u a b) : m.Rivals u t b a :=
  ⟨h.ne.symm, h.second, h.first, h.secondCan, h.firstCan, h.independent.symm⟩

/-- A step stops no other task that is independent of it. -/
theorem Rivals.task? (h : m.Rivals t u a b) : (m.step t).2.task? u = some b := by
  rw [step_eq_perform h.first h.firstCan]
  exact task?_perform_of_ne (task?_eq_some.mp h.first).1 h.ne h.second

theorem Rivals.holders (h : m.Rivals t u a b) {lock : String} (hlock : b.lock? = some lock) :
    (m.step t).2.holders.get? lock = m.holders.get? lock := by
  rw [step_eq_perform h.first h.firstCan, perform_snd, touched_holders, Effect.apply]
  exact get?_holders_of_ne (fun holder heq =>
    h.independent.locks lock (lock?_of_turned heq) hlock) m.holders

theorem Rivals.memory (h : m.Rivals t u a b) {name : String} (hname : b.cell? = some name) :
    (m.step t).2.memory.get? name = m.memory.get? name := by
  rw [step_eq_perform h.first h.firstCan, perform_snd, touched_memory, Effect.apply]
  refine get?_memory_of_ne (fun v heq => ?_) m.memory
  obtain ⟨hvar, hwrites⟩ := cell?_of_stored heq
  rw [(h.independent.memory name hvar hname).1] at hwrites
  cases hwrites

theorem Rivals.count (h : m.Rivals t u a b) (hspawns : b.spawns = true) :
    (m.step t).2.tasks.length = m.tasks.length := by
  rw [step_eq_perform h.first h.firstCan, perform_snd, touched_tasks, Effect.apply]
  cases hs : (m.effect t a).spawned with
  | none => simp
  | some thread => exact absurd ⟨spawns_of_spawned hs, hspawns⟩ h.independent.spawns

/-- The other task can still step. -/
theorem Rivals.canStep (h : m.Rivals t u a b) : (m.step t).2.canStep b = true := by
  have hcan := h.secondCan
  unfold Machine.canStep at hcan ⊢
  cases hs : b.state with
  | ready => rfl
  | joining target =>
    rw [hs] at hcan
    dsimp only at hcan ⊢
    split at hcan
    · rename_i other hother
      -- a task that has finished is not the one that has stepped
      have hne : t ≠ target := by
        intro heq
        have hsame : a = other := by
          have hfirst := h.first
          rw [heq, hother] at hfirst
          exact (Option.some.inj hfirst).symm
        have hfirst := h.firstCan
        rw [hsame, Machine.canStep, of_decide_eq_true hcan] at hfirst
        cases hfirst
      rw [step_eq_perform h.first h.firstCan,
        task?_perform_of_ne (task?_eq_some.mp h.first).1 hne hother]
      exact hcan
    · cases hcan
  | waiting lock =>
    rw [hs] at hcan
    have hlock : b.lock? = some lock := by rw [TaskFrame.lock?, hs]
    dsimp only at hcan ⊢
    rwa [Dictionary.has, h.holders hlock]
  | _ => rw [hs] at hcan; cases hcan

/-- **The effect of the other step is the same after this one.** -/
theorem Rivals.step (h : m.Rivals t u a b) :
    (m.step t).2.step u = (m.effect u b).perform u (m.step t).2 := by
  rw [step_eq_perform h.task? h.canStep,
    effect_congr (fun _ => h.memory) (fun _ => h.holders) h.count]

/-- A place is renamed in what is seen of a step on it. -/
theorem result_relocate {r : Report} {σ : Location → Location} {f g : Place → Location}
    (hplain : ∀ o, r = .shows o → o.relocate σ = o) (h : ∀ p ∈ r.place?, f p = σ (g p)) :
    r.result id f = (r.result id g).map (List.map (Observation.relocate σ)) := by
  cases r with
  | fault e => rfl
  | silent => rfl
  | shows o =>
    have ho := hplain o rfl
    simp only [Report.result, Except.map, List.map_cons, List.map_nil, ho]
  | accesses kind p =>
    simp only [Report.result, Except.map, List.map_cons, List.map_nil, Observation.relocate_memory]
    rw [h p rfl]

/-- What is seen of a step that is on no variable and on no lock has no location. -/
theorem relocate_of_shows {o : Observation} {σ : Location → Location}
    (h : (m.effect t a).report = .shows o) : o.relocate σ = o := by
  have hfailing : ∀ (frame : TaskFrame) (message : String),
      (failing t frame message).report = .shows o → o.relocate σ = o := by
    intro frame message h
    cases h
    rfl
  revert h
  unfold effect effectReady
  split
  · rintro ⟨⟩
  · rintro ⟨⟩
    rfl
  · split
    · rintro ⟨⟩
    · exact hfailing _ _
    · split
      · rintro ⟨⟩
        rfl
      · rename_i i _
        cases i <;> simp only [effectOf] <;> (repeat' split) <;>
          first | exact hfailing _ _ | (rintro ⟨⟩; rfl) | rintro ⟨⟩

/-- Machines in the same state, up to the numbers of places. -/
structure Agrees (m m' : Machine) : Prop where
  program : m'.program = m.program
  tasks : m'.tasks = m.tasks
  memory : ∀ name, m'.memory.get? name = m.memory.get? name
  holders : ∀ lock, m'.holders.get? lock = m.holders.get? lock

/-- The steps of two tasks may be taken in either order: first `t` and then `u`, or first `u` and
then `t`, with the locations renamed. -/
structure Commutes (m : Machine) (t u : Int) (σ : Equiv.Perm Location) : Prop where
  first : (m.step t).2.isActive u = true
  second : (m.step u).2.isActive t = true
  seenFirst : ((m.step u).2.step t).1 = (m.step t).1.map (List.map (Observation.relocate σ))
  seenSecond : (m.step u).1 = ((m.step t).2.step u).1.map (List.map (Observation.relocate σ))
  machine : Agrees ((m.step t).2.step u).2 ((m.step u).2.step t).2

theorem Rivals.isActive (h : m.Rivals t u a b) : (m.step t).2.isActive u = true := by
  rw [Machine.isActive, h.task?]
  exact h.canStep

/-- A change of one task and a change of another one, with at most one new task. -/
theorem set_append_comm {α : Type} {i j : Nat} {l s s' : List α} {x y : α} (hne : i ≠ j)
    (hi : i < l.length) (hj : j < l.length) (h : s = [] ∨ s' = []) :
    (l.set i x ++ s).set j y ++ s' = (l.set j y ++ s').set i x ++ s := by
  rw [List.set_append_left _ _ (by simpa using hj), List.set_append_left _ _ (by simpa using hi),
    List.set_comm _ _ hne, List.append_assoc, List.append_assoc]
  rcases h with rfl | rfl <;> simp

/-- Stores to different variables. -/
theorem get?_memory_comm {e f : Effect}
    (h : ∀ name v w, e.stored = some (name, v) → f.stored ≠ some (name, w)) (d : Dictionary Value)
    (name : String) :
    (f.memory (e.memory d)).get? name = (e.memory (f.memory d)).get? name := by
  by_cases he : ∃ v, e.stored = some (name, v)
  · obtain ⟨v, he⟩ := he
    rw [get?_memory_of_ne fun w => h name v w he, get?_memory_of_eq he, get?_memory_of_eq he]
  · have he' : ∀ v, e.stored ≠ some (name, v) := fun v hv => he ⟨v, hv⟩
    by_cases hf : ∃ w, f.stored = some (name, w)
    · obtain ⟨w, hf⟩ := hf
      rw [get?_memory_of_ne he', get?_memory_of_eq hf, get?_memory_of_eq hf]
    · have hf' : ∀ w, f.stored ≠ some (name, w) := fun w hw => hf ⟨w, hw⟩
      rw [get?_memory_of_ne he', get?_memory_of_ne hf', get?_memory_of_ne hf',
        get?_memory_of_ne he']

/-- Turns of different locks. -/
theorem get?_holders_comm {e f : Effect}
    (h : ∀ lock x y, e.turned = some (lock, x) → f.turned ≠ some (lock, y)) (d : Dictionary Int)
    (lock : String) :
    (f.holders (e.holders d)).get? lock = (e.holders (f.holders d)).get? lock := by
  by_cases he : ∃ x, e.turned = some (lock, x)
  · obtain ⟨x, he⟩ := he
    rw [get?_holders_of_ne fun y => h lock x y he, get?_holders_of_eq he, get?_holders_of_eq he]
  · have he' : ∀ x, e.turned ≠ some (lock, x) := fun x hx => he ⟨x, hx⟩
    by_cases hf : ∃ y, f.turned = some (lock, y)
    · obtain ⟨y, hf⟩ := hf
      rw [get?_holders_of_ne he', get?_holders_of_eq hf, get?_holders_of_eq hf]
    · have hf' : ∀ y, f.turned ≠ some (lock, y) := fun y hy => hf ⟨y, hy⟩
      rw [get?_holders_of_ne he', get?_holders_of_ne hf', get?_holders_of_ne hf',
        get?_holders_of_ne he']

/-- Both orders lead to the same state. -/
theorem Rivals.agrees (h : m.Rivals t u a b) :
    Agrees ((m.step t).2.step u).2 ((m.step u).2.step t).2 := by
  obtain ⟨ht, ha⟩ := task?_eq_some.mp h.first
  obtain ⟨hu, hb⟩ := task?_eq_some.mp h.second
  rw [h.step, h.symm.step, step_eq_perform h.first h.firstCan, step_eq_perform h.second h.secondCan]
  simp only [perform_snd]
  refine ⟨by simp [Effect.apply], ?_, fun name => ?_, fun lock => ?_⟩
  · simp only [touched_tasks, Effect.apply, touched_program]
    refine (set_append_comm ?_ (List.getElem?_eq_some_iff.mp ha).1
      (List.getElem?_eq_some_iff.mp hb).1 ?_).symm
    · have := h.ne
      omega
    · cases hsa : (m.effect t a).spawned with
      | none => exact .inl rfl
      | some thread =>
        cases hsb : (m.effect u b).spawned with
        | none => exact .inr rfl
        | some thread' =>
          exact absurd ⟨spawns_of_spawned hsa, spawns_of_spawned hsb⟩ h.independent.spawns
  · simp only [touched_memory, Effect.apply]
    refine (get?_memory_comm (fun name v w he hf => ?_) m.memory name).symm
    obtain ⟨hvar, hwrites⟩ := cell?_of_stored he
    rw [(h.independent.memory name hvar (cell?_of_stored hf).1).1] at hwrites
    cases hwrites
  · simp only [touched_holders, Effect.apply]
    exact (get?_holders_comm (fun lock x y he hf =>
      h.independent.locks lock (lock?_of_turned he) (lock?_of_turned hf)) m.holders lock).symm

/-- **Independent steps commute.** Two different active tasks whose next steps do not both spawn,
are not about the same lock, and are about the same variable only to read it, may step in either
order. -/
theorem commutes_of_independent (hne : t ≠ u) (ha : m.task? t = some a) (hb : m.task? u = some b)
    (hat : m.isActive t = true) (hbu : m.isActive u = true) (h : Independent a b) :
    ∃ σ, m.Commutes t u σ := by
  have hca : m.canStep a = true := by rwa [isActive, ha] at hat
  have hcb : m.canStep b = true := by rwa [isActive, hb] at hbu
  have hrivals : m.Rivals t u a b := ⟨hne, ha, hb, hca, hcb, h⟩
  obtain ⟨σ, hfirst, hsecond⟩ :=
    exists_renaming m (m.effect t a).report.place? (m.effect u b).report.place?
  refine ⟨σ, hrivals.isActive, hrivals.symm.isActive, ?_, ?_, hrivals.agrees⟩
  · rw [hrivals.symm.step, step_eq_perform ha hca, step_eq_perform hb hcb, perform_fst, perform_fst]
    refine result_relocate (fun o ho => relocate_of_shows ho) fun p hp => ?_
    rw [touch_perform]
    exact hfirst p hp
  · rw [hrivals.step, step_eq_perform ha hca, step_eq_perform hb hcb, perform_fst, perform_fst]
    refine result_relocate (fun o ho => relocate_of_shows ho) fun p hp => ?_
    rw [touch_perform]
    exact hsecond p hp

/-- Two tasks, each of which is about to write a variable of its own. -/
def twoWriters : Machine :=
  let writer (thread shared : String) : TaskFrame :=
    { thread, code := [.write shared (.literal .zero)], position := 0, state := .ready,
      registers := .empty,
      children := .empty }
  { program := .empty, tasks := [writer "main" "x", writer "t" "y"]
    memory := .ofList [("x", .zero), ("y", .zero)], holders := .empty, places :=
      [], lastLocation := 0 }

/-- The two writes of `Interleaving.Machine.twoWriters` get their locations in the order in which
they come. -/
theorem commutes_twoWriters : ∃ σ, twoWriters.Commutes 1 2 σ :=
  commutes_of_independent (by decide) rfl rfl (by decide) (by decide) (by decide)

end Machine

end Interleaving
