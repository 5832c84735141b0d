import Interleaving.Proofs.Event.Observed
import Interleaving.Proofs.Exploration.Guiding
import Interleaving.Proofs.Machine.Deadlock
import Interleaving.Proofs.Machine.Renumbering
import Interleaving.Proofs.Search.Bound

/-!
# Reported errors are real

A run drives the machine along a schedule: whatever the engine asks for, the machine of a run stays
one that the program can come to (`Interleaving.Run.Explores`). So **every error that a search
reports is one that the program shows along some schedule**
(`Interleaving.Program.explains_of_reported`): an assertion that does not hold, with the reported
message, or a deadlock. Programs with assumptions are left out, because an assumption is the only
event of a run without a location.
-/

namespace Interleaving

/-! ### Observations and events -/

namespace Observation

/-- The events of a step on memory have the location of the step. -/
theorem hasLocation_of_memory {o : Observation} {f : Location → List Event} {es : List Event}
    (h : o.location?.map f = .ok es)
    (hf : ∀ loc, ∀ e ∈ f loc, e.location = loc ∧ e.kind ≠ .error) {e : Event} (he : e ∈ es) :
    e.kind ≠ .error ∧ e.hasLocation = true := by
  cases hloc : o.location? with
  | error cause =>
    rw [hloc] at h
    cases h
  | ok loc =>
    rw [hloc] at h
    cases h
    obtain ⟨heq, hkind⟩ := hf loc e he
    refine ⟨hkind, ?_⟩
    have hpos := location?_pos hloc
    rw [Event.hasLocation, heq]
    exact bne_iff_ne.mpr (Int.ne_of_gt hpos)

/-- **Events and errors.** An event of an observation other than an assumption is the error of a
failed assertion, with its message, or it ends the run, or it has a location. -/
theorem event_cases {o : Observation} (ho : o.kind ≠ .assume) {es : List Event}
    (h : o.events = .ok es) {e : Event} (he : e ∈ es) :
    (e.kind ≠ .error ∧ (e.kind = .finish ∨ e.hasLocation = true)) ∨
      (e.kind = .error ∧ o.kind = .assertFailure ∧
        e.message = (o.parameters.text? Event.messageName).getD "") := by
  have hmemory : e.kind ≠ .error ∧ e.hasLocation = true →
      e.kind ≠ .error ∧ (e.kind = .finish ∨ e.hasLocation = true) := fun h => ⟨h.1, Or.inr h.2⟩
  unfold events at h
  split at h
  · cases h
  · dsimp only at h
    split at h
    · split at h
      · cases h
        rw [List.mem_singleton.mp he]
        exact Or.inl ⟨by simp [Event.set, Event.new], Or.inr rfl⟩
      · cases h
    · cases h
      rw [List.mem_singleton.mp he]
      exact Or.inl ⟨by simp [Event.new], Or.inr rfl⟩
    · split at h
      · cases h
        rw [List.mem_singleton.mp he]
        exact Or.inl ⟨by simp [Event.set, Event.new], Or.inr rfl⟩
      · cases h
    · exact Or.inl (hmemory (hasLocation_of_memory h (by simp [Event.new]) he))
    · exact Or.inl (hmemory (hasLocation_of_memory h
        (by simp [Event.new, withValue_kind, withValue_location]) he))
    · exact Or.inl (hmemory (hasLocation_of_memory h
        (by simp [Event.new, withValue_kind, withValue_location]) he))
    · exact Or.inl (hmemory (hasLocation_of_memory h (by simp [Event.new]) he))
    · exact Or.inl (hmemory (hasLocation_of_memory h (by simp [Event.new]) he))
    · exact Or.inl (hmemory (hasLocation_of_memory h (by simp [Event.new]) he))
    · rename_i hkind
      exact absurd hkind ho
    · rename_i hkind
      cases h
      rw [List.mem_singleton.mp he]
      exact Or.inr ⟨rfl, hkind, rfl⟩
    · cases h
      rw [List.mem_singleton.mp he]
      exact Or.inl ⟨by simp [Event.new], Or.inl rfl⟩
    · cases h

end Observation

/-! ### The scheduler -/

namespace Scheduler

/-- A scheduler that explores: it follows no trace and its schedule only runs tasks. -/
structure Explores (s : Scheduler) : Prop where
  replaying : s.replaying = false
  steers : s.engine.Steers

theorem Explores.updateEvents {s : Scheduler} (h : s.Explores) (es : List Event) :
    (s.updateEvents es).2.Explores := by
  induction es generalizing s with
  | nil => exact h
  | cons e more ih =>
    have hnext : Explores { s with engine := (s.engine.update e).2 } :=
      ⟨h.replaying, h.steers.update e⟩
    unfold Scheduler.updateEvents
    rw [if_neg (by simp [h.replaying])]
    dsimp only
    split
    · exact hnext
    · split
      · exact ih hnext
      · exact hnext

/-- What ends a run with an error is an error among the events. -/
theorem Explores.updateEvents_haltError {s : Scheduler} (h : s.Explores) {es : List Event}
    {message : String}
    (hes : ∀ e ∈ es, e.kind = .error ∨ e.kind = .finish ∨ e.hasLocation = true)
    (hu : (s.updateEvents es).1 = .ok (.haltError message)) :
    ∃ e ∈ es, e.kind = .error ∧ message = e.message := by
  induction es generalizing s with
  | nil => cases hu
  | cons e more ih =>
    have hnext : Explores { s with engine := (s.engine.update e).2 } :=
      ⟨h.replaying, h.steers.update e⟩
    unfold Scheduler.updateEvents at hu
    rw [if_neg (by simp [h.replaying])] at hu
    dsimp only at hu
    split at hu
    · cases hu
    · rename_i outcome houtcome
      split at hu
      · obtain ⟨e', he', hkind⟩ := ih hnext (fun e he => hes e (List.mem_cons_of_mem _ he)) hu
        exact ⟨e', List.mem_cons_of_mem _ he', hkind⟩
      · cases hu
        exact ⟨e, List.mem_cons_self,
          Engine.update_haltError h.steers (hes e List.mem_cons_self) houtcome⟩

theorem Explores.update {s : Scheduler} (h : s.Explores) (o : Observation) :
    (s.update o).2.Explores := by
  unfold Scheduler.update
  split
  · exact h
  · exact h.updateEvents _

/-- **A run ends with an error only at a failed assertion**, whose message it has. -/
theorem Explores.update_haltError {s : Scheduler} (h : s.Explores) {o : Observation}
    (ho : o.kind ≠ .assume) {message : String}
    (hu : (s.update o).1 = .ok (.haltError message)) :
    o.kind = .assertFailure ∧ message = (o.parameters.text? Event.messageName).getD "" := by
  unfold Scheduler.update at hu
  split at hu
  · cases hu
  · rename_i es hes
    have hcases := fun e (he : e ∈ es) => Observation.event_cases ho hes he
    obtain ⟨e, he, hkind, rfl⟩ := h.updateEvents_haltError (fun e he => by
      rcases hcases e he with ⟨-, h⟩ | ⟨h, -⟩
      · exact Or.inr h
      · exact Or.inl h) hu
    rcases hcases e he with ⟨hnot, -⟩ | ⟨-, hfailure, hmessage⟩
    · exact absurd hkind hnot
    · exact ⟨hfailure, hmessage⟩

theorem Explores.next {s : Scheduler} (h : s.Explores) (active : List Int) :
    (s.next active).2.Explores := by
  have hpick : ∀ {s : Scheduler}, s.Explores → (s.pick active).2.Explores := by
    intro s h
    unfold Scheduler.pick
    split
    · exact h
    · split
      · exact h
      · exact ⟨h.replaying, h.steers⟩
  have hchoose : (s.choose active).2.Explores := by
    unfold Scheduler.choose
    rw [if_neg (by simp [h.replaying])]
    have hsteers := h.steers.nextDirective
    split
    · rename_i d engine hd
      rw [hd] at hsteers
      exact ⟨h.replaying, hsteers⟩
    · rename_i engine hd
      rw [hd] at hsteers
      exact hpick ⟨h.replaying, hsteers⟩
  unfold Scheduler.next
  split
  · rename_i d s' hd
    rw [hd] at hchoose
    exact ⟨hchoose.replaying, hchoose.steers⟩
  · rename_i s' hd
    rw [hd] at hchoose
    exact hchoose

theorem Explores.dump {s s' : Scheduler} {stage : String} {n : Int} (h : s.Explores)
    (hd : s.dump stage n = .ok s') : s'.Explores := by
  unfold Scheduler.dump at hd
  dsimp only at hd
  split at hd
  · cases hd
    exact ⟨h.replaying, h.steers⟩
  · cases hd

/-- A new scheduler explores. -/
theorem explores_new {cfg : SchedulerConfig} {files : Files} {s : Scheduler}
    (h : Scheduler.new cfg files = .ok s) : s.Explores := by
  have hinitial : Engine.initial.Steers := fun x hx => by cases hx
  unfold Scheduler.new at h
  split at h
  · cases h
  · dsimp only at h
    split at h
    · cases h
      exact ⟨rfl, hinitial⟩
    · split at h
      · cases h
      · cases h
        exact ⟨rfl, hinitial⟩

theorem Explores.startRun? {fuel : Nat} {s s' : Scheduler} {n : Int}
    {outcome : Except Error Outcome} (h : s.Explores)
    (hs : s.startRun? fuel n = some (outcome, s')) : s'.Explores := by
  unfold Scheduler.startRun? at hs
  dsimp only at hs
  rw [if_neg (by simp [h.replaying])] at hs
  obtain ⟨result, hstart, hprepared⟩ := Option.map_eq_some_iff.mp hs
  obtain ⟨answer, engine⟩ := result
  have hready : Explores { s with executed := [], engine } :=
    ⟨h.replaying, h.steers.startRun? hstart⟩
  cases answer with
  | error e =>
    cases hprepared
    exact hready
  | ok outcome =>
    unfold prepared at hprepared
    dsimp only at hprepared
    split at hprepared
    · split at hprepared
      · rename_i hd
        cases hprepared
        exact hready.dump hd
      · cases hprepared
        exact hready
    · cases hprepared
      exact hready

/-- Writing a trace changes only files. -/
theorem eq_of_recordTrace {s s' : Scheduler} {path : String} {ds : List Directive}
    (h : s.recordTrace path (some ds) = .ok s') : ∃ files, s' = { s with files } := by
  unfold recordTrace at h
  simp only [bind, Except.bind, pure, Except.pure] at h
  split at h
  · cases h
    exact ⟨_, rfl⟩
  · cases h

theorem Explores.finishRun {s : Scheduler} (h : s.Explores) (n : Int) (completed : Bool) :
    (s.finishRun n completed).2.Explores := by
  have hreset : Explores { s with engine := s.engine.resetRun } :=
    ⟨h.replaying, s.engine.steers_resetRun⟩
  unfold Scheduler.finishRun
  rw [if_neg (by simp [h.replaying])]
  dsimp only
  split
  · exact hreset
  · split
    · exact hreset
    · rename_i s' hd
      have hs' := hreset.dump hd
      split
      · exact hs'
      · split <;> exact hs'

end Scheduler

/-! ### Runs -/

namespace Program

/-- A message is explained by a schedule of the program: it is that of an assertion that fails along
the schedule, or it is that of a deadlock and the schedule ends in one. -/
def Explains (p : Program) (message : String) : Prop :=
  (∃ ids seen m, p.start.follow? ids = some (seen, m) ∧
      ∃ o ∈ seen, o.kind = .assertFailure ∧
        (o.parameters.text? Event.messageName).getD "" = message) ∨
    (message = Run.deadlockMessage ∧ ∃ m, p.Reaches m ∧ m.isDeadlocked = true)

/-- A failed assertion of some run explains its message. -/
theorem explains_of_run {p : Program} {n : Int} {ids : List Int} {seen : List Observation}
    {m : Machine} (hf : ((Machine.ofProgram p).reset n).2.follow? ids = some (seen, m))
    {o : Observation} (ho : o ∈ seen) (hkind : o.kind = .assertFailure) :
    p.Explains ((o.parameters.text? Event.messageName).getD "") := by
  obtain ⟨seen', m', hf', -, hblind⟩ := (Machine.alike_reset (Machine.ofProgram p) n 0).follow? hf
  have hmem : o.blind ∈ seen'.map Observation.blind := hblind ▸ List.mem_map_of_mem ho
  obtain ⟨o', ho', heq⟩ := List.mem_map.mp hmem
  have htext : ∀ o : Observation, o.blind.parameters.text? Event.messageName =
      o.parameters.text? Event.messageName := by
    intro o
    unfold Attributes.text? Observation.blind
    rw [Dictionary.get?_erase_of_ne _ (by decide)]
  refine Or.inl ⟨ids, seen', m', hf', o', ho', ?_, ?_⟩
  · exact (congrArg Observation.kind heq :).trans hkind
  · rw [← htext o', ← htext o, heq]

end Program

/-- Only an assumption is observed as one. -/
theorem Machine.Takes.not_assume {p : Program} {kinds : List OperationKind} {m m' : Machine}
    {id : Int} {seen : List Observation} (h : Machine.Takes m id seen m') (hr : m.Runs p)
    (hp : p.usesOnly kinds = true) (hkinds : OperationKind.assume ∉ kinds) {o : Observation}
    (ho : o ∈ seen) : o.kind ≠ .assume := by
  cases h with
  | joins h hchild => cases ho
  | assume h hv => exact absurd (h.kind_mem hr hp) hkinds
  | _ =>
    rw [List.mem_singleton.mp ho]
    simp [Observation.memory, Observation.threadJoin, Observation.assertFailure,
      Observation.threadFinish, Observation.threadStart]

namespace Run

variable {p : Program} {kinds : List OperationKind} {n : Int}

/-- A run that explores: its machine has followed some schedule. -/
structure Explores (p : Program) (n : Int) (r : Run) : Prop where
  scheduler : r.scheduler.Explores
  machine : ∃ ids seen, ((Machine.ofProgram p).reset n).2.follow? ids = some (seen, r.machine)

theorem Explores.runs {r : Run} (h : r.Explores p n) : r.machine.Runs p := by
  obtain ⟨ids, seen, hf⟩ := h.machine
  exact (Machine.runs_reset p n).follow? hf

/-- How a run stands, such that an error at its end is explained. -/
def Sound (p : Program) (n : Int) : Progress × Run → Prop
  | (.going, r) => r.Explores p n
  | (.ended status message, r) => r.Explores p n ∧ (status = .bug → p.Explains message)
  | (.failed _, _) => True

/-- The end of a run by an outcome is explained when an error is. -/
theorem sound_endBy {r : Run} (h : r.Explores p n) {o : Outcome}
    (ho : ∀ message, o = .haltError message → p.Explains message) : Sound p n (endBy o, r) := by
  refine ⟨h, fun hbug => ?_⟩
  cases o with
  | haltError message => exact ho message rfl
  | _ => cases hbug

/-- Telling the scheduler what was observed keeps a run sound. -/
theorem Explores.tell {r : Run} (h : r.Explores p n) (ending : Outcome → Bool)
    {obs : List Observation}
    (hobs : ∀ o ∈ obs, o.kind ≠ .assume ∧
      (o.kind = .assertFailure → p.Explains ((o.parameters.text? Event.messageName).getD ""))) :
    Sound p n (r.tell ending obs) := by
  induction obs generalizing r with
  | nil => exact h
  | cons o rest ih =>
    have hnext : Explores p n { r with scheduler := (r.scheduler.update o).2 } :=
      ⟨h.scheduler.update o, h.machine⟩
    obtain ⟨hassume, hfailure⟩ := hobs o List.mem_cons_self
    unfold Run.tell
    split
    · exact True.intro
    · rename_i outcome scheduler hu
      rw [hu] at hnext
      dsimp only
      split
      · refine sound_endBy hnext ?_
        rintro message rfl
        obtain ⟨hkind, rfl⟩ := h.scheduler.update_haltError hassume (by rw [hu])
        exact hfailure hkind
      · exact ih hnext fun o ho => hobs o (List.mem_cons_of_mem _ ho)

/-- A step of a task keeps a run sound. -/
theorem Explores.stepTask {r : Run} (h : r.Explores p n) (hp : p.usesOnly kinds = true)
    (hkinds : OperationKind.assume ∉ kinds) (task : Int) : Sound p n (r.stepTask task) := by
  unfold Run.stepTask
  split
  · exact True.intro
  · rename_i observed machine hstep
    have htakes := Machine.takes_of_step hstep
    obtain ⟨ids, seen, hf⟩ := h.machine
    have hf' : ((Machine.ofProgram p).reset n).2.follow? (ids ++ [task]) =
        some (seen ++ observed, machine) := by
      rw [Machine.follow?_append, hf, Option.bind_some, Machine.follow?_cons_of_step hstep]
      simp [Machine.follow?]
    have hr : Explores p n { r with machine } := ⟨h.scheduler, _, _, hf'⟩
    refine hr.tell ends fun o ho => ⟨?_, fun hkind => ?_⟩
    · exact htakes.not_assume h.runs hp hkinds ho
    · exact Program.explains_of_run hf' (List.mem_append_right _ ho) hkind

/-- Reporting the end of a run keeps it sound. -/
theorem Explores.close {r : Run} (h : r.Explores p n) {o : Observation} (hassume : o.kind ≠ .assume)
    (hfailure : o.kind = .assertFailure →
      p.Explains ((o.parameters.text? Event.messageName).getD "")) : Sound p n (r.close o) := by
  have hnext := h.scheduler.update o
  unfold Run.close
  split
  · exact True.intro
  · rename_i outcome scheduler hu
    rw [hu] at hnext
    have hr : Explores p n { r with scheduler } := ⟨hnext, h.machine⟩
    refine sound_endBy hr ?_
    rintro message rfl
    obtain ⟨hkind, rfl⟩ := h.scheduler.update_haltError hassume (by rw [hu])
    exact hfailure hkind

/-- **A turn keeps a run sound.** -/
theorem Explores.advance {r : Run} (h : r.Explores p n) (hp : p.usesOnly kinds = true)
    (hkinds : OperationKind.assume ∉ kinds) : Sound p n r.advance := by
  have hnext := h.scheduler.next r.machine.active
  unfold Run.advance
  dsimp only
  split
  · rename_i d scheduler hd
    rw [hd] at hnext
    have hr : Explores p n { r with scheduler } := ⟨hnext, h.machine⟩
    unfold Run.follow
    split
    · exact hr
    · exact ⟨hr, fun hbug => by cases hbug⟩
    · exact hr
    · split
      · exact hr.stepTask hp hkinds _
      · exact True.intro
  · rename_i scheduler hd
    rw [hd] at hnext
    have hr : Explores p n { r with scheduler } := ⟨hnext, h.machine⟩
    split
    · exact hr.close (by simp [Observation.halt]) (by simp [Observation.halt])
    · rename_i hdone
      split
      · rename_i hempty
        refine hr.close (by simp [Observation.assertFailure]) fun _ => ?_
        obtain ⟨ids, seen, hf⟩ := h.machine
        obtain ⟨m', hreach, halike⟩ := Program.reaches_of_run hf
        refine Or.inr ⟨rfl, m', hreach, ?_⟩
        rw [← halike.isDeadlocked, Machine.isDeadlocked, hempty]
        simpa using hdone
      · exact ⟨hr, fun hbug => by cases hbug⟩

/-- A run is sound up to its end. -/
theorem Sound.finish {x y : Progress × Run} {fuel : Nat} (h : Sound p n x)
    (hp : p.usesOnly kinds = true) (hkinds : OperationKind.assume ∉ kinds)
    (hf : Run.finish fuel x = some y) : Sound p n y := by
  induction fuel generalizing x with
  | zero => cases hf
  | succ fuel ih =>
    obtain ⟨progress, r⟩ := x
    cases progress with
    | going => exact ih (Explores.advance h hp hkinds) hf
    | ended status message =>
      cases hf
      exact h
    | failed e =>
      cases hf
      exact h

/-- A run of a program is sound from the start. -/
theorem sound_start {r : Run} (hs : r.scheduler.Explores) (hm : r.machine.program = p) (n : Int) :
    Sound p n (r.start n) := by
  have hreset : (r.machine.reset n).2 = ((Machine.ofProgram p).reset n).2 := by
    unfold Machine.reset Machine.ofProgram
    rw [hm]
  have hr : Explores p n { r with machine := (r.machine.reset n).2 } := by
    refine ⟨hs, [], [], ?_⟩
    rw [← hreset]
    rfl
  refine hr.tell _ ?_
  · intro o ho
    rw [show o = Observation.threadStart 1 0 from List.mem_singleton.mp ho]
    simp [Observation.threadStart]

end Run

/-! ### Searches -/

namespace Search

variable {p : Program} {kinds : List OperationKind} {cfg : Config}

/-- A search whose reported errors are explained. -/
structure Sound (p : Program) (s : Search) : Prop where
  scheduler : s.run.scheduler.Explores
  program : s.run.machine.program = p
  bugs : ∀ b ∈ s.result.bugs, p.Explains b.message

theorem publish_run (s : Search) (n : Int) (status : Status) :
    (s.publish n status).run = s.run := by
  cases hr : s.run.scheduler.replaying <;> simp [publish, recordGraph, hr]

theorem publish_result (s : Search) (n : Int) (status : Status) :
    (s.publish n status).result = s.result := by
  cases hr : s.run.scheduler.replaying <;> simp [publish, recordGraph, hr]

/-- Closing a run keeps a search sound. -/
theorem Sound.closeRun {s : Search} (h : s.Sound p) (n : Int) (status : Status) :
    (s.closeRun n status).2.Sound p := by
  have hpublished : Sound p (publish { s with result := s.result.count status } n status) := by
    refine ⟨?_, ?_, ?_⟩
    · rw [publish_run]
      exact h.scheduler
    · rw [publish_run]
      exact h.program
    · rw [publish_result]
      exact h.bugs
  have hfinished := hpublished.scheduler.finishRun n (status = .ok)
  unfold Search.closeRun
  dsimp only
  split
  · exact ⟨hfinished, hpublished.program, hpublished.bugs⟩
  · exact ⟨hfinished, hpublished.program, hpublished.bugs⟩

/-- Noting an error that is explained keeps a search sound. -/
theorem Sound.noteBug {s : Search} (h : s.Sound p) (cfg : Config) (n : Int) {message : String}
    (hmessage : p.Explains message) : (s.noteBug cfg n message).2.Sound p := by
  have hbugs : ∀ b ∈ s.result.bugs ++ [(⟨n, message, s.run.scheduler.executed,
      s.run.machine.reports⟩ : Bug)], p.Explains b.message := by
    intro b hb
    rcases List.mem_append.mp hb with hb | hb
    · exact h.bugs b hb
    · rw [List.mem_singleton.mp hb]
      exact hmessage
  unfold Search.noteBug
  dsimp only
  split
  · split
    · exact ⟨h.scheduler, h.program, hbugs⟩
    · rename_i scheduler hrecord
      obtain ⟨files, rfl⟩ := Scheduler.eq_of_recordTrace hrecord
      exact ⟨⟨h.scheduler.replaying, h.scheduler.steers⟩, h.program, hbugs⟩
  · exact ⟨h.scheduler, h.program, hbugs⟩

/-- What comes of a run: a search that is sound, or one that is over and whose reports are
explained. -/
def SoundAfter (p : Program) : Except Finished Search → Prop
  | .ok s => s.Sound p
  | .error f => ∀ b ∈ f.search.result.bugs, p.Explains b.message

/-- A run keeps a search sound. -/
theorem Sound.doRun? {s : Search} {fuel n : Nat} {r : Except Finished Search} (h : s.Sound p)
    (hp : p.usesOnly kinds = true) (hkinds : OperationKind.assume ∉ kinds)
    (hr : Search.doRun? cfg fuel s n = some r) : SoundAfter p r := by
  obtain ⟨⟨progress, run⟩, hfinish, hrest⟩ := Option.bind_eq_some_iff.mp hr
  have hsound := (Run.sound_start h.scheduler h.program n).finish hp hkinds hfinish
  dsimp only at hrest
  cases progress with
  | going => cases hrest
  | failed e =>
    cases hrest
    exact h.bugs
  | ended status message =>
    obtain ⟨hexplores, hbug⟩ := hsound
    have hrun : Sound p { s with run } := ⟨hexplores.scheduler, hexplores.runs.program, h.bugs⟩
    have hclosed := hrun.closeRun n status
    dsimp only at hrest
    split at hrest
    · cases hrest
      exact hclosed.bugs
    · split at hrest
      · rename_i hstatus
        have hnoted := hclosed.noteBug cfg n (hbug hstatus)
        split at hrest
        · cases hrest
          exact hnoted.bugs
        · cases hrest
          split
          · exact hnoted.bugs
          · exact hnoted
      · cases hrest
        exact hclosed

/-- All that a search reports is explained. -/
theorem Sound.loop {s : Search} {fuel n : Nat} {f : Finished} (h : s.Sound p)
    (hp : p.usesOnly kinds = true) (hkinds : OperationKind.assume ∉ kinds)
    (hl : Search.loop cfg fuel n s = some f) : ∀ b ∈ f.search.result.bugs,
    p.Explains b.message := by
  induction fuel generalizing n s with
  | zero => cases hl
  | succ fuel ih =>
    rw [Search.loop] at hl
    split at hl
    · cases hl
      exact h.bugs
    · split at hl
      · cases hl
        exact h.bugs
      · obtain ⟨⟨outcome, scheduler⟩, hstart, hl⟩ := Option.bind_eq_some_iff.mp hl
        have hready : Sound p { s with run := { s.run with scheduler } } :=
          ⟨h.scheduler.startRun? hstart, h.program, h.bugs⟩
        dsimp only at hl
        split at hl
        · cases hl
          exact h.bugs
        · cases hl
          exact h.bugs
        · obtain ⟨r, hrun, hl⟩ := Option.bind_eq_some_iff.mp hl
          have hdone := hready.doRun? hp hkinds hrun
          cases r with
          | error finished =>
            cases hl
            exact hdone
          | ok s' => exact ih hdone hl

/-- **Every reported error is real**, for programs without assumptions: a schedule of the program
explains it. -/
theorem explained_of_run? {fuel : Nat} {files : Files} {f : Finished} (hp : p.usesOnly kinds = true)
    (hkinds : OperationKind.assume ∉ kinds) (hcfg : cfg.replayPath = "")
    (h : run? fuel p cfg files = some f) : ∀ b ∈ f.search.result.bugs, p.Explains b.message := by
  have hnone : ∀ (scheduler : Scheduler) (e : Error),
      ∀ b ∈ ((new p scheduler).breakOff e).search.result.bugs, p.Explains b.message := by
    intro scheduler e b hb
    cases hb
  unfold run? at h
  split at h
  · rename_i finished hprepare
    cases h
    unfold prepare at hprepare
    rw [hcfg] at hprepare
    split at hprepare
    · cases hprepare
      exact hnone _ _
    · dsimp only at hprepare
      split at hprepare
      · cases hprepare
        exact hnone _ _
      · split at hprepare
        · cases hprepare
        · cases hprepare
          exact hnone _ _
  · rename_i s hprepare
    have hs : s.Sound p := by
      unfold prepare at hprepare
      rw [hcfg] at hprepare
      split at hprepare
      · cases hprepare
      · rename_i scheduler hnew
        dsimp only at hprepare
        split at hprepare
        · cases hprepare
        · rename_i loaded hloaded
          cases hloaded
          split at hprepare
          · cases hprepare
            exact ⟨Scheduler.explores_new hnew, rfl, fun b hb => by cases hb⟩
          · cases hprepare
    exact hs.loop hp hkinds h

end Search

end Interleaving
