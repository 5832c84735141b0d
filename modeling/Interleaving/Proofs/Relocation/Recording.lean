import Interleaving.Exploration.Recording
import Interleaving.Proofs.Relocation.Revisit

/-!
# Recording after a renaming

Recording a renamed event in a renamed engine does what recording the event does, renamed: the same
alternatives go on the stack, the same task is blocked, and a rule of the engine is broken in the
same way if it is (`Interleaving.Engine.record_respects`).
-/

namespace Interleaving

/-- An alternative with all locations renamed. -/
def Alternative.relocate (ρ : Renaming) (item : Alternative) : Alternative :=
  { item with
    graph := item.graph.map (·.relocate ρ)
    additional := item.additional.map (·.relocate ρ) }

/-- A stack of alternatives with all locations renamed. -/
def Agenda.relocate (ρ : Renaming) (a : Agenda) : Agenda :=
  { a with items := a.items.map (·.relocate ρ) }

/-- A table of locations with all of them renamed. -/
def LocationTable.relocate (ρ : Renaming) (t : LocationTable) : LocationTable :=
  { known := t.known.map ρ, aliases := t.aliases.map fun p => (ρ p.1, ρ p.2) }

/-- An entry of a schedule with its location renamed. -/
def ScheduleEntry.relocate (ρ : Renaming) (e : ScheduleEntry) : ScheduleEntry :=
  { e with location := ρ e.location }

/-- An engine with all locations renamed. -/
def Engine.relocate (ρ : Renaming) (a : Engine) : Engine :=
  { a with
    graph := a.graph.relocate ρ
    agenda := a.agenda.relocate ρ
    locations := a.locations.relocate ρ
    guiding := a.guiding.map (·.relocate ρ) }

namespace Engine

variable (ρ : Renaming)

/-- A computation of the engine before and after a renaming. -/
abbrev StepRespects {α : Type} (φ : α → α) (x y : Step α) : Prop := Respects φ (relocate ρ) x y

namespace StepRespects

variable {α : Type}

/-- A change of the graph that commutes with renaming does so within an engine. -/
theorem modifyGraph {f f' : Graph → Graph} (h : ∀ g, f' (g.relocate ρ) = (f g).relocate ρ) :
    StepRespects ρ id (Engine.modifyGraph f) (Engine.modifyGraph f') :=
  Respects.of_modify fun a => by
    simp only [relocate, h]

/-- An edit of the graph that respects renaming does so within an engine. -/
theorem onGraph {φ : α → α} {edit edit' : Graph.Edit α} (h : Graph.EditRespects ρ φ edit edit') :
    StepRespects ρ φ (Engine.onGraph edit) (Engine.onGraph edit') := by
  intro a
  change Engine.onGraph edit' (a.relocate ρ) = mapResult φ (relocate ρ) (Engine.onGraph edit a)
  have hedit : edit'.run (a.relocate ρ).graph = mapResult φ (Graph.relocate ρ) (edit.run a.graph) :=
    h a.graph
  unfold Engine.onGraph
  rw [hedit]
  cases edit.run a.graph <;> rfl

/-- A change of the graph that may fail is made in the same way. -/
theorem changeGraph {f f' : Graph → Except Graph.Error Graph}
    (h : ∀ g, f' (g.relocate ρ) = (f g).map (Graph.relocate ρ)) :
    StepRespects ρ id (Engine.changeGraph f) (Engine.changeGraph f') :=
  onGraph ρ (BackwardRevisit.change_respects ρ h)

/-- A question about the graph has the renamed answer. -/
theorem ask {φ : α → α} {f f' : Graph → Except Graph.Error α}
    (h : ∀ g, f' (g.relocate ρ) = (f g).map φ) :
    StepRespects ρ φ (Engine.ask f) (Engine.ask f') := by
  refine Respects.get.bind fun a => ?_
  have hask : f' (a.relocate ρ).graph = (f a.graph).map φ := h a.graph
  rw [hask]
  cases f a.graph with
  | ok x => exact Respects.pure _
  | error e => exact Respects.throw _

/-- A question whose answer names no location. -/
theorem ask_same {f : Graph → Except Graph.Error α} (h : ∀ g, f (g.relocate ρ) = f g) :
    StepRespects ρ id (Engine.ask f) (Engine.ask f) :=
  ask ρ fun g => by rw [h]; cases f g <;> rfl

/-- A renamed alternative is put on top of the stack. -/
theorem push (item : Alternative) :
    StepRespects ρ id (Engine.push item) (Engine.push (item.relocate ρ)) :=
  Respects.of_modify fun _ => rfl

theorem requestBlock (task : Int) :
    StepRespects ρ id (Engine.requestBlock task) (Engine.requestBlock task) :=
  Respects.of_modify fun _ => rfl

end StepRespects

@[simp] theorem relocate_graph (a : Engine) : (a.relocate ρ).graph = a.graph.relocate ρ := (rfl)

/-! ### Putting alternatives on the stack -/

/-- Alternatives are put on the stack one after the other. -/
theorem pushEach_respects {build build' : Key → Graph → Alternative}
    (h : ∀ k g, build' k (g.relocate ρ) = (build k g).relocate ρ) (ks : List Key) :
    StepRespects ρ id (pushEach build ks) (pushEach build' ks) := by
  induction ks with
  | nil => exact Respects.pure _
  | cons k more ih =>
    refine Respects.get.bind fun a => ?_
    rw [relocate_graph, h]
    exact (StepRespects.push ρ _).bind fun _ => ih

/-- Renaming an alternative source of a read renames its graph and its events. -/
theorem readFrom_relocate (read write : Key) (additional : List Event) (g : Graph) :
    Alternative.readFrom read write (g.relocate ρ) (additional.map (·.relocate ρ)) =
      (Alternative.readFrom read write g additional).relocate ρ := by
  rw [Alternative.readFrom, Graph.relocate_copy]
  rfl

/-- Renaming an alternative place of a write renames its graph. -/
theorem writeBefore_relocate (moved before : Key) (g : Graph) :
    Alternative.writeBefore moved before (g.relocate ρ) =
      (Alternative.writeBefore moved before g).relocate ρ := by
  rw [Alternative.writeBefore, Graph.relocate_copy]
  rfl

/-- The same proposals for earlier reads are accepted. -/
theorem maximalRevisits_respects (write : Key) (reads : List Key) :
    StepRespects ρ (List.map (·.relocate ρ)) (maximalRevisits write reads)
      (maximalRevisits write reads) := by
  induction reads with
  | nil => exact Respects.pure _
  | cons r more ih =>
    refine Respects.get.bind fun a => ?_
    rw [relocate_graph, BackwardRevisit.relocate_new]
    cases BackwardRevisit.new a.graph write r with
    | error e => exact Respects.throw _
    | ok view =>
      simp only [Except.map, BackwardRevisit.relocate_isMaximal]
      cases view.isMaximal with
      | error e => exact Respects.throw _
      | ok accepted =>
        refine ih.bind fun views => ?_
        cases accepted <;> exact Respects.pure _

/-- A way to make an alternative of a revisit that keeps the locations. -/
def Relocates (build : Key → Graph → List Event → Alternative) : Prop :=
  ∀ k g es, build k (g.relocate ρ) (es.map (·.relocate ρ)) = (build k g es).relocate ρ

/-- An accepted proposal is put on the stack with its renamed graph. -/
theorem pushRevisit_respects {build : Key → Graph → List Event → Alternative}
    (h : Relocates ρ build) (view : BackwardRevisit) :
    StepRespects ρ id (pushRevisit view build) (pushRevisit (view.relocate ρ) build) := by
  have hadditional : (view.relocate ρ).additional.toList =
      view.additional.toList.map (·.relocate ρ) := by
    rw [BackwardRevisit.relocate]
    cases view.additional <;> rfl
  unfold pushRevisit
  rw [BackwardRevisit.relocate_restrict]
  cases view.restrict.2 with
  | error e => exact Respects.throw _
  | ok restricted =>
    simp only [Except.map, hadditional, BackwardRevisit.relocate_write, h view.write restricted _]
    exact StepRespects.push ρ _

theorem pushRevisits_respects {build : Key → Graph → List Event → Alternative}
    (h : Relocates ρ build) (views : List BackwardRevisit) :
    StepRespects ρ id (pushRevisits build views)
      (pushRevisits build (views.map (·.relocate ρ))) := by
  induction views with
  | nil => exact Respects.pure _
  | cons view more ih => exact (pushRevisit_respects ρ h view).bind fun _ => ih

/-! ### Recording an event -/

variable (e : Event)

/-- A read is recorded in the same way. -/
theorem recordRead_respects : StepRespects ρ id (recordRead e) (recordRead (e.relocate ρ)) := by
  refine (StepRespects.onGraph ρ (Graph.addEvent_respects ρ e)).bind fun read =>
    Respects.get.bind fun a => ?_
  simp only [relocate_graph, Event.relocate_location, Graph.relocate_lastWrite, id,
    Graph.relocate_happensBefore]
  by_cases hlast : a.graph.happensBefore (a.graph.lastWrite e.location) read = true
  · simp only [hlast, if_true]
    exact StepRespects.modifyGraph ρ fun g => Graph.relocate_setReadsFrom ρ g _ _
  · simp only [hlast]
    refine (StepRespects.modifyGraph ρ fun g => Graph.relocate_setReadsFrom ρ g _ _).bind
      fun _ => ?_
    have hadditional :
        (if e.kind = .readExclusive
          then [Event.new e.task .writeExclusive (ρ e.location)] else []) =
        (if e.kind = .readExclusive then [Event.new e.task .writeExclusive e.location] else []).map
          (·.relocate ρ) := by
      split <;> rfl
    simp only [Graph.relocate_alternativeWrites, Event.relocate_kind, Event.relocate_task,
      hadditional]
    exact pushEach_respects ρ (fun w g => readFrom_relocate ρ read w _ g) _

/-- A write is recorded in the same way. -/
theorem recordWrite_respects : StepRespects ρ id (recordWrite e) (recordWrite (e.relocate ρ)) := by
  refine (StepRespects.onGraph ρ (Graph.addEvent_respects ρ e)).bind fun write => ?_
  refine (StepRespects.ask_same ρ fun g => Graph.relocate_coherentPlacings ρ g write).bind
    fun placings => ?_
  refine (pushEach_respects ρ (fun before g => writeBefore_relocate ρ write before g) _).bind
    fun _ => ?_
  refine (StepRespects.ask_same ρ fun g => Graph.relocate_potentialReads ρ g write).bind
    fun reads => ?_
  refine (maximalRevisits_respects ρ write reads).bind fun views => ?_
  rw [← List.map_reverse]
  exact (pushRevisits_respects ρ (fun _ _ _ => rfl) _).bind fun _ =>
    StepRespects.modifyGraph ρ fun g => Graph.relocate_trackCoherency ρ g write

theorem pushExclusiveRevisits_respects (views : List BackwardRevisit) :
    StepRespects ρ id (pushExclusiveRevisits views)
      (pushExclusiveRevisits (views.map (·.relocate ρ))) := by
  induction views with
  | nil => exact Respects.pure _
  | cons view more ih =>
    have hpush : StepRespects ρ id
        (do
          pushRevisit view Alternative.backward
          pushExclusiveRevisits more)
        (do
          pushRevisit (view.relocate ρ) Alternative.backward
          pushExclusiveRevisits (more.map (·.relocate ρ))) :=
      (pushRevisit_respects ρ (fun _ _ _ => rfl) view).bind fun _ => ih
    refine Respects.get.bind fun a => ?_
    simp only [relocate_graph, BackwardRevisit.relocate_graph, BackwardRevisit.relocate_read,
      Graph.relocate_kindOf?, Graph.relocate_isBlocked]
    split
    · exact (StepRespects.modifyGraph ρ fun g => Graph.relocate_block ρ g _).bind fun _ => hpush
    · exact hpush

/-- The second half of an atomic update is recorded in the same way. -/
theorem recordExclusiveWrite_respects :
    StepRespects ρ id (recordExclusiveWrite e) (recordExclusiveWrite (e.relocate ρ)) := by
  refine (StepRespects.onGraph ρ (Graph.addEvent_respects ρ e)).bind fun write => ?_
  refine (StepRespects.ask_same ρ fun g => Graph.relocate_potentialReads ρ g write).bind
    fun reads => ?_
  refine (maximalRevisits_respects ρ write reads).bind fun views => ?_
  exact (StepRespects.modifyGraph ρ fun g => Graph.relocate_trackCoherency ρ g write).bind fun _ =>
    pushExclusiveRevisits_respects ρ views

/-- A request for a lock is recorded in the same way. -/
theorem recordLockRead_respects :
    StepRespects ρ id (recordLockRead e) (recordLockRead (e.relocate ρ)) := by
  refine Respects.get.bind fun a => Respects.get.bind fun b => ?_
  simp only [relocate_graph, Event.relocate_location, Event.relocate_task, Graph.relocate_lastWrite,
    Graph.relocate_kindOf?]
  split
  · exact (StepRespects.modifyGraph ρ fun g => Graph.relocate_blockForLock ρ g _ _).bind fun _ =>
      StepRespects.requestBlock ρ _
  · refine (StepRespects.onGraph ρ (Graph.addEvent_respects ρ e)).bind fun read =>
      Respects.get.bind fun c => ?_
    simp only [relocate_graph, id, Graph.relocate_happensBefore,
      Graph.relocate_alternativeLockWrites]
    split
    · exact StepRespects.modifyGraph ρ fun g => Graph.relocate_setReadsFrom ρ g _ _
    · refine (StepRespects.modifyGraph ρ fun g => Graph.relocate_setReadsFrom ρ g _ _).bind
        fun _ => ?_
      exact pushEach_respects ρ
        (fun w g => readFrom_relocate ρ read w [Event.new e.task .lockAcquireWrite e.location] g) _

/-- The request that belongs to an acquisition is found in the same way. -/
theorem pairedLockRead_respects (write : Key) :
    StepRespects ρ id (pairedLockRead write) (pairedLockRead write) := by
  refine Respects.get.bind fun a => ?_
  have hprevious :
      ((((a.relocate ρ).graph).find? write).map (·.predecessors .programOrder)).getD [] =
        ((a.graph.find? write).map (·.predecessors .programOrder)).getD [] := by
    rw [relocate_graph, Graph.relocate_find?]
    cases a.graph.find? write <;> rfl
  dsimp only
  rw [hprevious]
  split
  · rename_i k _
    refine (StepRespects.ask ρ fun g => Graph.relocate_node ρ g k).bind fun read => ?_
    simp only [relocate_graph, Node.relocate_kind, Node.relocate_location, Node.relocate_key,
      Graph.relocate_locationOf, ne_eq, Renaming.apply_inj]
    split
    · exact fun _ => rfl
    · exact Respects.pure _
  · exact Respects.throw _

/-- The same acquisitions can be overtaken. -/
theorem lockRevisits_respects (write own : Key) (reads : List Key) :
    StepRespects ρ (List.map (·.relocate ρ)) (lockRevisits write own reads)
      (lockRevisits write own reads) := by
  induction reads with
  | nil => exact Respects.pure _
  | cons r more ih =>
    refine Respects.get.bind fun a => ?_
    rw [relocate_graph, BackwardRevisit.relocate_new]
    cases BackwardRevisit.new a.graph write r with
    | error e => exact Respects.throw _
    | ok view =>
      simp only [Except.map, BackwardRevisit.relocate_isMaximal]
      cases view.isMaximal with
      | error e => exact Respects.throw _
      | ok accepted =>
        cases accepted with
        | false => exact ih
        | true =>
          refine Respects.get.bind fun b => ?_
          rw [relocate_graph, LockRevisit.isPossible_relocate]
          cases LockRevisit.isPossible b.graph r own with
          | error e => exact Respects.throw _
          | ok possible =>
            cases possible with
            | false => exact ih
            | true =>
              refine (StepRespects.modifyGraph ρ fun g =>
                Graph.relocate_markFinalLockWrite ρ g write).bind fun _ => ?_
              refine ih.bind fun views => ?_
              rw [BackwardRevisit.relocate_markFinal]
              exact Respects.pure _

/-- An acquisition is recorded in the same way. -/
theorem recordLockWrite_respects :
    StepRespects ρ id (recordLockWrite e) (recordLockWrite (e.relocate ρ)) := by
  refine Respects.get.bind fun a => ?_
  simp only [relocate_graph, Event.relocate_task, Event.relocate_location, Graph.relocate_isBlocked]
  split
  · exact Respects.pure _
  · refine (StepRespects.onGraph ρ (Graph.addEvent_respects ρ e)).bind fun write => ?_
    refine (StepRespects.modifyGraph ρ fun g => Graph.relocate_acquireLock ρ g _ _).bind fun _ => ?_
    refine (StepRespects.ask_same ρ fun g => Graph.relocate_alternativeLockReads ρ g write).bind
      fun reads => ?_
    have htrack : StepRespects ρ id (modifyGraph fun g => g.trackCoherency write)
        (modifyGraph fun g => g.trackCoherency write) :=
      StepRespects.modifyGraph ρ fun g => Graph.relocate_trackCoherency ρ g write
    simp only [id]
    split
    · exact htrack
    · refine (pairedLockRead_respects ρ write).bind fun own => ?_
      refine (lockRevisits_respects ρ write own reads).bind fun views => ?_
      rw [← List.map_reverse]
      exact (pushRevisits_respects ρ (fun _ _ _ => rfl) _).bind fun _ => htrack

theorem recordLockRelease_respects :
    StepRespects ρ id (recordLockRelease e) (recordLockRelease (e.relocate ρ)) := by
  refine (StepRespects.onGraph ρ (Graph.addEvent_respects ρ e)).bind fun write => ?_
  refine (StepRespects.modifyGraph ρ fun g => Graph.relocate_unblockForLock ρ g _).bind fun _ => ?_
  exact StepRespects.modifyGraph ρ fun g => Graph.relocate_trackCoherency ρ g write

/-- A task that gets the lock it waited for is recorded in the same way. -/
theorem recordLockAcquired_respects :
    StepRespects ρ id (recordLockAcquired e) (recordLockAcquired (e.relocate ρ)) := by
  refine Respects.get.bind fun a => ?_
  simp only [relocate_graph, Event.relocate_task, Event.relocate_location, Graph.relocate_isWaiting]
  split
  · exact (recordLockRead_respects ρ (Event.new e.task .lockAcquireRead e.location)).bind fun _ =>
      recordLockWrite_respects ρ (Event.new e.task .lockAcquireWrite e.location)
  · exact Respects.pure _

theorem recordAssume_respects :
    StepRespects ρ id (recordAssume e) (recordAssume (e.relocate ρ)) := by
  refine (StepRespects.onGraph ρ (Graph.addEvent_respects ρ e)).bind fun _ => ?_
  rw [Event.relocate_holds]
  split
  · exact StepRespects.requestBlock ρ _
  · exact Respects.pure _

theorem recordMarker_respects :
    StepRespects ρ id (recordMarker e) (recordMarker (e.relocate ρ)) := by
  refine (StepRespects.onGraph ρ (Graph.addEvent_respects ρ e)).bind fun k => ?_
  rw [Event.relocate_kind]
  split
  · refine (StepRespects.modifyGraph ρ fun g => Graph.relocate_trackThreadCreates ρ g k).bind
      fun _ => ?_
    rw [Event.relocate_task]
    split
    · exact StepRespects.changeGraph ρ fun g => Graph.relocate_trackThreadStarts ρ g k
    · exact Respects.pure _
  · exact StepRespects.changeGraph ρ fun g => Graph.relocate_trackThreadJoins ρ g k
  · exact Respects.pure _

/-- **Recording a renamed event is the renamed recording of the event.** -/
theorem record_respects : StepRespects ρ id (record e) (record (e.relocate ρ)) := by
  unfold record
  rw [Event.relocate_kind]
  split
  · exact recordRead_respects ρ e
  · exact recordRead_respects ρ e
  · exact recordWrite_respects ρ e
  · exact recordExclusiveWrite_respects ρ e
  · exact recordLockRead_respects ρ e
  · exact recordLockWrite_respects ρ e
  · exact recordLockRelease_respects ρ e
  · exact recordLockAcquired_respects ρ e
  · exact recordAssume_respects ρ e
  · exact recordMarker_respects ρ e
  · exact recordMarker_respects ρ e
  · exact recordMarker_respects ρ e
  · exact recordMarker_respects ρ e
  · exact Respects.throw _

end Engine

end Interleaving
