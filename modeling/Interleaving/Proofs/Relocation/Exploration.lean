import Interleaving.Exploration.Selection
import Interleaving.Graph.Snapshot
import Interleaving.Proofs.Relocation.Recording

/-!
# Exploring after a renaming

An exploration never asks for the number of a location, only whether two are the same. **So whoever
calls the engine sees the same with any numbers** (`Interleaving.Engine.transcript?_relocate`): when
all events of all runs are renamed, every call has the same answer, and after every call the same
counts, the same schedule, the same text without locations and the same hash.

What the engine does is followed operation by operation. A renamed engine takes the same steps, and
the engines after them are each other's renamings again (`Interleaving.Engine.perform?_relocate`);
what can be seen of an engine is the same before and after a renaming
(`Interleaving.Engine.view_relocate`).
-/

namespace Interleaving

/-! ### Stored graphs -/

/-- Without locations the stored form of a graph does not change. -/
theorem Snapshot.ofGraph_relocate (ρ : Renaming) (g : Graph) :
    Snapshot.ofGraph true (g.relocate ρ) = Snapshot.ofGraph true g := by
  rw [Snapshot.ofGraph, Snapshot.ofGraph, Graph.relocate_events, List.map_map]
  rfl

/-- The text of a graph without its locations is the same. -/
theorem Graph.json_relocate (ρ : Renaming) (g : Graph) :
    (g.relocate ρ).json true = g.json true := by
  rw [Graph.json, Graph.json, Snapshot.ofGraph_relocate]

/-- **The hash of a graph does not depend on locations.** -/
theorem Graph.hash_relocate (ρ : Renaming) (g : Graph) : (g.relocate ρ).hash = g.hash := by
  rw [Graph.hash, Graph.hash, Graph.json_relocate]

/-! ### Schedules -/

namespace Schedule

variable (ρ : Renaming)

/-- The steps of a schedule are those of the renamed events. -/
theorem steps_relocate (es : List Event) :
    steps (es.map (·.relocate ρ)) = (steps es).map (·.relocate ρ) := by
  match es with
  | [] => rfl
  | [e] => rfl
  | e :: next :: more =>
    have hcompletes : completes (e.relocate ρ) (next.relocate ρ) = completes e next := rfl
    have hmore := steps_relocate more
    have hrest := steps_relocate (next :: more)
    rw [List.map_cons] at hrest
    rw [List.map_cons, List.map_cons, steps, steps, hcompletes, hmore, hrest]
    split <;> rfl

/-- The entries of a schedule are renamed. -/
theorem entries_relocate (prev : Location) (es : List Event) :
    entries (ρ prev) (es.map (·.relocate ρ)) = (entries prev es).map (·.relocate ρ) := by
  induction es generalizing prev with
  | nil => rfl
  | cons e more ih =>
    have hnone : entries .none (more.map (·.relocate ρ)) =
      (entries .none more).map (·.relocate ρ) := ih .none
    rw [List.map_cons, entries, entries, Event.relocate_kind, Event.relocate_location]
    dsimp only
    rw [ih, hnone]
    cases e.kind <;> rfl

/-- A schedule that is made from events is renamed with them. -/
theorem ofEvents_relocate (es : List Event) :
    ofEvents (es.map (·.relocate ρ)) = (ofEvents es).map (·.relocate ρ) := by
  have hentries := entries_relocate ρ .none (steps (es.drop 2))
  rw [← steps_relocate, List.map_drop] at hentries
  rw [ofEvents, ofEvents, List.length_map]
  split
  · rfl
  · exact hentries

theorem ofEvents_relocate_nodes (ns : List Node) :
    ofEvents ((ns.map (·.relocate ρ)).map (·.event)) =
      (ofEvents (ns.map (·.event))).map (·.relocate ρ) := by
  rw [← ofEvents_relocate, List.map_map, List.map_map]
  rfl

/-- **What a schedule directs does not depend on locations.** -/
theorem directives_relocate (es : List ScheduleEntry) :
    directives (es.map (·.relocate ρ)) = directives es := by
  rw [directives, directives, List.map_map]
  rfl

end Schedule

/-! ### Known locations -/

namespace LocationTable

variable (ρ : Renaming) (t : LocationTable) (l : Location)

/-- A location is learned under its new number. -/
theorem relocate_add : (t.relocate ρ).add (ρ l) = (t.add l).relocate ρ := by
  have hknown : (t.relocate ρ).known.contains (ρ l) = t.known.contains l := ρ.contains t.known l
  rw [add, add, hknown]
  split
  · rfl
  · simp [relocate]

/-- The alias of a location is renamed. -/
theorem relocate_alias? : (t.relocate ρ).alias? (ρ l) = (t.alias? l).map ρ := ρ.lookup ρ l t.aliases

@[simp] theorem relocate_hasAlias : (t.relocate ρ).hasAlias (ρ l) = t.hasAlias l := by
  rw [hasAlias, hasAlias, relocate_alias?, Option.isSome_map]

/-- Aliases are added between renamed locations. -/
theorem relocate_addAlias (old new : Location) :
    (t.relocate ρ).addAlias (ρ old) (ρ new) = (t.addAlias old new).relocate ρ := by
  have hothers : (t.relocate ρ).aliases.filter (fun p => p.1 != ρ new) =
      (t.aliases.filter fun p => p.1 != new).map fun p => (ρ p.1, ρ p.2) := by
    rw [relocate, List.filter_map]
    congr 1
    exact List.filter_congr fun p _ => ρ.apply_bne
  rw [addAlias, addAlias, hothers, relocate_add]
  rfl

/-- A location is resolved to the renamed one. -/
theorem relocate_resolve :
    (t.relocate ρ).resolve (ρ l) = (ρ (t.resolve l).1, (t.resolve l).2.relocate ρ) := by
  rw [resolve, resolve, relocate_alias?, relocate_add]
  cases t.alias? l <;> rfl

end LocationTable

namespace Engine

variable (ρ : Renaming) (a : Engine)

@[simp] theorem relocate_isGuiding : (a.relocate ρ).isGuiding = a.isGuiding := by
  rw [isGuiding, isGuiding, relocate, List.isEmpty_map]

@[simp] theorem relocate_guiding : (a.relocate ρ).guiding = a.guiding.map (·.relocate ρ) := (rfl)

/-! ### Following a schedule -/

/-- The end of a guiding schedule is used up in the same way. -/
theorem relocate_consumeEnd (head : ScheduleEntry) (e : Event) :
    (a.relocate ρ).consumeEnd (head.relocate ρ) (e.relocate ρ) =
      (a.consumeEnd head e).relocate ρ := by
  have hrest : (a.relocate ρ).guiding.drop 1 = (a.guiding.drop 1).map (·.relocate ρ) :=
    List.map_drop.symm
  have hdirective : (head.relocate ρ).directive = head.directive := rfl
  rw [consumeEnd, consumeEnd, hrest, hdirective, Event.relocate_kind]
  dsimp only
  rw [List.isEmpty_map]
  split <;> rfl

/-- The engine once an event has shown which number of the run stands for the location of the
schedule. -/
def learned (a : Engine) (head : ScheduleEntry) (e : Event) : Engine :=
  if head.hasLocation && e.location ≠ head.location && !a.locations.hasAlias e.location then
    { a with locations := a.locations.addAlias head.location e.location }
  else a

/-- The engine once it has seen whether an assumption holds. -/
def assumed (a : Engine) (e : Event) : Engine :=
  if e.kind = .assume && !e.holds then { a with mustBlock := some e.task } else a

/-- **Following a schedule**, with what is learned and what is assumed told apart. -/
theorem followEvent_eq (head : ScheduleEntry) (e : Event) :
    a.followEvent head e =
      match head.directive.kind with
      | .blockTask => (.haltTask (head.directive.task - 1), a)
      | .blockExecution => (.haltError "encountered a block label", a)
      | _ =>
        if head.hasLocation && !e.hasLocation then
          (.haltError "expected location with event but it contains none", a.consumeEnd head e)
        else (.proceed, ((a.consumeEnd head e).learned head e).assumed e) := by
  rfl

theorem relocate_learned (head : ScheduleEntry) (e : Event) :
    (a.relocate ρ).learned (head.relocate ρ) (e.relocate ρ) = (a.learned head e).relocate ρ := by
  have hhas : (head.relocate ρ).hasLocation = head.hasLocation := ρ.apply_bne_none
  have hlocation : (head.relocate ρ).location = ρ head.location := rfl
  have hknown : (a.relocate ρ).locations = a.locations.relocate ρ := rfl
  simp only [learned, hhas, hlocation, hknown, Event.relocate_location, ne_eq, Renaming.apply_inj,
    LocationTable.relocate_hasAlias, LocationTable.relocate_addAlias]
  split <;> rfl

theorem relocate_assumed (e : Event) :
    (a.relocate ρ).assumed (e.relocate ρ) = (a.assumed e).relocate ρ := by
  rw [assumed, assumed, Event.relocate_kind, Event.relocate_holds, Event.relocate_task]
  split <;> rfl

/-- An event is followed with the same answer. -/
theorem relocate_followEvent (head : ScheduleEntry) (e : Event) :
    (a.relocate ρ).followEvent (head.relocate ρ) (e.relocate ρ) =
      ((a.followEvent head e).1, (a.followEvent head e).2.relocate ρ) := by
  have hhas : (head.relocate ρ).hasLocation = head.hasLocation := ρ.apply_bne_none
  have hdirective : (head.relocate ρ).directive = head.directive := rfl
  simp only [followEvent_eq, hhas, hdirective, Event.relocate_hasLocation, relocate_consumeEnd,
    relocate_learned, relocate_assumed]
  cases head.directive.kind <;> first | rfl | (dsimp only; split <;> rfl)

/-- The location of an event is resolved before the event is recorded. -/
theorem relocate_resolveLocation (e : Event) :
    (a.relocate ρ).resolveLocation (e.relocate ρ) =
      ((a.resolveLocation e).1.relocate ρ, (a.resolveLocation e).2.relocate ρ) := by
  have hknown : (a.relocate ρ).locations = a.locations.relocate ρ := rfl
  simp only [resolveLocation, hknown, Event.relocate_hasLocation, Event.relocate_location,
    LocationTable.relocate_resolve]
  split <;> rfl

/-- **An event is answered in the same way.** -/
theorem relocate_update (e : Event) :
    (a.relocate ρ).update (e.relocate ρ) = ((a.update e).1, (a.update e).2.relocate ρ) := by
  have hrecord : ∀ (b : Engine) (e : Event),
      (record (e.relocate ρ)).run (b.relocate ρ) = mapResult id (relocate ρ) ((record e).run b) :=
    fun b e => record_respects ρ e b
  unfold update
  rw [Event.relocate_kind, Event.relocate_message, relocate_isGuiding, relocate_guiding,
    relocate_resolveLocation]
  split
  · rfl
  · split
    · rfl
    · cases a.isGuiding with
      | true =>
        cases a.guiding with
        | cons head rest =>
          rw [List.map_cons]
          dsimp only
          rw [relocate_followEvent]
        | nil =>
          dsimp only [List.map_nil]
          rw [hrecord]
          cases (record (a.resolveLocation e).1).run (a.resolveLocation e).2 <;> rfl
      | false =>
        dsimp only
        rw [hrecord]
        cases (record (a.resolveLocation e).1).run (a.resolveLocation e).2 <;> rfl

/-! ### Choosing the next alternative -/

/-- An alternative is about the same events. -/
theorem nodes_relocate (item : Alternative) : (item.relocate ρ).nodes = item.nodes := by
  have hgraph : (item.relocate ρ).graph = item.graph.map (·.relocate ρ) := rfl
  have hkind : (item.relocate ρ).kind = item.kind := rfl
  have hfirst : (item.relocate ρ).first = item.first := rfl
  have hsecond : (item.relocate ρ).second = item.second := rfl
  unfold Alternative.nodes
  rw [hgraph, hkind, hfirst, hsecond]
  cases item.graph with
  | none => rfl
  | some g =>
    simp only [Option.map_some, Graph.relocate_node]
    cases g.node item.first with
    | error e => rfl
    | ok first =>
      simp only [Except.map, Node.relocate_key]
      split
      · cases g.node item.second <;> rfl
      · rfl

/-- A backward revisit is spread over the same places. -/
theorem spread_respects (item : Alternative) :
    StepRespects ρ id (spread item) (spread (item.relocate ρ)) := by
  have hgraph : (item.relocate ρ).graph = item.graph.map (·.relocate ρ) := rfl
  unfold spread
  rw [nodes_relocate, hgraph]
  cases item.nodes with
  | error e => cases item.graph <;> exact Respects.throw _
  | ok nodes =>
    cases item.graph with
    | none => exact Respects.throw _
    | some g =>
      simp only [Option.map_some, Graph.relocate_coherentPlacings]
      cases g.coherentPlacings nodes.1 with
      | error e => exact Respects.throw _
      | ok placings =>
        refine (pushEach_respects ρ (fun before _ => writeBefore_relocate ρ nodes.1 before g)
          _).bind fun _ => ?_
        exact StepRespects.push ρ (Alternative.writeLast nodes.1 g item.additional)

theorem addAgain_respects (e : Event) :
    StepRespects ρ id (addAgain e) (addAgain (e.relocate ρ)) := by
  unfold addAgain
  rw [Event.relocate_kind]
  split
  · exact recordLockRead_respects ρ e
  · exact recordLockWrite_respects ρ e
  · exact recordExclusiveWrite_respects ρ e
  · exact Respects.throw _

/-- Events that were taken back are added again. -/
theorem addAllAgain_respects (es : List Event) :
    StepRespects ρ id (addAllAgain es) (addAllAgain (es.map (·.relocate ρ))) := by
  induction es with
  | nil => exact Respects.pure _
  | cons e more ih => exact (addAgain_respects ρ e).bind fun _ => ih

/-- The order of a graph, with all locations renamed. -/
def relocateOrder (ρ : Renaming) : Option (List Node) → Option (List Node) :=
  Option.map (List.map (·.relocate ρ))

/-- The order that guides the next run is renamed. -/
theorem currentOrder_respects : StepRespects ρ (relocateOrder ρ) currentOrder currentOrder :=
  StepRespects.ask ρ fun g => Graph.relocate_consistentOrder ρ g

/-- An alternative is tried on its renamed graph. -/
theorem tryAlternative_respects (item : Alternative) :
    StepRespects ρ (relocateOrder ρ) (tryAlternative item) (tryAlternative (item.relocate ρ)) := by
  have hadditional : (item.relocate ρ).additional = item.additional.map (·.relocate ρ) := rfl
  have hkind : (item.relocate ρ).kind = item.kind := rfl
  unfold tryAlternative
  rw [nodes_relocate, hadditional, hkind, List.length_map]
  cases item.nodes with
  | error e => cases item.kind <;> exact Respects.throw _
  | ok nodes =>
    obtain ⟨first, second⟩ := nodes
    have hrestrict : StepRespects ρ id (changeGraph fun g => g.restrict first)
        (changeGraph fun g => g.restrict first) :=
      StepRespects.changeGraph ρ fun g => Graph.relocate_restrict ρ g first
    have htrack : StepRespects ρ id (modifyGraph fun g => g.trackCoherency first)
        (modifyGraph fun g => g.trackCoherency first) :=
      StepRespects.modifyGraph ρ fun g => Graph.relocate_trackCoherency ρ g first
    have hlast : StepRespects ρ (relocateOrder ρ) (do addAllAgain item.additional; currentOrder)
        (do addAllAgain (item.additional.map (·.relocate ρ)); currentOrder) :=
      (addAllAgain_respects ρ _).bind fun _ => currentOrder_respects ρ
    dsimp only
    split
    · rename_i write _
      refine (StepRespects.changeGraph ρ fun g =>
        Graph.relocate_changeReadsFrom ρ g first write).bind fun _ => ?_
      refine hrestrict.bind fun _ =>
        (StepRespects.onGraph ρ (Graph.recomputeClocks_respects ρ)).bind fun _ => ?_
      exact hlast
    · rename_i before _
      refine htrack.bind fun _ => ?_
      refine (StepRespects.changeGraph ρ fun g =>
        Graph.relocate_swapCoherency ρ g first before).bind fun _ => ?_
      exact hrestrict.bind fun _ => currentOrder_respects ρ
    · refine htrack.bind fun _ => hrestrict.bind fun _ => ?_
      split
      · exact fun _ => rfl
      · exact hlast
    · exact Respects.throw _

/-- **An alternative is processed in the same way.** -/
theorem process_respects (item : Alternative) :
    StepRespects ρ (relocateOrder ρ) (process item) (process (item.relocate ρ)) := by
  have hbackward : (item.relocate ρ).isBackward = item.isBackward := rfl
  have hgraph : (item.relocate ρ).graph = item.graph.map (·.relocate ρ) := rfl
  unfold process
  rw [hbackward, hgraph]
  split
  · exact (spread_respects ρ item).bind fun _ => Respects.pure _
  · cases item.graph with
    | none => exact Respects.throw _
    | some g =>
      have hadopt : StepRespects ρ id (modify fun a => { a with graph := g })
          (modify fun a => { a with graph := g.relocate ρ }) := Respects.of_modify fun a => rfl
      have hcount : StepRespects ρ id
          (modify fun a => { a with inconsistent := a.inconsistent + 1 })
          (modify fun a => { a with inconsistent := a.inconsistent + 1 }) :=
            Respects.of_modify fun a => rfl
      simp only [Option.map_some, Graph.relocate_dangling?]
      split
      · exact Respects.throw _
      refine hadopt.bind fun _ => (tryAlternative_respects ρ item).bind fun order => ?_
      have hnone : (relocateOrder ρ order).isNone = order.isNone := Option.isNone_map
      rw [hnone]
      split
      · exact hcount.bind fun _ => Respects.pure _
      · exact Respects.pure _

/-- The engine that has taken the alternative on top off its stack. -/
def taken (a : Engine) (item : Alternative) (agenda : Agenda) : Engine :=
  { a with agenda, popped := a.popped.add item.kind }

/-- What an engine does, with all locations of the engine after it renamed. -/
def relocateAfter {α : Type} (ρ : Renaming) (r : α × Engine) : α × Engine := (r.1, r.2.relocate ρ)

/-- **The choice of the next alternative does not depend on the numbers of locations.** -/
theorem relocate_select? (fuel : Nat) :
    select? fuel (a.relocate ρ) = (select? fuel a).map (relocateAfter ρ) := by
  induction fuel generalizing a with
  | zero => rfl
  | succ fuel ih =>
    have hpop : (a.relocate ρ).agenda.pop? =
        a.agenda.pop?.map fun p => (p.1.relocate ρ, p.2.relocate ρ) := by
      have hitems : (a.relocate ρ).agenda.items = a.agenda.items.map (·.relocate ρ) := rfl
      rw [Agenda.pop?, Agenda.pop?, hitems]
      cases a.agenda.items <;> rfl
    rw [select?, select?, hpop]
    cases a.agenda.pop? with
    | none => rfl
    | some popped =>
      obtain ⟨item, agenda⟩ := popped
      have hprocess : (process (item.relocate ρ)).run ((a.taken item agenda).relocate ρ) =
          mapResult (relocateOrder ρ) (relocate ρ) ((process item).run (a.taken item agenda)) :=
        process_respects ρ item _
      have htaken : (a.relocate ρ).taken (item.relocate ρ) (agenda.relocate ρ) =
        (a.taken item agenda).relocate ρ := rfl
      rw [← htaken] at hprocess
      simp only [taken] at hprocess
      simp only [Option.map_some, hprocess]
      cases (process item).run { a with agenda, popped := a.popped.add item.kind } with
      | error cause b => rfl
      | ok order b =>
        cases order with
        | none => exact ih b
        | some sorted =>
          simp only [mapResult, relocateOrder, Option.map_some, Schedule.ofEvents_relocate_nodes]
          rfl

/-- The next run starts with the renamed graph. -/
theorem relocate_startRun? (fuel : Nat) (n : Int) :
    (a.relocate ρ).startRun? fuel n = (a.startRun? fuel n).map (relocateAfter ρ) := by
  have hempty : (a.relocate ρ).agenda.items.isEmpty = a.agenda.items.isEmpty := List.isEmpty_map
  unfold startRun?
  rw [hempty]
  split
  · rfl
  · split
    · rfl
    · exact relocate_select? ρ
        { a with locations := a.locations.clearAliases, isGuided := true } fuel

/-! ### Between events -/

/-- The next directive is the same. -/
theorem relocate_nextDirective :
    (a.relocate ρ).nextDirective = relocateAfter ρ a.nextDirective := by
  have hblock : (a.relocate ρ).mustBlock = a.mustBlock := rfl
  unfold nextDirective
  rw [hblock, relocate_isGuiding, relocate_guiding]
  cases a.mustBlock with
  | some task => rfl
  | none =>
    cases a.isGuiding with
    | false => rfl
    | true =>
      cases a.guiding with
      | nil => rfl
      | cons entry rest =>
        simp only [List.map_cons, List.isEmpty_map]
        rfl

/-- The tasks of a schedule have no locations. -/
theorem relocate_taskSchedule : (a.relocate ρ).taskSchedule = a.taskSchedule := by
  unfold taskSchedule
  rw [relocate_graph, Graph.relocate_consistentOrder]
  cases a.graph.consistentOrder with
  | error e => rfl
  | ok order =>
    cases order with
    | none => rfl
    | some sorted => simp only [Except.map, Option.map_some, Schedule.ofEvents_relocate_nodes,
        Schedule.directives_relocate]

/-! ### What a caller sees -/

/-- A call of the engine. -/
inductive Call where
  /-- The start of a run. -/
  | start (n : Int)
  /-- An event of the running program. -/
  | update (e : Event)
  /-- The question for the next directive. -/
  | next
  /-- The end of a run. -/
  | reset

/-- A call with its locations renamed. -/
def Call.relocate (ρ : Renaming) : Call → Call
  | .update e => .update (e.relocate ρ)
  | call => call

/-- What a call gives back. -/
inductive Answer where
  /-- How to proceed, or the rule that is broken. -/
  | outcome (result : Except Error Outcome)
  /-- The next directive, if the engine has one. -/
  | directive (d : Option Directive)
  /-- Nothing. -/
  | done

/-- What a call does: its answer and the engine after it, or nothing if the fuel does not suffice
for the choice of an alternative. -/
def perform? (fuel : Nat) (a : Engine) : Call → Option (Answer × Engine)
  | .start n => (a.startRun? fuel n).map fun r => (.outcome r.1, r.2)
  | .update e => some (.outcome (a.update e).1, (a.update e).2)
  | .next => some (.directive a.nextDirective.1, a.nextDirective.2)
  | .reset => some (.done, a.resetRun)

/-- What can be seen of an engine between calls. -/
structure View where
  stats : Stats
  schedulable : List Int
  schedule : Except Error (List Directive)
  text : String
  hash : String

/-- What can be seen of an engine. -/
def view (a : Engine) : View :=
  { stats := a.stats, schedulable := a.schedulableTasks, schedule := a.taskSchedule,
    text := a.graph.json true,
    hash := a.graph.hash }

/-- The answers to several calls, and what can be seen of the engine after each. -/
def transcript? (fuel : Nat) : Engine → List Call → Option (List (Answer × View))
  | _, [] => some []
  | a, call :: more =>
    match a.perform? fuel call with
    | none => none
    | some (answer, a') => (transcript? fuel a' more).map ((answer, a'.view) :: ·)

/-- **Before and after a renaming an engine looks the same.** -/
theorem view_relocate : (a.relocate ρ).view = a.view := by
  have hstats : (a.relocate ρ).stats = a.stats := by
    have hitems : (a.relocate ρ).agenda.items = a.agenda.items.map (·.relocate ρ) := rfl
    rw [stats, stats, Agenda.size, Agenda.size, hitems, List.length_map]
    rfl
  have htasks : (a.relocate ρ).schedulableTasks = a.schedulableTasks :=
    Graph.relocate_unblockedTasks ρ a.graph
  rw [view, view, hstats, htasks, relocate_taskSchedule, relocate_graph, Graph.json_relocate,
    Graph.hash_relocate]

/-- **A renamed call of a renamed engine has the same answer, and leads to the renamed engine.** -/
theorem perform?_relocate (fuel : Nat) (call : Call) :
    (a.relocate ρ).perform? fuel (call.relocate ρ) =
      (a.perform? fuel call).map (relocateAfter ρ) := by
  cases call with
  | start n =>
    rw [Call.relocate, perform?, perform?, relocate_startRun?, Option.map_map, Option.map_map]
    · rfl
    · exact fun _ => nofun
  | update e => rw [Call.relocate, perform?, perform?, relocate_update]; rfl
  | next =>
    rw [Call.relocate, perform?, perform?, relocate_nextDirective]
    · rfl
    · exact fun _ => nofun
  | reset => rfl

/-- **An exploration does not depend on the numbers of locations.** -/
theorem transcript?_relocate (ρ : Renaming) (fuel : Nat) (calls : List Call) :
    transcript? fuel .initial (calls.map (·.relocate ρ)) = transcript? fuel .initial calls := by
  have hrun : ∀ (calls : List Call) (a : Engine),
      transcript? fuel (a.relocate ρ) (calls.map (·.relocate ρ)) = transcript? fuel a calls := by
    intro calls
    induction calls with
    | nil => exact fun _ => rfl
    | cons call more ih =>
      intro a
      rw [List.map_cons, transcript?, transcript?, perform?_relocate]
      cases a.perform? fuel call with
      | none => rfl
      | some r => simp only [Option.map_some, relocateAfter, ih, view_relocate]
  exact hrun calls .initial

end Engine

end Interleaving
