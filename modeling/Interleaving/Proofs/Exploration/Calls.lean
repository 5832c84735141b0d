import Interleaving.Proofs.Event.Observed
import Interleaving.Proofs.Exploration.Trying
import Interleaving.Proofs.Relocation.Exploration

/-!
# Calls of the engine

Whoever drives an exploration calls the engine again and again, in whatever order. Between calls the
engine is **upright** (`Interleaving.Engine.Upright`): its graph is live and all alternatives on its
stack are ready. A call keeps it upright unless it breaks off
(`Interleaving.Engine.Upright.perform?`). The event of a program raises the bound on clocks by four
at most, and no other call raises it: a choice goes through as many alternatives as it takes, and
what it adds again to their graphs has room.
-/

namespace Interleaving

variable {N M : Nat}

/-! ### Known locations -/

namespace LocationTable

variable {t : LocationTable} {loc : Location}

theorem aliases_resolve (t : LocationTable) (loc : Location) :
    (t.resolve loc).2.aliases = t.aliases := by
  unfold resolve
  split
  · rfl
  · unfold add
    split <;> rfl

/-- A location stands for a location if all aliases do. -/
theorem resolve_ne_none (h : ∀ p ∈ t.aliases, p.2 ≠ .none) (hloc : loc ≠ .none) :
    (t.resolve loc).1 ≠ .none := by
  unfold resolve alias?
  split
  · rename_i old hold
    obtain ⟨l₁, l₂, heq, -⟩ := List.lookup_eq_some_iff.mp hold
    exact h (loc, old) (heq ▸ List.mem_append_right _ List.mem_cons_self)
  · exact hloc

end LocationTable

namespace Engine

variable {α β : Type} {a a' b : Engine} {e : Event} {x : Step α} {f : α → Step β} {z : β}
  {fuel : Nat} {item : Alternative} {agenda : Agenda}

/-- The engine at the start of the choice of an alternative. -/
def choosing (a : Engine) : Engine :=
  { a with locations := a.locations.clearAliases, isGuided := true }

/-- **An engine whose graph is live and whose stack holds ready alternatives only.** -/
structure Upright (a : Engine) (N : Nat) : Prop extends a.Stocked N where
  live : a.graph.Live N

namespace Upright

theorem initial : Engine.initial.Upright 0 := ⟨⟨fun _ => nofun, fun _ => nofun⟩, Graph.live_initial⟩

variable (h : a.Upright N)
include h

theorem mono (hle : N ≤ M) (hroom : M < 2 ^ 62) : a.Upright M :=
  ⟨h.toStocked.mono hle hroom, h.live.mono hle hroom⟩

/-- The graph and the stack as they were. -/
theorem congr (hgraph : a'.graph = a.graph) (hagenda : a'.agenda = a.agenda)
    (haliases : ∀ p ∈ a'.locations.aliases, p.2 ≠ .none) : a'.Upright N :=
  ⟨⟨hagenda ▸ h.items, haliases⟩, hgraph ▸ h.live⟩

/-- A computation that upholds the stack is done. -/
theorem run {y : α} (hx : Upholds N x a.graph fun _ g' => g'.Live N) (hrun : x.run a = .ok y a') :
    a'.Upright N :=
  have hdone := hx a y a' h.toStocked rfl hrun
  ⟨hdone.1, hdone.2⟩

/-! ### Events -/

/-- There is room for an event of the program. -/
theorem receives (he : e.Recordable) : a.graph.Receives e (N + 2) := by
  refine h.live.toSteady.receives he.task he.kind fun hkind => he.located ?_
  rw [Kind.touches, Bool.or_assoc, Bool.or_eq_true, Bool.or_eq_true]
  exact hkind.imp_right Or.inl

section Recording

variable (hroom : N + 4 < 2 ^ 62) (he : e.Recordable)
include hroom he

/-- **A task that waited for a lock** reads it and takes it. -/
theorem recordLockAcquired (hkind : e.kind = .lockAcquired)
    (hrun : (Engine.recordLockAcquired e).run a = .ok () a') : a'.Upright (N + 4) := by
  have hloc : e.location ≠ .none := he.located (by rw [hkind]; rfl)
  have hhalf : ∀ {kind : Kind}, kind ≠ .block → (Event.new e.task kind e.location).Recordable :=
    fun hblock =>
    Event.recordable_new he.task hblock fun _ => hloc
  unfold Engine.recordLockAcquired at hrun
  obtain ⟨_, _, hget, hrun⟩ := run_bind hrun
  cases hget
  split at hrun
  · obtain ⟨_, b, hread, hwrite⟩ := run_bind hrun
    have hle := Nat.le_add_right N 2
    have hroom' : N + 2 < 2 ^ 62 := by omega
    have hb : b.Upright (N + 2) := (h.mono hle hroom').run
      (.recordLockRead h.live hle hroom' (h.receives (hhalf (by decide))) rfl) hread
    have hle' := Nat.le_add_right (N + 2) 2
    exact (hb.mono hle' hroom).run
      (.recordLockWrite hb.live hle' hroom (hb.receives (hhalf (by decide)))) hwrite
  · cases hrun
    exact h.mono (Nat.le_add_right N 4) hroom

/-- **Recording an event** keeps the engine upright. -/
theorem record (hrun : (Engine.record e).run a = .ok () a') : a'.Upright (N + 4) := by
  have hle := Nat.le_add_right N 2
  have hroom' : N + 2 < 2 ^ 62 := by omega
  have hreceives := h.receives he
  have hplain : ∀ {x : Step Unit}, Upholds (N + 2) x a.graph (fun _ g' => g'.Live (N + 2)) →
      x.run a = .ok () a' → a'.Upright (N + 4) := fun hx hrun =>
    ((h.mono hle hroom').run hx hrun).mono (Nat.add_le_add_left (by decide) N) hroom
  have hmarker : (Engine.recordMarker e).run a = .ok () a' → a'.Upright (N + 4) := fun hrun =>
    ((h.mono (Nat.le_add_right N 3) (by omega)).run
      (.recordMarker h.live hle (by omega) hreceives) hrun).mono
      (Nat.add_le_add_left (by decide) N) hroom
  unfold Engine.record at hrun
  cases hkind : e.kind with
  | read =>
    exact hplain (.recordRead h.live hle hroom' hreceives (Or.inl hkind)) (by rwa [hkind] at hrun)
  | readExclusive =>
    exact hplain (.recordRead h.live hle hroom' hreceives (Or.inr hkind)) (by rwa [hkind] at hrun)
  | write => exact hplain (.recordWrite h.live hle hroom' hreceives) (by rwa [hkind] at hrun)
  | writeExclusive =>
    exact hplain (.recordExclusiveWrite h.live hle hroom' hreceives) (by rwa [hkind] at hrun)
  | lockAcquireRead =>
    exact hplain (.recordLockRead h.live hle hroom' hreceives hkind) (by rwa [hkind] at hrun)
  | lockAcquireWrite =>
    exact hplain (.recordLockWrite h.live hle hroom' hreceives) (by rwa [hkind] at hrun)
  | lockReleaseWrite =>
    exact hplain (.recordLockRelease h.live hle hroom' hreceives) (by rwa [hkind] at hrun)
  | lockAcquired => exact h.recordLockAcquired hroom he hkind (by rwa [hkind] at hrun)
  | assume => exact hplain (.recordAssume h.live hle hroom' hreceives) (by rwa [hkind] at hrun)
  | threadStart | threadFinish | threadJoin | noop => exact hmarker (by rwa [hkind] at hrun)
  | _ =>
    rw [hkind] at hrun
    cases hrun

end Recording

theorem resolveLocation (he : e.Recordable) :
    (a.resolveLocation e).2.Upright N ∧ (a.resolveLocation e).1.Recordable := by
  unfold Engine.resolveLocation
  split
  · rename_i hhas
    refine ⟨h.congr rfl rfl ?_, he.task, he.kind, fun _ => ?_⟩
    · exact (a.locations.aliases_resolve e.location).symm ▸ h.aliases
    · exact LocationTable.resolve_ne_none h.aliases (bne_iff_ne.mp hhas)
  · exact ⟨h, he⟩

/-- An alias stands for a location of the schedule. -/
theorem learned (head : ScheduleEntry) (e : Event) : (a.learned head e).Upright N := by
  unfold Engine.learned
  split
  · rename_i hhas
    rw [Bool.and_eq_true, Bool.and_eq_true] at hhas
    refine h.congr rfl rfl fun p hp => ?_
    rcases List.mem_cons.mp hp with rfl | hp
    · exact bne_iff_ne.mp hhas.1.1
    · exact h.aliases p (List.mem_of_mem_filter hp)
  · exact h

theorem consumeEnd (head : ScheduleEntry) (e : Event) : (a.consumeEnd head e).Upright N := by
  unfold Engine.consumeEnd
  split
  · exact h.congr rfl rfl h.aliases
  · exact h

theorem assumed (e : Event) : (a.assumed e).Upright N := by
  unfold Engine.assumed
  split
  · exact h.congr rfl rfl h.aliases
  · exact h

/-- **Following a schedule** records nothing. -/
theorem followEvent (head : ScheduleEntry) (e : Event) : (a.followEvent head e).2.Upright N := by
  rw [followEvent_eq]
  split
  · exact h
  · exact h
  · split
    · exact h.consumeEnd head e
    · exact ((h.consumeEnd head e).learned head e).assumed e

/-- **An event of the program** keeps the engine upright, unless it breaks off. -/
theorem update {outcome : Outcome} (hroom : N + 4 < 2 ^ 62) (he : e.Recordable)
    (hok : a.update e = (.ok outcome, a')) : a'.Upright (N + 4) := by
  have hle := Nat.le_add_right N 4
  unfold Engine.update at hok
  split at hok
  · cases hok
    exact h.mono hle hroom
  · split at hok
    · cases hok
      exact h.mono hle hroom
    · split at hok
      · cases hok
        exact (h.followEvent _ e).mono hle hroom
      · obtain ⟨hresolved, he⟩ := h.resolveLocation he
        dsimp only at hok
        split at hok
        · rename_i hrun
          cases hok
          exact hresolved.record hroom he hrun
        · cases hok

/-! ### Between events -/

theorem nextDirective : a.nextDirective.2.Upright N := by
  unfold Engine.nextDirective
  split
  · exact h.congr rfl rfl h.aliases
  · split
    · split
      · exact h
      · exact h.congr rfl rfl h.aliases
    · exact h

theorem resetRun : a.resetRun.Upright N := h.congr rfl rfl h.aliases

/-- An alternative that is taken off the stack is ready. -/
theorem taken (hpop : a.agenda.pop? = some (item, agenda)) :
    item.Ready N ∧ (a.taken item agenda).Upright N := by
  unfold Agenda.pop? at hpop
  split at hpop
  · cases hpop
  · rename_i item' items hitems
    cases hpop
    refine ⟨h.items _ (hitems ▸ List.mem_cons_self),
      ⟨fun item hitem => h.items item ?_, h.aliases⟩, h.live⟩
    exact hitems ▸ List.mem_cons_of_mem _ hitem

/-- **Dealing with an alternative** that was on top of the stack. -/
theorem process {order : Option (List Node)} (hpop : a.agenda.pop? = some (item, agenda))
    (hrun : (Engine.process item).run (a.taken item agenda) = .ok order a') : a'.Upright N :=
  have htaken := h.taken hpop
  htaken.2.run (.process htaken.1 h.live) hrun

theorem choosing : a.choosing.Upright N := h.congr rfl rfl fun _ => nofun

/-- **Choosing the next alternative.** -/
theorem select? {outcome : Outcome} (hs : Engine.select? fuel a = some (.ok outcome, a')) :
    a'.Upright N := by
  induction fuel generalizing a with
  | zero => cases hs
  | succ fuel ih =>
    rw [Engine.select?] at hs
    split at hs
    · cases hs
      exact h
    · rename_i item agenda hpop
      dsimp only at hs
      split at hs
      · cases hs
      · rename_i hrun
        exact ih (h.process hpop hrun) hs
      · rename_i hrun
        cases hs
        have hdone := h.process hpop hrun
        exact hdone.congr rfl rfl hdone.aliases

/-- **Preparing a run.** -/
theorem startRun? {n : Int} {outcome : Outcome} (hs : a.startRun? fuel n = some (.ok outcome, a')) :
    a'.Upright N := by
  unfold Engine.startRun? at hs
  split at hs
  · cases hs
    exact h
  · split at hs
    · cases hs
      exact h
    · exact h.choosing.select? hs

end Upright

/-! ### Calls -/

/-- A call that a running program or its scheduler may make. -/
def Call.Observed (call : Call) : Prop := ∀ e, call = .update e → e.Observed

/-- Whether a call has broken off. -/
def Answer.isBroken : Answer → Bool
  | .outcome (.error _) => true
  | _ => false

/-- The engine after several calls, unless one of them breaks off or the fuel does not suffice. -/
def performAll? (fuel : Nat) : Engine → List Call → Option Engine
  | a, [] => some a
  | a, call :: more =>
    match a.perform? fuel call with
    | none => none
    | some (answer, a') => if answer.isBroken then none else performAll? fuel a' more

/-- **A call that does not break off** keeps the engine upright. -/
theorem Upright.perform? {call : Call} {answer : Answer} (h : a.Upright N) (hroom : N + 4 < 2 ^ 62)
    (hcall : call.Observed) (hperform : a.perform? fuel call = some (answer, a'))
    (hanswer : answer.isBroken = false) : a'.Upright (N + 4) := by
  have hle := Nat.le_add_right N 4
  cases call with
  | start n =>
    obtain ⟨⟨result, a''⟩, hs, heq⟩ := Option.map_eq_some_iff.mp hperform
    cases heq
    cases result with
    | error cause => cases hanswer
    | ok outcome => exact (h.startRun? hs).mono hle hroom
  | update e =>
    cases hperform
    cases hresult : (a.update e).1 with
    | error cause =>
      rw [hresult] at hanswer
      cases hanswer
    | ok outcome => exact h.update hroom (hcall e rfl).recordable (Prod.ext hresult rfl)
  | next =>
    cases hperform
    exact h.nextDirective.mono hle hroom
  | reset =>
    cases hperform
    exact h.resetRun.mono hle hroom

/-- **Calls that do not break off** keep the engine upright; each of them raises the bound by four
at most. -/
theorem Upright.performAll? {calls : List Call} (h : a.Upright N)
    (hroom : N + 4 * calls.length < 2 ^ 62) (hcalls : ∀ call ∈ calls, call.Observed)
    (hperform : a.performAll? fuel calls = some a') :
    a'.Upright (N + 4 * calls.length) := by
  induction calls generalizing a N with
  | nil =>
    cases hperform
    exact h
  | cons call more ih =>
    have hlength : N + 4 * (call :: more).length = N + 4 + 4 * more.length := by
      rw [List.length_cons]
      omega
    rw [hlength] at hroom ⊢
    rw [Engine.performAll?] at hperform
    split at hperform
    · cases hperform
    · rename_i answer b hcall
      split at hperform
      · cases hperform
      · rename_i hanswer
        have hb :=
          h.perform? (by omega) (hcalls call List.mem_cons_self) hcall
            (Bool.eq_false_iff.mpr hanswer)
        exact ih hb hroom (fun call hcall => hcalls call (List.mem_cons_of_mem _ hcall)) hperform

end Engine

end Interleaving
