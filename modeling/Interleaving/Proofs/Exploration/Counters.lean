import Interleaving.Proofs.Exploration.Frame
import Interleaving.Proofs.Exploration.Guiding

/-!
# The counters of an exploration

An exploration counts what it puts on its stack, what it takes off and how many graphs turned out to
be inconsistent. Between runs **the counters balance** (`Interleaving.Engine.Balanced`): what was
pushed was taken off again or waits; every backward revisit that was taken off has been spread with
one place in which its write is the last one; and every alternative of another kind that was taken
off has either started a run or made an inconsistent graph.

Whatever the engine does in a run pushes alternatives only, so the balance stays
(`Interleaving.Engine.Balanced.update`). In the search for the next alternative it is lost only
while an alternative is dealt with, whose three ends (`Interleaving.Engine.Processed`) restore it
(`Interleaving.Engine.Balanced.select?`).
-/

namespace Interleaving

/-! ### Counts -/

namespace Tally

variable {t : Tally} {k k' : Alternative.Kind}

theorem lookup_map_add (t : Tally) (k k' : Alternative.Kind) (n : Nat) :
    (t.map fun e => if e.1 = k then (k, n) else e).lookup k' =
      if k' = k then (t.lookup k).map fun _ => n else t.lookup k' := by
  induction t with
  | nil => simp
  | cons e t ih =>
    obtain ⟨c, m⟩ := e
    rw [List.map_cons]
    by_cases hc : c = k
    · subst hc
      by_cases hk : k' = c
      · simp [hk]
      · simp [List.lookup_cons, beq_eq_false_iff_ne.mpr hk, ih, hk]
    · by_cases hk : k' = c
      · subst hk
        simp [hc]
      · by_cases hkk : k' = k
        · subst hkk
          simp [hc, List.lookup_cons, beq_eq_false_iff_ne.mpr hk, ih]
        · simp [hc, List.lookup_cons, beq_eq_false_iff_ne.mpr hk, ih, hkk]

/-- One more of a kind is counted. -/
theorem count_add (t : Tally) (k k' : Alternative.Kind) :
    (t.add k).count k' = t.count k' + if k' = k then 1 else 0 := by
  unfold add count
  split
  · rename_i n hn
    rw [lookup_map_add]
    split
    · rename_i heq
      rw [heq, hn]
      rfl
    · rfl
  · rename_i hnone
    rw [List.lookup_append]
    by_cases heq : k' = k
    · simp [heq, hnone]
    · simp [heq, List.lookup_cons, beq_eq_false_iff_ne.mpr heq]

end Tally

namespace Agenda

/-- How many alternatives of a kind wait. -/
def waiting (a : Agenda) (k : Alternative.Kind) : Nat := a.items.countP fun item => item.kind = k

/-- Pushing counts an alternative once among the pushed and once among the waiting ones. -/
theorem pushed_push (a : Agenda) (item : Alternative) (k : Alternative.Kind) :
    (a.push item).pushed.count k + a.waiting k = a.pushed.count k + (a.push item).waiting k := by
  have hwaiting : (a.push item).waiting k = a.waiting k + if k = item.kind then 1 else 0 := by
    rw [waiting, push, List.countP_cons, waiting]
    simp only [decide_eq_true_eq]
    rw [if_congr eq_comm rfl rfl]
  have hpushed : (a.push item).pushed.count k = a.pushed.count k + if k = item.kind then 1 else 0 :=
    Tally.count_add a.pushed item.kind k
  omega

theorem pushed_foldl (a : Agenda) (items : List Alternative) (k : Alternative.Kind) :
    (items.foldl push a).pushed.count k + a.waiting k =
      a.pushed.count k + (items.foldl push a).waiting k := by
  induction items generalizing a with
  | nil => rfl
  | cons item items ih =>
    have hone := pushed_push a item k
    have hmore := ih (a.push item)
    rw [List.foldl_cons]
    omega

/-- What was pushed and has another kind is not counted. -/
theorem pushed_foldl_of_ne (a : Agenda) {items : List Alternative} {k : Alternative.Kind}
    (h : ∀ item ∈ items, item.kind ≠ k) : (items.foldl push a).pushed.count k =
      a.pushed.count k := by
  induction items generalizing a with
  | nil => rfl
  | cons item items ih =>
    rw [List.foldl_cons, ih (a.push item) fun i hi => h i (List.mem_cons_of_mem _ hi)]
    have hcount := Tally.count_add a.pushed item.kind k
    rwa [if_neg (h item List.mem_cons_self).symm] at hcount

/-- An alternative that is taken off no longer waits. -/
theorem waiting_of_pop {a a' : Agenda} {item : Alternative}
    (hpop : a.pop? = some (item, a')) (k : Alternative.Kind) :
    a.waiting k = a'.waiting k + (if k = item.kind then 1 else 0) ∧ a'.pushed = a.pushed := by
  unfold pop? at hpop
  split at hpop
  · cases hpop
  · rename_i items hitems
    cases hpop
    refine ⟨?_, rfl⟩
    rw [waiting, hitems, List.countP_cons, waiting]
    simp only [decide_eq_true_eq]
    rw [if_congr eq_comm rfl rfl]

end Agenda

namespace Engine

/-- How many alternatives that can be tried were taken off the stack. -/
def tried (a : Engine) : Nat :=
  a.popped.count .readFrom + a.popped.count .writeBefore + a.popped.count .writeLast

/-- How many backward revisits were taken off the stack. -/
def revisited (a : Engine) : Nat := a.popped.count .backward + a.popped.count .lockBackward

/-- **The counters balance** after a number of runs have been started. -/
structure Balanced (started : Nat) (a : Engine) : Prop where
  /-- What was pushed was taken off or waits. -/
  pushed : ∀ k, a.agenda.pushed.count k = a.popped.count k + a.agenda.waiting k
  /-- Every revisit was spread. -/
  spread : a.agenda.pushed.count .writeLast = a.revisited
  /-- Every alternative that was tried has started a run, as nothing has started the first one, or
  is inconsistent. -/
  tried : started + a.inconsistent = 1 + a.tried

variable {started fuel : Nat} {n : Int} {a a' b : Engine} {items : List Alternative} {e : Event}

/-- A backward revisit that was taken off the stack is counted among the revisits. -/
theorem counts_of_backward {k : Alternative.Kind} (hpopped : a'.popped = a.popped.add k)
    (hk : k = .backward ∨ k = .lockBackward) : a'.revisited = a.revisited + 1 ∧
    a'.tried = a.tried := by
  simp only [revisited, tried, hpopped, Tally.count_add]
  rcases hk with rfl | rfl <;> simp <;> omega

/-- Any other alternative is counted among those that were tried. -/
theorem counts_of_forward {k : Alternative.Kind} (hpopped : a'.popped = a.popped.add k)
    (hk : k = .readFrom ∨ k = .writeBefore ∨ k = .writeLast) :
    a'.revisited = a.revisited ∧ a'.tried = a.tried + 1 := by
  simp only [revisited, tried, hpopped, Tally.count_add]
  rcases hk with rfl | rfl | rfl <;> simp <;> omega

theorem balanced_initial : Balanced 1 .initial := ⟨fun _ => rfl, rfl, rfl⟩

namespace Balanced

theorem congr (h : Balanced started a) (hagenda : a'.agenda = a.agenda)
    (hpopped : a'.popped = a.popped) (hinconsistent : a'.inconsistent = a.inconsistent) :
    Balanced started a' := by
  refine ⟨?_, ?_, ?_⟩
  · rw [hagenda, hpopped]
    exact h.pushed
  · rw [hagenda, revisited, hpopped]
    exact h.spread
  · rw [Engine.tried, hpopped, hinconsistent]
    exact h.tried

/-- Pushing alternatives that do not make a write the last one keeps the balance. -/
theorem pushes (h : Balanced started a) (hp : Pushes items a a') (hitems : WithoutLast items) :
    Balanced started a' := by
  refine ⟨fun k => ?_, ?_, ?_⟩
  · have hcount := Agenda.pushed_foldl a.agenda items k
    have hpushed := h.pushed k
    rw [hp.agenda, hp.popped]
    omega
  · rw [hp.agenda, Agenda.pushed_foldl_of_ne _ hitems, revisited, hp.popped]
    exact h.spread
  · rw [Engine.tried, hp.popped, hp.inconsistent]
    exact h.tried

theorem nextDirective (h : Balanced started a) : Balanced started a.nextDirective.2 := by
  unfold Engine.nextDirective
  split
  · exact h.congr rfl rfl rfl
  · split
    · split
      · exact h
      · exact h.congr rfl rfl rfl
    · exact h

theorem followEvent (h : Balanced started a) (head : ScheduleEntry) (e : Event) :
    Balanced started (a.followEvent head e).2 := by
  have hconsume : Balanced started (a.consumeEnd head e) := by
    unfold consumeEnd
    split
    · exact h.congr rfl rfl rfl
    · exact h
  unfold Engine.followEvent
  split
  · exact h
  · exact h
  · dsimp only
    split
    · exact hconsume
    · dsimp only
      repeat' split
      all_goals exact hconsume.congr rfl rfl rfl

theorem resetRun (h : Balanced started a) : Balanced started a.resetRun := h.congr rfl rfl rfl

/-- **What an engine does with an event keeps the balance.** -/
theorem update (h : Balanced started a) (e : Event) : Balanced started (a.update e).2 := by
  unfold Engine.update
  split
  · exact h
  · split
    · exact h
    · split
      · exact h.followEvent _ e
      · have hresolve : Balanced started (a.resolveLocation e).2 := by
          unfold resolveLocation
          split
          · exact h.congr rfl rfl rfl
          · exact h
        have hrecord := record_supplies (a.resolveLocation e).1 (a.resolveLocation e).2
        obtain ⟨items, hitems, hp⟩ := hrecord
        have hdone := hresolve.pushes hp hitems
        dsimp only
        split <;> rename_i hrun <;> rw [hrun] at hdone <;> exact hdone

/-- An alternative that was taken off the stack and whatever was pushed then are counted. -/
theorem pushed_of_pop {item : Alternative} {agenda : Agenda} (h : Balanced started a)
    (hpop : a.agenda.pop? = some (item, agenda))
    (hagenda : a'.agenda = items.foldl Agenda.push agenda)
    (hpopped : a'.popped = a.popped.add item.kind) (k : Alternative.Kind) :
    a'.agenda.pushed.count k = a'.popped.count k + a'.agenda.waiting k := by
  obtain ⟨hwaiting, hsame⟩ := Agenda.waiting_of_pop hpop k
  have hpushed := h.pushed k
  have hcount := Tally.count_add a.popped item.kind k
  have hmore := Agenda.pushed_foldl agenda items k
  rw [hagenda, hpopped]
  rw [hsame] at hmore
  omega

/-- An alternative other than a backward revisit pays for one more run. -/
theorem forward {item : Alternative} {agenda : Agenda} (h : Balanced started a)
    (hpop : a.agenda.pop? = some (item, agenda))
    (hkind : item.kind = .readFrom ∨ item.kind = .writeBefore ∨ item.kind = .writeLast)
    (hitems : WithoutLast items)
    (hp : Pushes items { a with agenda, popped := a.popped.add item.kind } a') :
    Balanced (started + 1) a' := by
  obtain ⟨hrevisited, htried⟩ := counts_of_forward hp.popped hkind
  have hsame : agenda.pushed = a.agenda.pushed := (Agenda.waiting_of_pop hpop .readFrom).2
  refine ⟨h.pushed_of_pop hpop hp.agenda hp.popped, ?_, ?_⟩
  · rw [hp.agenda, Agenda.pushed_foldl_of_ne _ hitems, hsame, hrevisited]
    exact h.spread
  · rw [htried, hp.inconsistent]
    exact (Nat.add_right_comm ..).trans (congrArg (· + 1) h.tried)

/-- A backward revisit pays for the place in which its write is the last one. -/
theorem backward {item last : Alternative} {agenda : Agenda} (h : Balanced started a)
    (hpop : a.agenda.pop? = some (item, agenda))
    (hkind : item.kind = .backward ∨ item.kind = .lockBackward) (hitems : WithoutLast items)
    (hlast : last.kind = .writeLast)
    (hp : Pushes (items ++ [last]) { a with agenda, popped := a.popped.add item.kind } a') :
    Balanced started a' := by
  obtain ⟨hrevisited, htried⟩ := counts_of_backward hp.popped hkind
  have hsame : agenda.pushed = a.agenda.pushed := (Agenda.waiting_of_pop hpop .readFrom).2
  refine ⟨h.pushed_of_pop hpop hp.agenda hp.popped, ?_, ?_⟩
  · have hmore := Tally.count_add (items.foldl Agenda.push agenda).pushed last.kind .writeLast
    rw [Agenda.pushed_foldl_of_ne _ hitems, hsame, if_pos hlast.symm] at hmore
    rw [hp.agenda, List.foldl_append, hrevisited, ← h.spread]
    exact hmore
  · rw [htried, hp.inconsistent]
    exact h.tried

/-- **Dealing with the alternative on top of the stack restores the balance.** A graph that was
found starts a run. -/
theorem processed {item : Alternative} {agenda : Agenda}
    {order : Option (List Node)} (h : Balanced started a)
    (hpop : a.agenda.pop? = some (item, agenda))
    (hp : Processed item order { a with agenda, popped := a.popped.add item.kind } a') :
    Balanced (if order.isSome then started + 1 else started) a' := by
  cases hp with
  | spread hitem hitems hlast hp =>
    exact h.backward hpop (by simpa [Alternative.isBackward] using hitem) hitems hlast hp
  | found hkind hitems hp => exact h.forward hpop hkind hitems hp
  | @inconsistent _ _ b hkind hitems hp =>
    -- the run that the alternative would have started is counted as an inconsistent graph
    have hb := h.forward hpop hkind hitems hp
    exact ⟨hb.pushed, hb.spread, (Nat.add_right_comm started 1 b.inconsistent).symm.trans hb.tried⟩

/-- **Choosing the next alternative keeps the balance.** A run is started when one was found. -/
theorem select? {outcome : Outcome} (h : Balanced started a)
    (hs : Engine.select? fuel a = some (.ok outcome, a')) :
    Balanced (if outcome = .haltSearch then started else started + 1) a' := by
  induction fuel generalizing a with
  | zero => cases hs
  | succ fuel ih =>
    rw [Engine.select?] at hs
    split at hs
    · cases hs
      exact h
    · rename_i item agenda hpop
      dsimp only at hs
      split at hs
      · cases hs
      · rename_i hrun
        exact ih (h.processed hpop (processed_of_ok hrun)) hs
      · rename_i hrun
        cases hs
        exact (h.processed hpop (processed_of_ok hrun)).congr rfl rfl rfl

/-- **Preparing a run keeps the balance.** The first run is counted from the start. -/
theorem startRun? {outcome : Outcome} (h : Balanced started a) (hn : n ≠ 0)
    (hs : a.startRun? fuel n = some (.ok outcome, a')) :
    Balanced (if outcome = .haltSearch then started else started + 1) a' := by
  unfold Engine.startRun? at hs
  rw [if_neg hn] at hs
  split at hs
  · cases hs
    exact h
  · have hready : Balanced started
        { a with locations := a.locations.clearAliases, isGuided := true } :=
      h.congr rfl rfl rfl
    exact hready.select? hs

end Balanced

end Engine

end Interleaving
