import Interleaving.Proofs.Tracking.Consistent
import Interleaving.Proofs.Tracking.Moves
import Interleaving.Proofs.Tracking.Threads

/-!
# The ledger of a run

An engine that has recorded a run from its start keeps a **ledger** of it
(`Interleaving.Engine.Ledger`): what the machine has done comes down to moves, the graph lists the
events of the moves one move after the other, it shows of every event what the move showed, and the
edges of threads keep the moves in order. Every step of the machine adds one move to the ledger, or
it adds nothing because a task starts to wait (`Interleaving.Engine.Ledger.step`). So **every run
without errors has a ledger** (`Interleaving.Engine.exists_ledger`).
-/

namespace Interleaving

open Interleaving.Machine Interleaving.Graph

variable {a a' : Engine} {m m' m₀ : Machine} {es : List Event} {xs : List Move}
  {x : Move} {id : Int} {seen os : List Observation} {t₀ f₀ f : TaskFrame} {e : Effect} {k : Key}
  {u n : Nat} {p : Place} {ids : List Int}

namespace Machine

/-- A task has finished when the task that it was at rest has. -/
theorem TaskFrame.Lingers.finished_iff (h : f₀.Lingers f) :
    f.state = .finished ↔ f₀.state = .finished := by
  cases h with
  | same _ h => rw [h]
  | joining ready _ h => simp [h, ready]
  | waiting ready _ h => simp [h, ready]

/-- The task of a machine that a task at rest stands for. -/
theorem Rests.exists_task (h : Rests m₀ m) (hf : m₀.task? id = some f₀) :
    ∃ f, m.task? id = some f ∧ f₀.Lingers f := by
  obtain ⟨hid, ht⟩ := task?_eq_some.mp hf
  have hlt := (List.getElem?_eq_some_iff.mp ht).1
  rw [← h.length] at hlt
  have hu := task?_eq_some.mpr ⟨hid, List.getElem?_eq_getElem hlt⟩
  obtain ⟨f', hf', hlingers⟩ := h.tasks hu
  rw [hf, Option.some_inj] at hf'
  exact ⟨_, hu, hf'.symm ▸ hlingers⟩

end Machine

namespace Engine

/-- Without aliases events stay where they are. -/
theorem resolveLocation_of_aliases (h : ∀ n, a.locations.alias? n = none) (e : Event) :
    (a.resolveLocation e).1 = e := by
  unfold resolveLocation
  split
  · show ({ e with location := (a.locations.resolve e.location).1 } : Event) = e
    rw [LocationTable.resolve_of_alias? (h _)]
  · rfl

/-- **What an engine has recorded of a run**, as a list of moves. -/
structure Ledger (m₀ : Machine) (a : Engine) (m : Machine) (es : List Event)
    (xs : List Move) : Prop where
  tracks : a.Tracks m
  aliases : ∀ n, a.locations.alias? n = none
  recorded : a.graph.Recorded a.graph.order
  order : a.graph.order = .init :: .place 0 0 :: xs.flatMap Move.keys
  threaded : a.graph.Threaded xs
  faces : ∀ x ∈ xs, x.keys.map a.graph.face = (x.events fun p => (m.touch p).1).map fun e =>
    some (faceOf e)
  touched : ∀ x ∈ xs, ∀ p, x.effect.report.place? = some p → (m.location? p).isSome = true
  plays : m₀.Plays xs
  rests : Rests (m₀.play xs) m
  events : es = xs.flatMap fun x => x.events fun p => (m.touch p).1

/-- The number of a place that was touched. -/
theorem Tracks.touch_pos (h : a.Tracks m) (hp : (m.location? p).isSome = true) :
    0 < (m.touch p).1 := by
  obtain ⟨n, hn⟩ := Option.isSome_iff_exists.mp hp
  rw [touch_fst_of_some hn]
  exact h.tracks.sites.numbered hn

namespace Ledger

variable (h : Ledger m₀ a m es xs)
include h

/-- A task of the machine at rest has begun, and the graph shows whether it has come to its end. -/
theorem stage (hf : (m₀.play xs).task? (u + 1) = some f₀) : .place u 0 ∈ a.graph.order ∧
    ∀ {n}, a.graph.Fills u n →
      (f₀.state = .finished ↔ a.graph.kindOf? (.prior u n) = some .threadFinish) := by
  obtain ⟨f, hf', hlingers⟩ := h.rests.exists_task hf
  obtain ⟨-, htask⟩ := task?_eq_some.mp hf'
  rw [show ((u : Int) + 1 - 1).toNat = u by omega] at htask
  have hstage := h.tracks.tracks.stage u
  rw [htask] at hstage
  exact ⟨hstage.begun.mpr rfl, fun hn => hlingers.finished_iff.symm.trans (hstage.ended rfl hn)⟩

/-- The number of a task is a word. -/
theorem wrap_task (hf : (m₀.play xs).task? (u + 1) = some f₀) :
    Word.wrap ((u : Int) + 1 - 1) = u := by
  obtain ⟨f, hf', -⟩ := h.rests.exists_task hf
  obtain ⟨-, htask⟩ := task?_eq_some.mp hf'
  exact h.tracks.tracks.wrap_task h.recorded.bounded
    (by rwa [show ((u : Int) + 1 - 1).toNat = u by omega] at htask)

/-! ### Events that enter -/

section Enters

variable {t : Nat} {g' : Graph} {e₁ : Event} {extra : Relation → Key → Prop}

/-- **The first event of a move of a task** comes after all moves of the task, and after those of a
task that it joins. -/
theorem threaded_own (hmakes : Makes (m₀.play xs) (t + 1) t₀ e) (hspawned : e.spawned = none)
    (hkind : e₁.kind ≠ .threadStart)
    (hjoins : ∀ target, t₀.joins? = some target →
      e₁.kind = .threadJoin ∧ e₁.joinedTask? = some (Word.wrap (target - 1)))
    (hn : a.graph.Fills t n) (henters : Entry.Enters a.graph g' a.graph.order e₁ t n extra)
    (hbound : Bound a.graph e₁ extra) : g'.Threaded (xs ++ [⟨t + 1, t₀, e, .place t n⟩]) := by
  obtain ⟨hbegun, -⟩ := h.stage hmakes.task
  have hl := henters.logs
  have hn0 : n ≠ 0 := fun heq => absurd ((hn 0).mp hbegun) (by omega)
  obtain ⟨hthreaded, hback⟩ := h.threaded.extend h.recorded henters.recorded.toWired hl hn hn0 hkind
  refine hthreaded.concat (fun hs => ?_) rfl hl.self_mem (fun htask => ?_) (fun habout hj => ?_)
    fun x hx hbinds => ?_
  · change e.spawned.isSome = true at hs
    rw [hspawned] at hs
    cases hs
  · obtain rfl := Int.ofNat_inj.mp ((Int.add_left_inj 1).mp htask)
    exact hl.mem hbegun
  · have hu :=
      habout.elim (fun htask => Int.ofNat_inj.mp ((Int.add_left_inj 1).mp htask)) Int.ofNat_inj.mp
    subst hu
    obtain rfl := hj.unique (hl.gains.fills hn)
    exact .last rfl
  · cases hbinds with
    | task htask => exact hback x hx (Or.inl htask)
    | starts htask => exact hback x hx (Or.inr ((Int.add_left_inj 1).mp htask))
    | spawns _ hy =>
      change e.spawned.isSome = true at hy
      rw [hspawned] at hy
      cases hy
    | joins htarget =>
      obtain ⟨other, hother, hfinished⟩ := hmakes.joined _ htarget
      obtain ⟨w, hw, -⟩ := exists_task hother
      obtain ⟨hjoin, hjoined⟩ := hjoins _ htarget
      rw [hw] at hother hjoined
      rw [h.wrap_task hother] at hjoined
      obtain ⟨j, hj, hextra⟩ := hbound.joined hjoin w hjoined
      have hend := ((h.stage hother).2 hj).mp hfinished
      have hedge : g'.Earlier (.prior w j) (.place t n) := hl.earlier (by decide) (Or.inr hextra)
      rcases (h.threaded.upto x hx (Or.inl hw) hj).of_finished hend with heq | hpast
      · exact heq ▸ .single hedge
      · exact (hl.past h.recorded.toWired (h.recorded.prior_mem hj) hpast).tail hedge

/-- **The start of a task** comes after all moves of the task that spawns it, and after all
starts. -/
theorem threaded_start (hmakes : Makes (m₀.play xs) (t + 1) t₀ e) (hjoins : t₀.joins? = none)
    (hkind : e₁.kind = .threadStart)
    (hspawner : e₁.startedBy? = some (Word.wrap ((t : Int) + 1 - 1)))
    (hu : u = (m₀.play xs).tasks.length) (hn : a.graph.Fills u n)
    (henters : Entry.Enters a.graph g' a.graph.order e₁ u n extra)
    (hbound : Bound a.graph e₁ extra) : g'.Threaded (xs ++ [⟨t + 1, t₀, e, .place u n⟩]) := by
  obtain ⟨hbegun, hends⟩ := h.stage hmakes.task
  have hl := henters.logs
  have hn0 : n = 0 := by
    have hstage := (h.tracks.tracks.stage u).begun
    rw [List.getElem?_eq_none (by rw [h.rests.length, hu]), hn 0] at hstage
    simpa using hstage
  rw [h.wrap_task hmakes.task] at hspawner
  obtain ⟨j, hj, hextra⟩ := hbound.started hkind t hspawner
  have hj0 : j ≠ 0 := fun heq => absurd ((hj 0).mp hbegun) (by omega)
  have hut : t ≠ u := by
    rintro rfl
    exact absurd ((hn 0).mp hbegun) (by omega)
  have hedge : g'.Earlier (.prior t j) (.place u n) := hl.earlier (by decide) (Or.inr hextra)
  obtain ⟨hthreaded, hstarts⟩ :=
    h.threaded.start h.recorded henters.recorded.toWired hl hn hn0 (hbound.created hkind)
  have hself : g'.kindOf? (.place u n) = some .threadStart := by
    rw [kindOf?_eq_face, hl.self]
    exact congrArg some hkind
  -- what the spawner has done so far
  have hback : ∀ x ∈ xs, (x.task = t + 1 ∨ x.key.task = t) → g'.Past x.key (.place u n) := by
    intro x hx habout
    cases h.threaded.upto x hx habout hj with
    | last heq => exact heq ▸ .single hedge
    | past hpast => exact (hl.past h.recorded.toWired (h.recorded.prior_mem hj) hpast).tail hedge
    | spawned hin => exact hstarts (h.recorded.start hin)
  refine hthreaded.concat (fun _ => hself) rfl hl.self_mem (fun htask => ?_) (fun habout hi => ?_)
    fun x hx hbinds => ?_
  · obtain rfl := Int.ofNat_inj.mp ((Int.add_left_inj 1).mp htask)
    exact hl.mem hbegun
  · rcases habout with htask | htask
    · obtain rfl := Int.ofNat_inj.mp ((Int.add_left_inj 1).mp htask)
      obtain rfl := ((hl.gains.fills_other hut _).mp hi).unique hj
      refine .spawned ((hl.edge (by decide) hl.self_mem).mpr (Or.inr ⟨rfl, Or.inr hextra⟩)) hj0
        fun hend => ?_
      rw [hl.kindOf?_eq (h.recorded.prior_mem hj)] at hend
      have hfinished := (hends hj).mpr hend
      rw [hmakes.ready] at hfinished
      cases hfinished
    · obtain rfl := Int.ofNat_inj.mp htask
      obtain rfl := hi.unique (hl.gains.fills hn)
      exact .last rfl
  · cases hbinds with
    | task htask => exact hback x hx (Or.inl htask)
    | starts htask => exact hback x hx (Or.inr ((Int.add_left_inj 1).mp htask))
    | spawns hspawned _ => exact hstarts (h.threaded.spawns x hx hspawned)
    | joins htarget =>
      change t₀.joins? = _ at htarget
      rw [hjoins] at htarget
      cases htarget

end Enters

/-! ### Steps -/

/-- What the moves so far have shown is the same after a step. -/
theorem events_step (hstep : m.step id = (.ok seen, m')) (hx : x ∈ xs) :
    (x.events fun p => (m'.touch p).1) = x.events fun p => (m.touch p).1 := by
  refine Effect.events_congr fun p hp => ?_
  obtain ⟨n, hn⟩ := Option.isSome_iff_exists.mp (h.touched x hx p hp)
  rw [touch_fst_of_some hn, touch_fst_of_some (location?_step hstep hn)]

theorem touched_step
    (hstep : m.step id = (.ok seen, m')) (hx : x ∈ xs) (hp : x.effect.report.place? = some p) :
    (m'.location? p).isSome = true := by
  obtain ⟨n, hn⟩ := Option.isSome_iff_exists.mp (h.touched x hx p hp)
  rw [location?_step hstep hn]
  rfl

theorem keys_mem (hx : x ∈ xs) (hk : k ∈ x.keys) : k ∈ a.graph.order := by
  rw [h.order]
  exact List.mem_cons_of_mem _ (List.mem_cons_of_mem _ (List.mem_flatMap.mpr ⟨x, hx, hk⟩))

/-- A step of which the graph shows nothing. -/
theorem wait (hstep : m.step id = (.ok seen, m')) (hrests : Rests (m₀.play xs) m')
    (hresembles : Resembles a.graph a'.graph) (hwired : a'.graph.Wired) (htracks : a'.Tracks m')
    (haliases : ∀ n, a'.locations.alias? n = none) : Ledger m₀ a' m' es xs where
  tracks := htracks
  aliases := haliases
  recorded := hresembles.order ▸ hresembles.recorded h.recorded hwired
  order := hresembles.order.trans h.order
  threaded := h.threaded.resembles hresembles h.recorded hwired
  faces := fun x hx => by
    rw [h.events_step hstep hx, ← h.faces x hx]
    exact List.map_congr_left fun k hk => hresembles.face k (h.keys_mem hx hk)
  touched := fun x hx p hp => h.touched_step hstep hx hp
  plays := h.plays
  rests := hrests
  events := h.events.trans (List.flatMap_congr fun x hx => (h.events_step hstep hx).symm)

/-- **A step that is a move.** -/
theorem move (hstep : m.step id = (.ok seen, m')) (hs : StepsBy (m₀.play xs) m' id seen t₀ e)
    (htracks : a'.Tracks m') (haliases : ∀ n, a'.locations.alias? n = none)
    (hkey : k.task + 1 = if e.spawned.isSome then ((m₀.play xs).tasks.length : Int) + 1 else id)
    (hrecorded : a'.graph.Recorded a'.graph.order)
    (horder : a'.graph.order = a.graph.order ++ (Move.mk id t₀ e k).keys)
    (hthreaded : a'.graph.Threaded (xs ++ [⟨id, t₀, e, k⟩]))
    (hface : ∀ k ∈ a.graph.order, a'.graph.face k = a.graph.face k)
    (hfaces : (Move.mk id t₀ e k).keys.map a'.graph.face = (m'.stepEvents id seen).map fun e =>
      some (faceOf e)) :
    Ledger m₀ a' m' (es ++ m'.stepEvents id seen) (xs ++ [⟨id, t₀, e, k⟩]) where
  tracks := htracks
  aliases := haliases
  recorded := hrecorded
  order := by
    rw [horder, h.order, List.flatMap_append, List.flatMap_singleton]
    rfl
  threaded := hthreaded
  faces := by
    intro x hx
    rcases List.mem_append.mp hx with hx | hx
    · rw [h.events_step hstep hx, ← h.faces x hx]
      exact List.map_congr_left fun k hk => hface k (h.keys_mem hx hk)
    · rw [List.mem_singleton.mp hx, hfaces, hs.events]
      rfl
  touched := by
    intro x hx p hp
    rcases List.mem_append.mp hx with hx | hx
    · exact h.touched_step hstep hx hp
    · rw [List.mem_singleton.mp hx] at hp
      exact hs.touched p hp
  plays := plays_concat.mpr ⟨h.plays, hs.makes.canMove hkey⟩
  rests := by
    rw [play_append]
    exact hs.rests
  events := by
    rw [List.flatMap_append, List.flatMap_singleton, hs.events]
    refine congrArg (· ++ _) (h.events.trans ?_)
    exact List.flatMap_congr fun x hx => (h.events_step hstep hx).symm

section Moves

variable {t : Nat} {e₁ e₂ : Event} {extra extra' : Relation → Key → Prop}
  (hstep : m.step (t + 1) = (.ok seen, m')) (hs : StepsBy (m₀.play xs) m' (t + 1) seen t₀ e)
  (htracks : a'.Tracks m') (haliases : ∀ n, a'.locations.alias? n = none)
include hstep hs htracks haliases

/-- A move that is one event of its task. -/
theorem move_own (hes : m'.stepEvents (t + 1) seen = [e₁]) (hpairs : e.report.pairs = false)
    (hspawned : e.spawned = none) (hkind : e₁.kind ≠ .threadStart)
    (hjoins : ∀ target, t₀.joins? = some target →
      e₁.kind = .threadJoin ∧ e₁.joinedTask? = some (Word.wrap (target - 1)))
    (hn : a.graph.Fills t n) (henters : Entry.Enters a.graph a'.graph a.graph.order e₁ t n extra)
    (hbound : Bound a.graph e₁ extra) :
    Ledger m₀ a' m' (es ++ m'.stepEvents (t + 1) seen) (xs ++ [⟨t + 1, t₀, e, .place t n⟩]) := by
  have hkeys : (Move.mk (t + 1) t₀ e (.place t n)).keys = [.place t n] := by
    rw [Move.keys, if_neg (by simpa using hpairs)]
  have hl := henters.logs
  refine h.move hstep hs htracks haliases ?_ ?_ ?_ ?_ hl.face ?_
  · rw [hspawned]
    rfl
  · rw [hl.order]
    exact henters.recorded
  · rw [hkeys]
    exact hl.order
  · exact h.threaded_own hs.makes hspawned hkind hjoins hn henters hbound
  · rw [hkeys, hes, List.map_singleton, List.map_singleton, hl.self]

/-- A move that is two halves. -/
theorem move_pair {g₁ : Graph}
    (hes : m'.stepEvents (t + 1) seen = [e₁, e₂]) (hpairs : e.report.pairs = true)
    (hspawned : e.spawned = none) (hjoins : t₀.joins? = none)
    (hpair : e₁.kind.pairsWith e₂.kind = true) (hn : a.graph.Fills t n)
    (hfirst : Entry.Enters a.graph g₁ a.graph.order e₁ t n extra)
    (hsecond : Entry.Enters g₁ a'.graph (a.graph.order ++ [.place t n]) e₂ t (n + 1) extra') :
    Ledger m₀ a' m' (es ++ m'.stepEvents (t + 1) seen) (xs ++ [⟨t + 1, t₀, e, .place t n⟩]) := by
  have hkeys : (Move.mk (t + 1) t₀ e (.place t n)).keys = [.place t n, .place t (n + 1)] := by
    rw [Move.keys, if_pos hpairs]
    rfl
  have hkinds : (e₁.kind ≠ .threadStart ∧ e₁.kind ≠ .threadJoin) ∧ e₂.kind ≠ .threadStart := by
    revert hpair
    generalize e₁.kind = kind
    generalize e₂.kind = kind'
    cases kind <;> cases kind' <;> decide
  have horder : a'.graph.order = a.graph.order ++ [.place t n] ++ [.place t (n + 1)] := by
    rw [hsecond.logs.order, hfirst.logs.order]
  refine h.move hstep hs htracks haliases ?_ ?_ ?_ ?_ (fun k hk => ?_) ?_
  · rw [hspawned]
    rfl
  · rw [horder]
    exact hsecond.recorded
  · rw [hkeys, horder, List.append_assoc]
    rfl
  · have hthreaded := h.threaded_own hs.makes hspawned hkinds.1.1 (fun target htarget => by
      rw [hjoins] at htarget
      cases htarget) hn hfirst (.of_kind hkinds.1)
    exact (hthreaded.extend hfirst.recorded hsecond.recorded.toWired hsecond.logs
      (hfirst.logs.gains.fills hn) (Nat.succ_ne_zero n) hkinds.2).1
  · exact (hsecond.logs.face k (hfirst.logs.mem hk)).trans (hfirst.logs.face k hk)
  · rw [hkeys, hes, List.map_cons, List.map_singleton, List.map_cons, List.map_singleton,
      hsecond.logs.self, hsecond.logs.face _ hfirst.logs.self_mem, hfirst.logs.self]

/-- A move that starts another task. -/
theorem move_start (hes : m'.stepEvents (t + 1) seen = [e₁]) (hpairs : e.report.pairs = false)
    (hspawned : e.spawned.isSome = true) (hjoins : t₀.joins? = none)
    (hkind : e₁.kind = .threadStart)
    (hspawner : e₁.startedBy? = some (Word.wrap ((t : Int) + 1 - 1)))
    (hu : u = (m₀.play xs).tasks.length) (hn : a.graph.Fills u n)
    (henters : Entry.Enters a.graph a'.graph a.graph.order e₁ u n extra)
    (hbound : Bound a.graph e₁ extra) :
    Ledger m₀ a' m' (es ++ m'.stepEvents (t + 1) seen) (xs ++ [⟨t + 1, t₀, e, .place u n⟩]) := by
  have hkeys : (Move.mk (t + 1) t₀ e (.place u n)).keys = [.place u n] := by
    rw [Move.keys, if_neg (by simpa using hpairs)]
  have hl := henters.logs
  refine h.move hstep hs htracks haliases ?_ ?_ ?_ ?_ hl.face ?_
  · rw [if_pos hspawned, ← hu]
    rfl
  · rw [hl.order]
    exact henters.recorded
  · rw [hkeys]
    exact hl.order
  · exact h.threaded_start hs.makes hjoins hkind hspawner hu hn henters hbound
  · rw [hkeys, hes, List.map_singleton, List.map_singleton, hl.self]

end Moves

/-- **Every step of the machine** adds one move to the ledger, or none. -/
theorem step (hstep : m.step id = (.ok seen, m')) (hok : ∀ o ∈ seen, o.kind ≠ .assertFailure)
    (hadv : a.Advances a.graph.order id seen m m' a') :
    ∃ xs', Ledger m₀ a' m' (es ++ m'.stepEvents id seen) xs' := by
  have haliases : ∀ n, a'.locations.alias? n = none := fun n => (hadv.aliases n).trans (h.aliases n)
  have henlists := hadv.enlists hok
  rw [List.map_congr_left fun e _ => resolveLocation_of_aliases haliases e,
    List.map_id'] at henlists
  rcases h.rests.step hstep hok with ⟨hrests, hnone⟩ | ⟨t₀, e, hs⟩
  · rw [hnone] at henlists ⊢
    cases henlists with
    | labels hresembles hwired =>
      rw [List.append_nil]
      exact ⟨xs, h.wait hstep hrests hresembles hwired hadv.tracks haliases⟩
  · obtain ⟨t, rfl, -⟩ := exists_task hs.makes.task
    -- the task of the first event
    obtain ⟨c, hc⟩ : ∃ c : Int, c + 1 =
        if e.spawned.isSome then ((m₀.play xs).tasks.length : Int) + 1 else t + 1 :=
      ⟨_, Int.sub_add_cancel _ 1⟩
    have hshows := (hs.makes.canMove (k := ⟨c, 0⟩) hc).shows fun p hp =>
      hadv.tracks.touch_pos (hs.touched p hp)
    rw [Move.events, ← hs.events] at hshows
    generalize hes : m'.stepEvents (t + 1) seen = shown at hshows henlists
    have hown : ∀ {u : Nat} {e₁ : Event}, e₁.task + 1 = t + 1 → e₁.task = u → t = u :=
      fun htask heq => by omega
    cases hshows with
    | own hpairs hspawned htask hkind hjoins hjoined =>
      cases henlists with
      | one htask' hn henters hbound =>
        obtain rfl := hown htask htask'
        rw [← hes]
        exact ⟨_, h.move_own hstep hs hadv.tracks haliases hes hpairs hspawned hkind.1
          (fun target htarget => ⟨hjoins.mpr (by rw [htarget]; rfl), hjoined target htarget⟩) hn
          henters hbound⟩
    | pair hpairs hspawned hjoins htask =>
      cases henlists with
      | pair htask' _ hn hfirst hsecond hpair =>
        obtain rfl := hown htask htask'
        rw [← hes]
        exact ⟨_,
          h.move_pair hstep hs hadv.tracks haliases hes hpairs hspawned hjoins hpair hn
            hfirst hsecond⟩
    | start hpairs hspawned hjoins htask hkind hspawner =>
      cases henlists with
      | @one _ u _ _ _ htask' hn henters hbound =>
        have hu : u = (m₀.play xs).tasks.length := by
          rw [if_pos hspawned] at hc
          exact Int.ofNat_inj.mp (htask'.symm.trans (htask.trans ((Int.add_left_inj 1).mp hc)))
        rw [← hes]
        exact ⟨_,
          h.move_start hstep hs hadv.tracks haliases hes hpairs hspawned hjoins hkind hspawner
            hu hn henters
          hbound⟩

/-- **Along a run** the ledger goes on. -/
theorem follow? (hrun : m.follow? ids = some (os, m')) (hok : ∀ o ∈ os, o.kind ≠ .assertFailure)
    (hroom : a.graph.order.length + 2 * ids.length < 2 ^ 62)
    (hfits : Word.fits (m.lastLocation + ids.length) = true) :
    ∃ a' es' xs', a.learnAll os = .ok a' ∧ m.events? ids = some es' ∧
      Ledger m₀ a' m' (es ++ es') xs' := by
  induction ids generalizing a m os es xs with
  | nil =>
    cases hrun
    exact ⟨a, [], xs, rfl, rfl, by rwa [List.append_nil]⟩
  | cons id ids ih =>
    obtain ⟨seen, rest, m₁, hstep, hrest, rfl⟩ := follow?_cons_eq_some hrun
    rw [List.length_cons] at hroom hfits
    have hbase := h.tracks.tracks.sites.base
    have hfits' : ∀ {n : Int}, 0 ≤ n → n ≤ m.lastLocation + (ids.length + 1 : Nat) →
        Word.fits n = true := by
      intro n hn hle
      rw [Word.fits, Bool.and_eq_true, decide_eq_true_eq, decide_eq_true_eq, Word.least,
        Word.greatest] at hfits ⊢
      lia
    obtain ⟨a₁, hadv⟩ :=
      h.tracks.takes h.recorded (by omega) (hfits' (by lia) (by lia)) (takes_of_step hstep)
    have hlen := hadv.length
    have hlast := hadv.last
    have hbase₁ := hadv.tracks.tracks.sites.base
    obtain ⟨xs₁, h₁⟩ := h.step hstep (fun o ho => hok o (List.mem_append_left _ ho)) hadv
    obtain ⟨a', es', xs', hlearn, hes, h'⟩ :=
      ih h₁ hrest (fun o ho => hok o (List.mem_append_right _ ho)) (by omega)
      (hfits' (by lia) (by push_cast; lia))
    refine ⟨a', m₁.stepEvents id seen ++ es', xs',
      (learnAll_append a seen rest hadv.learns).trans hlearn, ?_, ?_⟩
    · rw [events?, hstep]
      dsimp only
      rw [hes, Option.map_some]
    · rwa [← List.append_assoc]

end Ledger

/-- **The ledger of a run starts empty.** -/
theorem Begins.ledger {run : Int} (h : Begins (m.reset run).2 a) :
    Ledger (m.reset run).2 a (m.reset run).2 [] [] := by
  obtain ⟨e, extra, hkind, henters⟩ := h.enters
  have hl := henters.logs
  have hself : a.graph.kindOf? (.place 0 0) = some .threadStart := by
    rw [kindOf?_eq_face, hl.self]
    exact congrArg some hkind
  have hlast : a.graph.lastStart = .place 0 0 := by rw [hl.start, if_pos hkind]
  have hmem : ∀ {k}, k ∈ a.graph.order → k = .init ∨ k = .place 0 0 := fun hk => by
    rw [h.order] at hk
    simpa using hk
  have hrecorded : a.graph.Recorded a.graph.order := by
    rw [h.order]
    exact henters.recorded
  refine ⟨h.tracks, h.aliases, hrecorded, h.order,
    ⟨fun {k} hk => ?_, ⟨hself, fun hk => ?_⟩, by simp, by simp, by simp, by simp,
    .nil⟩, by simp, by simp, trivial, .refl fun u f hf => ?_, rfl⟩
  · rcases hmem (hrecorded.mem_of_kindOf? hk (by decide)) with rfl | rfl
    · obtain ⟨e₀, he₀⟩ := hrecorded.event? hrecorded.init_mem
      rw [kindOf?_of_event? he₀, hrecorded.initial he₀] at hk
      cases hk
    · exact Or.inl hlast.symm
  · exact (hmem hk).imp_right Or.inl
  · obtain rfl := List.mem_singleton.mp (List.mem_of_getElem? (task?_eq_some.mp hf).2)
    exact .of_ready rfl

/-- **Every run without errors has a ledger.** -/
theorem exists_ledger {run : Int} (hn : 0 ≤ run ∧ run < 2 ^ 46)
    (hrun : (m.reset run).2.follow? ids = some (os, m')) (hok : ∀ o ∈ os, o.kind ≠ .assertFailure)
    (hroom : ids.length < 2 ^ 60) :
    ∃ a es xs, Engine.initial.learnAll ((m.reset run).1 ++ os) = .ok a ∧
      (m.reset run).2.events? ids = some es ∧ Ledger (m.reset run).2 a m' es xs := by
  obtain ⟨a, hstart, hbegins⟩ := begins_reset m hn
  have hfits : Word.fits ((m.reset run).2.lastLocation + ids.length) = true := by
    rw [lastLocation_reset m hn, locationStride, Word.fits, Bool.and_eq_true, decide_eq_true_eq,
      decide_eq_true_eq, Word.least, Word.greatest]
    omega
  obtain ⟨a', es, xs, hlearn, hes, hledger⟩ := hbegins.ledger.follow? hrun hok
    (by rw [hbegins.order, List.length_cons, List.length_singleton]; omega) hfits
  exact ⟨a', es, xs, (learnAll_append .initial _ os hstart).trans hlearn, hes, hledger⟩

end Engine

end Interleaving
