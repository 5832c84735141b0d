import Interleaving.Exploration.Selection
import Interleaving.Proofs.Revisit.Offer

/-!
# Alternatives that are ready

An alternative on the stack may wait for many runs before it is tried, and it is then tried on a
graph of its own. It is **ready** (`Interleaving.Alternative.Ready`) when that graph is steady, the
event that the alternative is about is the latest one of it, and the change that it proposes is one
to it. How an alternative came to be pushed does not matter: those that a run pushes, those that a
backward revisit is spread into and those that trying another one pushes are ready alike.

A computation of the engine **upholds** the stack (`Interleaving.Engine.Upholds`) when it starts
from a stack of ready alternatives and leaves one, unless it breaks off. The property passes from
the parts of a computation to the whole. Here are the parts that put alternatives on the stack.
-/

namespace Interleaving

variable {N M : Nat}

/-- **A graph whose latest event waits for something to be done about it**, without labels. -/
structure Graph.Poised (g : Graph) (k : Key) (N : Nat) : Prop extends g.Steady N where
  unlabelled : ∀ k, g.isLabel k = false
  latest : ∃ o, g.order = o ++ [k]
  place : ∃ t n : Nat, k = .place t n

/-- **An alternative whose change can be made to its graph.** -/
inductive Alternative.Ready (N : Nat) : Alternative → Prop
  /-- The latest event is a read that sees one write; another one is in the chain. -/
  | readFrom {read write source : Key} {g : Graph} {m : Node} {additional : List Event}
      (graph : g.Poised read N) (find : g.find? read = some m) (kind : m.kind.isRead = true)
      (sources : m.predecessors .readsFrom = [source])
      (ne : source ≠ write) (mem : write ∈ g.chain (g.locationOf read))
      (length : additional.length ≤ 1) (admits : ∀ e ∈ additional, g.Admits e N) :
      Ready N ⟨.readFrom, read, write, some g, additional⟩
  /-- The latest event is a write that takes effect last or has not taken effect; another one does
  not happen before it. -/
  | writeBefore {moved before : Key} {g : Graph} (graph : g.Poised moved N)
      (mem : before ∈ g.chain (g.locationOf moved)) (ne : before ≠ .init)
      (not : g.happensBefore before moved = false)
      (last : moved ∉ g.chain (g.locationOf moved) ∨ g.lastWrite (g.locationOf moved) = moved) :
      Ready N ⟨.writeBefore, moved, before, some g, []⟩
  /-- The latest event is a write that takes effect last. -/
  | placed {kind : Alternative.Kind} {write : Key} {g : Graph} {additional : List Event}
      (kinds : kind = .writeLast ∨ kind = .backward ∨ kind = .lockBackward)
      (graph : g.Poised write N) (counted : g.Counted)
      (last : ∃ ks, g.chain (g.locationOf write) = ks ++ [write]) (length : additional.length ≤ 1)
      (admits : ∀ e ∈ additional, g.Admits e N) : Ready N ⟨kind, write, ⟨0, 0⟩, some g, additional⟩

namespace Graph

variable {g g' : Graph} {k w read : Key} {e : Event} {ks : List Key}

/-- A graph that is poised stays so when there is more room. -/
theorem Poised.mono (h : g.Poised k N) (hle : N ≤ M) (hroom : M < 2 ^ 62) : g.Poised k M :=
  ⟨h.toSteady.mono hle hroom, h.unlabelled, h.latest, h.place⟩

/-- The event for which a graph is poised is in it. -/
theorem Poised.mem (h : g.Poised k N) : k ∈ g.order := by
  obtain ⟨o, ho⟩ := h.latest
  rw [ho]
  exact List.mem_append_right _ (List.mem_singleton_self k)

theorem Poised.ne_init (h : g.Poised k N) : k ≠ .init := by
  obtain ⟨t, n, rfl⟩ := h.place
  exact Key.place_ne_init t n

/-- A copy waits with its latest event. -/
theorem Steady.poised_copy (h : g.Steady N)
    (hlatest : ∃ o, g.order = o ++ [k]) (hplace : ∃ t n : Nat, k = .place t n) :
    g.copy.Poised k N := by
  obtain ⟨hs, hr⟩ := h.copy
  exact ⟨hs, h.toShaped.isLabel_copy, hr.order ▸ hlatest, hplace⟩

/-- Events of graphs that resemble each other have the same locations. -/
theorem Resembles.locationOf (hr : Resembles g g') (h : g.Shaped) (h' : g'.Shaped)
    (hk : k ∈ g.order) : g'.locationOf k = g.locationOf k := by
  obtain ⟨e, he⟩ := h.event? hk
  obtain ⟨e', he'⟩ := h'.event? (hr.order ▸ hk)
  rw [locationOf_eq_of_event? he, locationOf_eq_of_event? he', (eq_of_face he' he (hr.face k hk)).2]

/-! ### Older writes -/

/-- What is passed on the way back to the first write that happens before the target does not. -/
theorem not_before_of_mem_dropLast (hk : k ∈ (g.upToBefore w ks).dropLast) :
    g.happensBefore k w = false := by
  induction ks with
  | nil => cases hk
  | cons x ks ih =>
    unfold upToBefore at hk
    split at hk
    · cases hk
    · rename_i hnot
      cases hmore : g.upToBefore w ks with
      | nil =>
        rw [hmore] at hk
        cases hk
      | cons y ys =>
        rw [hmore, List.dropLast_cons_cons, ← hmore] at hk
        rcases List.mem_cons.mp hk with rfl | hk
        · exact Bool.eq_false_iff.mpr hnot
        · exact ih hk

/-- The first event is at the end of the way back at most. -/
theorem init_not_mem_dropLast {ws : List Key} (hws : .init ∉ ws) :
    .init ∉ (g.upToBefore w (ws ++ [.init])).dropLast := by
  induction ws with
  | nil =>
    rw [List.nil_append, upToBefore, upToBefore]
    split <;> simp
  | cons x ws ih =>
    rw [List.mem_cons, not_or] at hws
    obtain ⟨hx, hws⟩ := hws
    rw [List.cons_append, upToBefore]
    split
    · simp
    · have hne : g.upToBefore w (ws ++ [.init]) ≠ [] := upToBefore_ne_nil (by simp)
      rw [List.dropLast_cons_of_ne_nil hne, List.mem_cons, not_or]
      exact ⟨hx, ih hws⟩

/-- **The placings of a write** are older writes that do not happen before it. -/
theorem Laid.placings (h : g.Laid) (hne : w ≠ .init) (hks : g.coherentPlacings w = .ok ks)
    (hk : k ∈ ks) : k ∈ g.chain (g.locationOf w) ∧ k ≠ .init ∧ g.happensBefore k w = false := by
  unfold coherentPlacings at hks
  split at hks
  · cases hks
    cases hk
  · dsimp only at hks
    split at hks
    · cases hks
    · obtain rfl := Except.ok.inj hks
      have hk := List.mem_of_mem_filter hk
      have hmem := mem_of_mem_splitBefore (List.mem_of_mem_dropLast hk)
      refine ⟨List.mem_of_mem_filter hmem, ?_, not_before_of_mem_dropLast hk⟩
      rintro rfl
      obtain ⟨ws, heq, -, hws⟩ := (h.strung (g.locationOf w)).resolve_left fun hnil => by
        rw [hnil] at hmem
        cases hmem
      rw [splitBefore, heq, List.filter_cons_of_pos (by simpa using hne.symm),
        List.reverse_cons] at hk
      refine init_not_mem_dropLast (fun hin => ?_) hk
      obtain ⟨t, i, hplace⟩ := hws _ (List.mem_of_mem_filter (List.mem_reverse.mp hin))
      exact Key.init_ne_place t i hplace

/-- What is not there happens before nothing in a copy. -/
theorem Shaped.not_happensBefore_copy (h : g.Shaped) (hw : w ∈ g.order)
    (hnot : g.happensBefore k w = false) : g.copy.happensBefore k w = false := by
  by_cases hk : k ∈ g.order
  · rw [h.resembles_copy.happensBefore h h.copy hk hw, hnot]
  · rw [happensBefore, h.find?_copy, if_neg hk]

/-- **The latest write may take effect before an older one**, whether it has taken effect or not. -/
theorem Steady.ready_before {before : Key} (h : g.Steady N) (hlatest : ∃ o, g.order = o ++ [w])
    (hplace : ∃ t n : Nat, w = .place t n)
    (hlast : w ∉ g.chain (g.locationOf w) ∨ g.lastWrite (g.locationOf w) = w)
    (hks : g.coherentPlacings w = .ok ks) (hk : before ∈ ks) :
    (Alternative.writeBefore w before g).Ready N := by
  have hpoised := h.poised_copy hlatest hplace
  have hmem : w ∈ g.order := by
    obtain ⟨o, ho⟩ := hlatest
    rw [ho]
    exact List.mem_append_right _ (List.mem_singleton_self w)
  obtain ⟨hs, hr⟩ := h.copy
  obtain ⟨hbefore, hne, hnot⟩ := h.toLaid.placings hpoised.ne_init hks hk
  have hloc := hr.locationOf h.toShaped hs.toShaped hmem
  have hchain : ∀ loc, g.copy.chain loc = g.chain loc := hr.chain
  refine .writeBefore hpoised ?_ hne (h.toShaped.not_happensBefore_copy hmem hnot) ?_
  · rw [hloc, hchain]
    exact hbefore
  · rw [hloc, lastWrite, hchain, ← lastWrite]
    exact hlast

/-- What is left of a chain of a lock lists its writes in order. -/
theorem foldReleases_sublist (g : Graph) (released : List Int) (ks : List Key) :
    (g.foldReleases released ks).Sublist ks := by
  induction ks generalizing released with
  | nil => exact List.Sublist.refl _
  | cons k ks ih =>
    unfold foldReleases
    split
    · exact List.nil_sublist _
    · split
      · exact (ih _).cons_cons k
      · split
        · exact (ih _).cons k
        · exact (ih _).cons_cons k
      · exact (ih _).cons_cons k

/-- The way back lists writes of the chain in its order. -/
theorem upToBefore_sublist (g : Graph) (w : Key) (ks : List Key) :
    (g.upToBefore w ks).Sublist ks := by
  induction ks with
  | nil => exact List.Sublist.refl _
  | cons k ks ih =>
    unfold upToBefore
    split
    · exact (List.nil_sublist _).cons_cons k
    · exact ih.cons_cons k

/-- The last of a chain that lists nothing twice is not among the others. -/
theorem lastWrite_not_mem_dropLast (h : g.Laid) (loc : Location) :
    g.lastWrite loc ∉ (g.chain loc).dropLast := by
  intro hin
  have hne : g.chain loc ≠ [] := by
    intro hnil
    rw [hnil] at hin
    cases hin
  have hnodup := h.nodup_chain loc
  rw [lastWrite, List.getLast?_eq_some_getLast hne, Option.getD_some] at hin
  rw [← List.dropLast_append_getLast hne] at hnodup
  exact (List.nodup_append.mp hnodup).2.2 _ hin _ (List.mem_singleton_self _) rfl

/-- **Another source of a read** is a write of the chain other than the last one. -/
theorem mem_of_mem_alternativeWrites (h : g.Laid) (hk : k ∈ g.alternativeWrites read) :
    k ∈ g.chain (g.locationOf read) ∧ g.lastWrite (g.locationOf read) ≠ k := by
  unfold alternativeWrites at hk
  dsimp only at hk
  split at hk
  · cases hk
  · have hk := mem_of_mem_splitBefore hk
    exact ⟨List.mem_of_mem_dropLast hk, fun heq => lastWrite_not_mem_dropLast h _ (heq ▸ hk)⟩

/-- An older write to a lock is in its chain, and not the last one. -/
theorem mem_of_mem_alternativeLockWrites (h : g.Laid) (hk : k ∈ g.alternativeLockWrites read) :
    k ∈ g.chain (g.locationOf read) ∧ g.lastWrite (g.locationOf read) ≠ k := by
  have hsub : (g.alternativeLockWrites read).Sublist
      (g.chain (g.locationOf read)).reverse.tail := by
    unfold alternativeLockWrites splitBefore
    rw [← List.drop_one]
    exact ((foldReleases_sublist g _ _).trans (upToBefore_sublist g read _)).drop 1
  have hk := hsub.subset hk
  rw [List.tail_reverse, List.mem_reverse] at hk
  exact ⟨List.mem_of_mem_dropLast hk, fun heq => lastWrite_not_mem_dropLast h _ (heq ▸ hk)⟩

/-- **What becomes of a proposal that is applied is ready.** -/
theorem Offer.ready {v : BackwardRevisit} (h : Offer v e N) (hg' : v.restrict.2 = .ok g')
    {kind : Alternative.Kind} (hkind : kind = .backward ∨ kind = .lockBackward) :
    Alternative.Ready N ⟨kind, v.write, ⟨0, 0⟩, some g', v.additional.toList⟩ := by
  obtain ⟨hfresh, hresumes, hadmits⟩ := h.restrict hg'
  obtain ⟨o, ho⟩ := h.newcomer.latest
  have hlatest : g'.order = o.filter (fun k => !v.removed.contains k) ++ [v.write] := by
    rw [hresumes.order, ho, List.filter_append]
    simp [h.stays]
  have hmem : v.write ∈ g'.order := by
    rw [hlatest]
    exact List.mem_append_right _ (List.mem_singleton_self _)
  obtain ⟨t, n, hplace, -⟩ := h.newcomer.place
  refine .placed (Or.inr hkind) ⟨hfresh.toSteady, hfresh.unlabelled, ⟨_, hlatest⟩, t, n,
    hplace⟩ hfresh.counted ?_ ?_ ?_
  · rw [locationOf_congr (hresumes.event _ hmem)]
    exact hresumes.last
  · cases v.additional <;> simp
  · exact fun e' he' => hadmits e' (by simpa using he')

end Graph

/-- A ready alternative stays ready when there is more room. -/
theorem Alternative.Ready.mono {item : Alternative} (h : item.Ready N) (hle : N ≤ M)
    (hroom : M < 2 ^ 62) : item.Ready M := by
  cases h with
  | readFrom graph find kind sources ne mem length admits =>
    exact .readFrom (graph.mono hle hroom) find kind sources ne mem length fun e he =>
      (admits e he).mono hle
  | writeBefore graph mem ne not last => exact .writeBefore (graph.mono hle hroom) mem ne not last
  | placed kinds graph counted last length admits =>
    exact .placed kinds (graph.mono hle hroom) counted last length fun e he =>
      (admits e he).mono hle

namespace Engine

open Interleaving.Graph

variable {α β : Type} {g g' : Graph} {k w read : Key} {e : Event} {ks reads : List Key}
  {P : α → Graph → Prop} {Q : β → Graph → Prop} {views : List BackwardRevisit} {v : BackwardRevisit}

/-- **All alternatives on the stack are ready**, and no number stands for no location. -/
structure Stocked (a : Engine) (N : Nat) : Prop where
  items : ∀ item ∈ a.agenda.items, item.Ready N
  aliases : ∀ p ∈ a.locations.aliases, p.2 ≠ .none

theorem Stocked.mono {a : Engine} (h : a.Stocked N) (hle : N ≤ M) (hroom : M < 2 ^ 62) :
    a.Stocked M :=
  ⟨fun item hitem => (h.items item hitem).mono hle hroom, h.aliases⟩

/-- From a graph a computation that does not break off leaves a stack of ready alternatives if there
was one, and of its result and the graph that it leaves something holds. -/
def Upholds (N : Nat) (x : Step α) (g : Graph) (P : α → Graph → Prop) : Prop :=
  ∀ a y a', a.Stocked N → a.graph = g → x.run a = .ok y a' → a'.Stocked N ∧ P y a'.graph

/-- The parts of a computation that does not break off do not break off. -/
theorem run_bind {x : Step α} {f : α → Step β} {a b : Engine} {z : β}
    (hrun : (x >>= f).run a = .ok z b) :
    ∃ y a', x.run a = .ok y a' ∧ (f y).run a' = .ok z b := by
  change EStateM.bind x f a = .ok z b at hrun
  unfold EStateM.bind at hrun
  split at hrun
  · exact ⟨_, _, ‹_›, hrun⟩
  · cases hrun

namespace Upholds

theorem mono {P' : α → Graph → Prop} {x : Step α} (h : Upholds N x g P)
    (hP : ∀ y g', P y g' → P' y g') :
    Upholds N x g P' := fun a y a' hs hg hrun => (h a y a' hs hg hrun).imp_right (hP y a'.graph)

theorem pure {y : α} (h : P y g) : Upholds N (Pure.pure y : Step α) g P := by
  intro a y' a' hs hg hrun
  cases hrun
  exact ⟨hs, hg ▸ h⟩

theorem throw {c : Cause} : Upholds N (MonadExcept.throw c : Step α) g P := by
  intro a y a' _ _ hrun
  cases hrun

/-- What a computation upholds is where the next one starts. -/
theorem bind {x : Step α} {f : α → Step β} (hx : Upholds N x g P)
    (hf : ∀ y g', P y g' → Upholds N (f y) g' Q) : Upholds N (x >>= f) g Q := by
  intro a z a'' hs hg hrun
  obtain ⟨y, a', hxa, hrun⟩ := run_bind hrun
  obtain ⟨hs', hP⟩ := hx a y a' hs hg hxa
  exact hf y a'.graph hP a' z a'' hs' rfl hrun

/-- A part of a computation that leads to one graph. -/
theorem andThen {x : Step Unit} {f : Unit → Step β} (hx : Upholds N x g fun _ g'' => g'' = g')
    (hf : Upholds N (f ()) g' Q) : Upholds N (x >>= f) g Q :=
  hx.bind fun _ _ heq => heq ▸ hf

/-- A computation that looks at the engine sees the graph. -/
theorem get {f : Engine → Step β} (hf : ∀ a : Engine, a.graph = g → Upholds N (f a) g Q) :
    Upholds N (MonadState.get >>= f) g Q := fun a y a' hs hg hrun => hf a hg a y a' hs hg hrun

theorem modifyGraph (f : Graph → Graph) : Upholds N (Engine.modifyGraph f) g fun _ g' =>
    g' = f g := by
  intro a y a' hs hg hrun
  cases hrun
  exact ⟨⟨hs.items, hs.aliases⟩, hg ▸ rfl⟩

/-- An edit that succeeds is made on the graph. -/
theorem onGraph (edit : Graph.Edit α) : Upholds N (Engine.onGraph edit) g fun y g' =>
    edit.run g = .ok y g' := by
  intro a y a' hs hg hrun
  change Engine.onGraph edit a = .ok y a' at hrun
  unfold Engine.onGraph at hrun
  split at hrun
  · rename_i y' g' hedit
    cases hrun
    exact ⟨⟨hs.items, hs.aliases⟩, hg ▸ hedit⟩
  · cases hrun

theorem changeGraph (f : Graph → Except Graph.Error Graph) :
    Upholds N (Engine.changeGraph f) g fun _ g' => f g = .ok g' := by
  refine (onGraph _).mono fun y g' hrun => ?_
  simp only [BackwardRevisit.change, EStateM.run, Bind.bind, EStateM.bind, MonadState.get, getThe,
    MonadStateOf.get, EStateM.get] at hrun
  cases hf : f g with
  | ok g'' =>
    rw [hf] at hrun
    cases hrun
    rfl
  | error e =>
    rw [hf] at hrun
    cases hrun

/-- A question about the graph leaves everything alone. -/
theorem ask (f : Graph → Except Graph.Error α) :
    Upholds N (Engine.ask f) g fun y g' => f g = .ok y ∧ g' = g := by
  refine get fun a ha => ?_
  rw [ha]
  cases f g with
  | ok y => exact pure ⟨rfl, rfl⟩
  | error e => exact throw

/-- A ready alternative may be pushed. -/
theorem push {item : Alternative} (h : item.Ready N) :
    Upholds N (Engine.push item) g fun _ g' => g' = g := by
  intro a y a' hs hg hrun
  cases hrun
  refine ⟨⟨fun item' hitem => ?_, hs.aliases⟩, hg⟩
  rcases List.mem_cons.mp hitem with rfl | hitem
  · exact h
  · exact hs.items item' hitem

theorem requestBlock (task : Int) : Upholds N (Engine.requestBlock task) g fun _ g' => g' = g := by
  intro a y a' hs hg hrun
  cases hrun
  exact ⟨⟨hs.items, hs.aliases⟩, hg⟩

/-! ### Alternatives are put on the stack -/

/-- Ready alternatives are pushed one after the other. -/
theorem pushEach {build : Key → Graph → Alternative} (h : ∀ k ∈ ks, (build k g).Ready N) :
    Upholds N (Engine.pushEach build ks) g fun _ g' => g' = g := by
  induction ks with
  | nil => exact pure rfl
  | cons k ks ih =>
    refine get fun a ha => (push ?_).andThen (ih fun k hk => h k (List.mem_cons_of_mem _ hk))
    rw [ha]
    exact h k List.mem_cons_self

/-- An offer is pushed as a ready alternative. -/
theorem pushRevisit (h : Offer v e N) {build : Key → Graph → List Event → Alternative}
    (hbuild : build = Alternative.backward ∨ build = Alternative.lockBackward) :
    Upholds N (Engine.pushRevisit v build) g fun _ g' => g' = g := by
  unfold Engine.pushRevisit
  cases hg' : v.restrict.2 with
  | error e => exact throw
  | ok g' =>
    rcases hbuild with rfl | rfl
    · exact push (h.ready hg' (Or.inl rfl))
    · exact push (h.ready hg' (Or.inr rfl))

theorem pushRevisits (h : ∀ v ∈ views, Offer v e N) {build : Key → Graph → List Event → Alternative}
    (hbuild : build = Alternative.backward ∨ build = Alternative.lockBackward) :
    Upholds N (Engine.pushRevisits build views) g fun _ g' => g' = g := by
  induction views with
  | nil => exact pure rfl
  | cons v views ih =>
    exact (pushRevisit (h v List.mem_cons_self) hbuild).andThen
      (ih fun v hv => h v (List.mem_cons_of_mem _ hv))

/-- The revisits of a new write that are accepted can all be applied. -/
theorem maximalRevisits (h : g.Live N) (hw : g.Newcomer w e)
    (hreads : ∀ r ∈ reads, g.Overtakes w r) :
    Upholds N (Engine.maximalRevisits w reads) g fun views g' =>
      g' = g ∧ ∀ v ∈ views, Offer v e N := by
  induction reads with
  | nil => exact pure ⟨rfl, by simp⟩
  | cons r reads ih =>
    have ih := ih fun r hr => hreads r (List.mem_cons_of_mem _ hr)
    refine get fun a ha => ?_
    rw [ha]
    cases hv : BackwardRevisit.new g w r with
    | error cause => exact throw
    | ok view =>
      dsimp only
      cases view.isMaximal with
      | error cause => exact throw
      | ok accepted =>
        refine ih.bind fun views g' ⟨hg', hviews⟩ => pure ⟨hg', fun v hmem => ?_⟩
        split at hmem
        · rcases List.mem_cons.mp hmem with rfl | hmem
          · exact (h.offer hw (hreads r List.mem_cons_self) hv).1
          · exact hviews v hmem
        · exact hviews v hmem

end Upholds

end Engine

end Interleaving
