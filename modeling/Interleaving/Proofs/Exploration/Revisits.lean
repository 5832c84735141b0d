import Interleaving.Exploration.Recording
import Interleaving.Proofs.Graph.Alternatives
import Interleaving.Proofs.Graph.Entry
import Interleaving.Proofs.Revisit.Proposal

/-!
# Recording comes to its end

A computation of the engine may break off. Where the graph is in order it does not:
`Interleaving.Engine.Brings` says that from a graph a computation comes to its end, and what it
leaves. The property passes from the parts of a computation to the whole, like that of
`Interleaving.Proofs.Exploration.Frame`.

Here are the parts by which a write that waits to take effect opens alternatives. All proposals that
they build can be judged and applied, and but for the mark of a lock acquisition the graph stays
what it is.
-/

namespace Interleaving.Engine

open Interleaving.Graph

variable {α β : Type} {g g' : Graph} {P : α → Graph → Prop} {Q : β → Graph → Prop} {w read : Key}
  {loc : Location} {l : List Key} {reads : List Key} {views : List BackwardRevisit}

/-- **From a graph a computation comes to its end**, and of its result and the graph that it leaves
something holds. -/
def Brings (x : Step α) (g : Graph) (P : α → Graph → Prop) : Prop :=
  ∀ a : Engine, a.graph = g → ∃ y a', x.run a = .ok y a' ∧ P y a'.graph

namespace Brings

/-- A computation brings about whatever follows from what it brings about. -/
theorem mono {x : Step α} {P' : α → Graph → Prop} (h : Brings x g P)
    (hP : ∀ y g', P y g' → P' y g') : Brings x g P' := by
  intro a ha
  obtain ⟨y, a', hrun, hy⟩ := h a ha
  exact ⟨y, a', hrun, hP y _ hy⟩

theorem pure {y : α} (h : P y g) : Brings (Pure.pure y : Step α) g P :=
  fun a ha => ⟨y, a, rfl, ha ▸ h⟩

/-- What a computation brings about is where the next one starts. -/
theorem bind {x : Step α} {k : α → Step β} (hx : Brings x g P)
    (hk : ∀ y g', P y g' → Brings (k y) g' Q) : Brings (x >>= k) g Q := by
  intro a ha
  obtain ⟨y, a', hrun, hy⟩ := hx a ha
  obtain ⟨z, a'', hrun', hz⟩ := hk y a'.graph hy a' rfl
  refine ⟨z, a'', ?_, hz⟩
  show EStateM.bind x k a = _
  unfold EStateM.bind
  change x a = _ at hrun
  rw [hrun]
  exact hrun'

/-- A computation that looks at the engine sees the graph. -/
theorem get {k : Engine → Step β} (hk : ∀ a : Engine, a.graph = g → Brings (k a) g Q) :
    Brings (MonadState.get >>= k) g Q :=
  fun a ha => hk a ha a ha

/-- A part of a computation that leads to one result and one graph. -/
theorem next {x : Step α} {k : α → Step β} {y : α} (hx : Brings x g fun y' g'' => y' = y ∧ g'' = g')
    (hk : Brings (k y) g' Q) : Brings (x >>= k) g Q :=
  hx.bind fun _ _ heq => heq.1 ▸ heq.2 ▸ hk

/-- A part of a computation that has no result of its own. -/
theorem andThen {x : Step Unit} {k : Unit → Step β} (hx : Brings x g fun _ g'' => g'' = g')
    (hk : Brings (k ()) g' Q) : Brings (x >>= k) g Q :=
  hx.bind fun _ _ heq => heq ▸ hk

theorem modifyGraph (f : Graph → Graph) : Brings (Engine.modifyGraph f) g fun _ g' => g' = f g :=
  fun a ha => ⟨(), { a with graph := f a.graph }, rfl, ha ▸ rfl⟩

/-- An edit that succeeds is made on the graph. -/
theorem onGraph {edit : Graph.Edit α} {y : α} (hrun : edit.run g = .ok y g') :
    Brings (Engine.onGraph edit) g fun y' g'' => y' = y ∧ g'' = g' := by
  intro a ha
  refine ⟨y, { a with graph := g' }, ?_, rfl, rfl⟩
  show Engine.onGraph edit a = _
  unfold Engine.onGraph
  rw [ha, hrun]

theorem changeGraph {f : Graph → Except Graph.Error Graph} (hf : f g = .ok g') :
    Brings (Engine.changeGraph f) g fun _ g'' => g'' = g' := by
  have hrun : (BackwardRevisit.change f).run g = .ok () g' := by
    simp only [BackwardRevisit.change, EStateM.run, Bind.bind, EStateM.bind, MonadState.get, getThe,
      MonadStateOf.get, EStateM.get, hf]
    rfl
  exact (onGraph hrun).mono fun _ _ h => h.2

/-- A question about the graph is answered, and the graph stays. -/
theorem ask {f : Graph → Except Graph.Error α} {y : α} (hf : f g = .ok y) :
    Brings (Engine.ask f) g fun y' g' => y' = y ∧ g' = g :=
  get fun a ha => by
    rw [ha, hf]
    exact pure ⟨rfl, rfl⟩

theorem push (item : Alternative) : Brings (Engine.push item) g fun _ g' => g' = g :=
  fun a ha => ⟨(), { a with agenda := a.agenda.push item }, rfl, ha⟩

theorem requestBlock (task : Int) : Brings (Engine.requestBlock task) g fun _ g' => g' = g :=
  fun a ha => ⟨(), { a with mustBlock := some task }, rfl, ha⟩

end Brings

/-! ### Alternatives are put on the stack -/

/-- Pushing alternatives never fails and leaves the graph alone. -/
theorem pushEach_brings (build : Key → Graph → Alternative) (ks : List Key) :
    Brings (pushEach build ks) g fun _ g' => g' = g := by
  induction ks with
  | nil => exact .pure rfl
  | cons k ks ih => exact .get fun _ _ => (Brings.push _).andThen ih

/-- A proposal is pushed. -/
theorem pushRevisit_brings {v : BackwardRevisit} (h : v.Proposal l loc)
    (build : Key → Graph → List Event → Alternative) : Brings (pushRevisit v build) g fun _ g' =>
      g' = g := by
  obtain ⟨g', hg'⟩ := h.restrict
  unfold pushRevisit
  rw [hg']
  exact .push _

/-- Proposals are pushed one after the other. -/
theorem pushRevisits_brings (h : ∀ v ∈ views, v.Proposal l loc)
    (build : Key → Graph → List Event → Alternative) :
    Brings (pushRevisits build views) g fun _ g' => g' = g := by
  induction views with
  | nil => exact .pure rfl
  | cons v views ih =>
    exact (pushRevisit_brings (h v List.mem_cons_self) build).andThen
      (ih fun v hv => h v (List.mem_cons_of_mem _ hv))

/-- Proposals that take back no exclusive read block no task. -/
theorem pushExclusiveRevisits_brings (h : ∀ v ∈ views, v.Proposal l loc ∧
      ((v.graph.kindOf? v.read).map (·.isExclusiveRead)).getD false = false) :
    Brings (pushExclusiveRevisits views) g fun _ g' => g' = g := by
  induction views with
  | nil => exact .pure rfl
  | cons v views ih =>
    obtain ⟨hv, hex⟩ := h v List.mem_cons_self
    have hmore := ih fun v hv => h v (List.mem_cons_of_mem _ hv)
    refine .get fun a _ => ?_
    rw [if_neg (by simp [hex])]
    exact (pushRevisit_brings hv _).andThen hmore

/-! ### Proposals are built and judged -/

/-- **The revisits of a write that waits to take effect** can all be built and judged. -/
theorem maximalRevisits_brings (h : g.Writing l w loc)
    (hreads : ∀ r ∈ reads, g.ReadsAt r loc ∧ g.happensBefore r w = false) :
    Brings (maximalRevisits w reads) g fun views g' => g' = g ∧
      ∀ v ∈ views, v.Proposal l loc ∧ v.graph = g.copy ∧ v.read ∈ reads := by
  induction reads with
  | nil => exact .pure ⟨rfl, by simp⟩
  | cons r reads ih =>
    obtain ⟨hread, hnot⟩ := hreads r List.mem_cons_self
    obtain ⟨v, hv, hproposal, hr, hcopy, -⟩ := h.new hread hnot
    obtain ⟨accepted, hmaximal⟩ := hproposal.isMaximal
    refine .get fun a ha => ?_
    rw [ha, hv]
    dsimp only
    rw [hmaximal]
    refine (ih fun r hr => hreads r (List.mem_cons_of_mem _ hr)).bind
      fun views g' hviews => .pure ?_
    obtain ⟨rfl, hviews⟩ := hviews
    have hmore : ∀ u ∈ views, u.Proposal l loc ∧ u.graph = g'.copy ∧ u.read ∈ r :: reads :=
      fun u hu =>
      ⟨(hviews u hu).1, (hviews u hu).2.1, List.mem_cons_of_mem _ (hviews u hu).2.2⟩
    refine ⟨rfl, fun u hu => ?_⟩
    split at hu
    · rcases List.mem_cons.mp hu with rfl | hu
      · exact ⟨hproposal, hcopy, hr ▸ List.mem_cons_self⟩
      · exact hmore u hu
    · exact hmore u hu

/-- Which reads could see a write is the same in graphs that resemble each other. -/
theorem Resembles.concurrent (hr : Resembles g g') (h : g.Sound l) (h' : g'.Sound l)
    (hw : w ∈ g.order) (hread : g.ReadsAt read loc ∧ g.happensBefore read w = false) :
    g'.ReadsAt read loc ∧ g'.happensBefore read w = false := by
  have hread' := (hr.readsAt_iff h.toShaped h'.toShaped).mpr hread.1
  refine ⟨hread', Bool.eq_false_iff.mpr fun hbefore => ?_⟩
  rw [h'.happensBefore_iff (h'.mem_of_readsAt hread') (hr.order ▸ hw), hr.past_iff h.source_mem hw,
    ← h.happensBefore_iff (h.mem_of_readsAt hread.1) hw, hread.2] at hbefore
  cases hbefore

/-- **The revisits by which an acquisition overtakes others** can all be built and judged; some of
them mark it. -/
theorem lockRevisits_brings {own : Key} {loc' : Location} (h : g.Writing l w loc)
    (hown : g.ReadsAt own loc')
    (hreads : ∀ r ∈ reads, g.ReadsAt r loc ∧ g.happensBefore r w = false) :
    Brings (lockRevisits w own reads) g fun views g' =>
      Resembles g g' ∧ Awaits g g' ∧ g'.Wired ∧ ∀ v ∈ views, v.Proposal l loc := by
  induction reads generalizing g with
  | nil => exact .pure ⟨.refl g, ⟨fun _ => rfl, fun _ => rfl⟩, h.toWired, by simp⟩
  | cons r reads ih =>
    have hmore : ∀ r ∈ reads, g.ReadsAt r loc ∧ g.happensBefore r w = false := fun r hr =>
      hreads r (List.mem_cons_of_mem _ hr)
    obtain ⟨hread, hnot⟩ := hreads r List.mem_cons_self
    obtain ⟨v, hv, hproposal, -⟩ := h.new hread hnot
    obtain ⟨accepted, hmaximal⟩ := hproposal.isMaximal
    obtain ⟨possible, hpossible⟩ := h.toSound.isPossible hread hown
    refine .get fun a ha => ?_
    rw [ha, hv]
    dsimp only
    rw [hmaximal]
    cases accepted with
    | false => exact ih h hown hmore
    | true =>
      refine .get fun a ha => ?_
      rw [ha, hpossible]
      cases possible with
      | false => exact ih h hown hmore
      | true =>
        have hr := Resembles.markFinalLockWrite g w
        have hwired := h.toWired.markFinalLockWrite w
        have h' := hr.writing h hwired
        refine (Brings.modifyGraph _).andThen ?_
        have hreads' : ∀ r ∈ reads, (g.markFinalLockWrite w).ReadsAt r loc ∧
            (g.markFinalLockWrite w).happensBefore r w = false := fun r hmem =>
          Resembles.concurrent hr h.toSound h'.toSound (h.mem_of_writesTo h.write) (hmore r hmem)
        have hown' := (hr.readsAt_iff h.toShaped hwired.toShaped).mpr hown
        refine (ih h' hown' hreads').bind fun views g' hviews => .pure ?_
        obtain ⟨hr', hawaits, hwired', hviews⟩ := hviews
        refine ⟨hr.trans hr', (Awaits.markFinalLockWrite g w).trans hawaits, hwired',
          fun u hu => ?_⟩
        rcases List.mem_cons.mp hu with rfl | hu
        · exact hproposal.markFinal
        · exact hviews u hu

end Interleaving.Engine
