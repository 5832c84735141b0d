import Interleaving.Proofs.Graph.Trimming

/-!
# Graphs that are edited

A graph starts as nothing but the first event and is edited by some twenty operations: events are
added and taken out, reads and writes are put in other places, tasks are blocked and let go, and
copies are made. None of them checks that the views of the graph still agree afterwards. They do
(`Interleaving.Graph.agrees_of_edits`) as long as every operation is used as it is meant to
(`Interleaving.Graph.Edits` has a case for each): what is edited is a regular graph at all times
(`Interleaving.Graph.Edits.regular`).
-/

namespace Interleaving.Graph

/-- **One operation on a graph**, used as it is meant to: it is not refused, and what it is told is
so. -/
inductive Edits : Graph → Graph → Prop
  | addEvent {g g' : Graph} {e : Event} {k : Key} (htask : 0 ≤ e.task) (hkind : e.kind ≠ .block)
      (hplaced : e.Placed) (hg' : (Graph.addEvent e).run g = .ok k g') : Edits g g'
  /-- A read that has no source yet. -/
  | setReadsFrom {g : Graph} {k w : Key} {loc : Location} (hread : g.ReadsAt k loc)
      (hwrite : w ∈ g.order) (hnone : ∀ c, ¬g.In .readsFrom c k) : Edits g (g.setReadsFrom k w)
  | changeReadsFrom {g g' : Graph} {k w : Key} (hread : k ∈ g.order) (hwrite : w ∈ g.order)
      (hg' : g.changeReadsFrom k w = .ok g') : Edits g g'
  /-- A write that is not in its chain yet, or at the end of it. -/
  | trackCoherency {g : Graph} {w : Key} {loc : Location} (hwrite : g.WritesTo w loc)
      (hplace : w ∉ g.chain loc ∨ g.lastWrite loc = w) : Edits g (g.trackCoherency w)
  | swapCoherency {g g' : Graph} {a b : Key} {loc loc' : Location} (ha : g.WritesTo a loc)
      (hb : g.WritesTo b loc') (hg' : g.swapCoherency a b = .ok g') : Edits g g'
  /-- A thread start is listed once. -/
  | trackThreadCreates {g : Graph} {k : Key} (hnew : k ∉ g.chain .thread) :
      Edits g (g.trackThreadCreates k)
  | trackThreadStarts {g g' : Graph} {k : Key}
      (hfree : ∀ {e task}, g.event? k = some e → e.startedBy? = some task →
        g.isBlocked task = false)
      (hg' : g.trackThreadStarts k = .ok g') : Edits g g'
  | trackThreadJoins {g g' : Graph} {k : Key}
      (hfree : ∀ {e task}, g.event? k = some e → e.joinedTask? = some task →
        g.isBlocked task = false)
      (hg' : g.trackThreadJoins k = .ok g') : Edits g g'
  | block {g : Graph} {task : Int} (htask : 0 ≤ task) (hfree : g.isBlocked task = false) :
      Edits g (g.block task)
  | unblock {g g' : Graph} {task : Int} (hg' : g.unblock task = .ok g') : Edits g g'
  | blockForLock {g : Graph} {loc : Location} {task : Int} (htask : 0 ≤ task) :
      Edits g (g.blockForLock task loc)
  | unblockForLock {g : Graph} {loc : Location} : Edits g (g.unblockForLock loc)
  | acquireLock {g : Graph} {loc : Location} {task : Int} : Edits g (g.acquireLock loc task)
  | restrict {g g' : Graph} {k : Key} (hg' : g.restrict k = .ok g') : Edits g g'
  /-- A set of events that is closed under program order. -/
  | restrictBySet {g g' : Graph} {removed : List Key}
      (hclosed : ∀ {t i j : Nat}, i < j → .place t i ∈ removed → .place t j ∈ g.order →
        .place t j ∈ removed)
      (hg' : g.restrictBySet removed = .ok g') : Edits g g'
  | recomputeClocks {g g' : Graph} (hg' : Graph.recomputeClocks g = .ok () g') : Edits g g'
  | copy {g : Graph} : Edits g g.copy

/-- **The views of a graph agree.** -/
structure Agrees (g : Graph) : Prop where
  /-- The key of a node is its place in its task. -/
  place : ∀ {t i : Nat} {k}, (g.taskKeys t)[i]? = some k →
    k = .place t i ∧ ∃ n, g.find? k = some n ∧ n.key = k
  /-- Only the last node of a task is a blocking label. -/
  label : ∀ {t i : Nat} {k}, (g.taskKeys t)[i]? = some k → g.isLabel k = true →
    i + 1 = (g.taskKeys t).length
  initial : ∃ n, g.find? .init = some n ∧ n.kind = .init
  /-- The total order lists the first event and all nodes of tasks but labels, each of them once. -/
  order : ∃ ks, g.order = .init :: ks ∧ (Key.init :: ks).Nodup ∧
    ∀ k, k ∈ ks ↔ ∃ t : Nat, k ∈ g.taskKeys t ∧ g.isLabel k = false
  /-- The total order lists the events of a task in program order. -/
  sequence : ∀ t : Nat, g.order.filter (fun k => k.task == (t : Int)) = (g.taskKeys t).filter
    fun k => !g.isLabel k
  /-- Edges are kept at both ends. -/
  mirrored : ∀ {r a b}, g.In r a b ↔ g.Out r a b
  /-- Program order links every node of a task to the one before it. -/
  programOrder : ∀ {a} {t i : Nat}, g.In .programOrder a (.place t i) ↔
    .place t i ∈ g.taskKeys t ∧ a = .prior t i
  /-- Chains have the first event in front and then writes to their location, or starts of threads,
  each of them once. -/
  chain : ∀ loc, g.chain loc = [] ∨ ∃ ws, g.chain loc = .init :: ws ∧ (Key.init :: ws).Nodup ∧
    ∀ w ∈ ws, g.Joins w loc
  /-- Coherency links the neighbours of chains. -/
  coherency : ∀ {a b}, g.In .coherency a b ↔ ∃ loc, loc ≠ .thread ∧ [a, b] <:+: g.chain loc

variable {g g' : Graph} {a b k w : Key} {r : Relation} {e : Event} {t n : Nat} {loc : Location}
  {removed : List Key}

/-! ### New clocks -/

theorem reclocked_of_recomputeFrom {clocks : Clocks} {ns : List Node}
    (h : recomputeFrom clocks ns g = .ok () g') : Reclocked g g' := by
  induction ns generalizing clocks g with
  | nil =>
    cases h
    exact .refl _
  | cons n ns ih =>
    rw [recomputeFrom] at h
    rcases hclock : clockFrom clocks n with e | _ | c
    · rw [hclock] at h
      cases h
    · rw [hclock] at h
      exact ih h
    · rw [hclock] at h
      exact (Reclocked.setClock g n.key c).trans (ih h)

theorem reclocked_of_recomputeClocks (h : recomputeClocks g = .ok () g') : Reclocked g g' := by
  rcases hvisit : g.visit with ⟨W, failure⟩
  simp only [recomputeClocks, bind, EStateM.bind, get, getThe, MonadStateOf.get, EStateM.get,
    hvisit] at h
  split at h
  · rename_i g'' hrun
    cases failure with
    | none =>
      cases h
      exact reclocked_of_recomputeFrom hrun
    | some e => cases h
  · cases h

/-! ### Adding an event -/

/-- **What it takes to add an event**: its task is a number and has not ended. -/
theorem Shaped.addEvent_ok (h : g.Shaped) (hkind : e.kind ≠ .block)
    (hg' : (Graph.addEvent e).run g = .ok k g') :
    ∃ t n : Nat, g.Fills t n ∧ e.task = t ∧ Grows (g.prepared e) e t n g' ∧ k = .place t n := by
  have htask : ¬e.task < 0 := by
    intro hneg
    simp only [Graph.addEvent, if_pos hneg, EStateM.run, bind, EStateM.bind, throw, throwThe,
      MonadExceptOf.throw, EStateM.throw] at hg'
    cases hg'
  obtain ⟨t, ht⟩ := Int.eq_ofNat_of_zero_le (Int.not_lt.mp htask)
  have hensure := h.ensureTask e.task
  have hlen := length_ensureTask g e.task
  obtain ⟨n, hn, -⟩ := h.tasks t
  simp only [Graph.addEvent, if_neg htask, EStateM.run, bind, EStateM.bind, modify, modifyGet,
    MonadStateOf.modifyGet, EStateM.modifyGet, get, getThe, MonadStateOf.get, EStateM.get,
    pure] at hg'
  have hgo : (g.ensureTask e.task).lastKind? e.task ≠ some .block →
      g' = (g.ensureTask e.task).insertEvent e →
      k = ((g.ensureTask e.task).insertEvent e).lastOf e.task →
      Grows (g.prepared e) e t n g' ∧ k = .place t n := by
    rintro hfree rfl rfl
    have hblocked : (g.ensureTask e.task).isBlocked t = false := by
      unfold isBlocked
      rw [← ht, Bool.and_eq_false_iff]
      exact Or.inr (beq_eq_false_iff_ne.mpr hfree)
    have htasks : (g.prepared e).tasks = (g.ensureTask e.task).tasks := tasks_opened ..
    have hopened : (g.prepared e).Shaped := by
      unfold Graph.prepared Graph.opened
      split
      · exact hensure.setChain ..
      · exact hensure
    have hfills : (g.prepared e).Fills t n := by
      unfold Fills
      rw [Entry.order_prepared]
      exact hn
    have hkeys : (g.prepared e).taskKeys t = places t n := by
      unfold taskKeys
      rw [htasks]
      exact hensure.taskKeys_of_not_blocked hn hblocked
    have hlen : t < (g.prepared e).tasks.length := by
      rw [htasks]
      simpa [ht] using hlen
    have hgrows := hopened.grows hfills hkeys ht hlen hkind
    rw [insertEvent_eq_withEvent]
    refine ⟨hgrows, ?_⟩
    have hmore : ((g.prepared e).withEvent e).Fills t (n + 1) := by
      intro i
      rw [hgrows.order, List.mem_append, List.mem_singleton, hfills, Key.place_inj]
      omega
    have hfree' : ((g.prepared e).withEvent e).isBlocked t = false := by
      rw [hgrows.unblocked, isBlocked_congr htasks fun _ => kindOf?_congr event?_opened, hblocked]
    show ((g.prepared e).withEvent e).lastOf e.task = _
    rw [ht, lastOf_eq (hgrows.shaped.taskKeys_of_not_blocked hmore hfree')]
    rfl
  refine ⟨t, n, hn, ht, ?_⟩
  rcases hlast : (g.ensureTask e.task).lastKind? e.task with _ | kind
  · rw [hlast] at hgo hg'
    cases hg'
    exact hgo (by decide) rfl rfl
  · rw [hlast] at hgo hg'
    cases kind <;> first | (cases hg'; exact hgo (by decide) rfl rfl) | cases hg'

namespace Regular

variable (h : g.Regular)
include h

/-- **An event joins its task and the total order.** -/
theorem grows (hg : Grows g e t n g') (hn : g.Fills t n) (hplaced : e.Placed)
    (htouched : e.location ≠ .none → g.chain e.location ≠ []) : g'.Regular := by
  have hold : ∀ {k}, k ∈ g'.order ↔ k ∈ g.order ∨ k = .place t n := by
    intro k
    rw [hg.order, List.mem_append, List.mem_singleton]
  have hevent : ∀ {k}, k ∈ g.order → g'.event? k = g.event? k := fun hk => by
    rw [hg.event, if_neg (hn.ne_of_mem hk)]
  have hchain : ∀ loc, g'.chain loc = g.chain loc := fun loc => by
    rw [chain, chain?, hg.chains, ← chain?, ← chain]
  have hother : ∀ {r a b}, r ≠ .programOrder → r ≠ .threadCreation →
      (g'.In r a b ↔ g.In r a b) := by
    intro r a b hpo htc
    rw [hg.cause]
    exact or_iff_left fun hcause => hcause.2.elim (fun heq => hpo heq.1) fun heq => htc heq.1
  -- the edges that are new start at the prior event or at a thread it started
  have hsource : ∀ {r a b}, g'.In r a b → a ∈ g.order := by
    intro r a b hin
    rcases (hg.cause r a b).mp hin with hin | ⟨-, ⟨-, rfl⟩ | ⟨-, -, hout⟩⟩
    · exact h.source_mem hin
    · exact h.prior_mem hn
    · exact h.mem_of_in (h.tidy.known hout) (by decide)
  exact
    { toShaped := hg.shaped
      initial := fun he => h.initial ((hevent h.init_mem).symm.trans he)
      sequence := by
        intro u i j hij hj
        rw [hg.order, before_append]
        rcases hold.mp hj with hj | heq
        · exact Or.inl (h.sequence hij hj)
        · obtain ⟨rfl, rfl⟩ := Key.place_inj.mp heq
          exact Or.inr ⟨fun hin => hn.ne_of_mem hin rfl,
            Or.inl ⟨(hn i).mpr hij, List.mem_singleton_self _⟩⟩
      mirrored := by
        intro r a b hin
        exact (hg.out r a b).mpr (((hg.cause r a b).mp hin).imp_left (h.mirrored r a b))
      linked := by
        intro u i hhas
        rw [has_iff_event?, hg.event] at hhas
        split at hhas
        · rename_i heq
          obtain ⟨rfl, rfl⟩ := Key.place_inj.mp heq
          exact (hg.cause ..).mpr (Or.inr ⟨rfl, Or.inl ⟨rfl, rfl⟩⟩)
        · exact (hg.cause ..).mpr (Or.inl (h.linked (has_iff_event?.mpr hhas)))
      label_end := by
        intro r a b hlabel hin
        rw [hg.shaped.isLabel_of_mem (hold.mpr (Or.inl (hsource hin)))] at hlabel
        cases hlabel
      no_fromRead := fun hin => h.no_fromRead ((hother (by decide) (by decide)).mp hin)
      placed := by
        intro k e' hk he'
        rcases hold.mp hk with hk | rfl
        · exact h.placed hk ((hevent hk).symm.trans he')
        · rw [hg.event, if_pos rfl] at he'
          obtain rfl := Option.some.inj he'
          exact ⟨hplaced.memory, hplaced.thread⟩
      touched := by
        intro k e' hk he' hne
        rw [hchain]
        rcases hold.mp hk with hk | rfl
        · exact h.touched hk ((hevent hk).symm.trans he') hne
        · rw [hg.event, if_pos rfl] at he'
          obtain rfl := Option.some.inj he'
          exact htouched hne
      locations := hg.chains ▸ h.locations
      chain_eq := by
        intro c hc
        obtain ⟨ws, heq, hnodup, hws⟩ := h.chain_eq (hg.chains ▸ hc)
        exact ⟨ws, heq, hnodup, fun w hw => (hws w hw).congr (hevent (h.mem_of_joins (hws w hw)))⟩
      source := by
        intro a b k ha hb
        exact h.source ((hother (by decide) (by decide)).mp ha)
          ((hother (by decide) (by decide)).mp hb)
      waits := by
        intro loc
        rw [waitingFor, hg.waiting, ← waitingFor]
        exact h.waits loc
      coherency := by
        intro a b
        rw [hother (by decide) (by decide), h.coherency]
        simp only [hchain] }

theorem chain_opened (hloc : loc ≠ .none) : (g.opened loc).chain loc ≠ [] := by
  unfold Graph.opened
  split
  · rw [chain_setChain, if_pos rfl]
    exact List.cons_ne_nil _ _
  · rename_i hold
    obtain ⟨ks, hks⟩ : ∃ ks, g.chain? loc = some ks := by
      rw [← Option.ne_none_iff_exists']
      simpa [hloc] using hold
    obtain ⟨l₁, l₂, heq, -⟩ := List.lookup_eq_some_iff.mp hks
    obtain ⟨ws, heq, -⟩ := h.chain_eq (c := (loc, ks)) (by rw [heq]; simp)
    dsimp only at heq
    rw [chain, hks, heq]
    exact List.cons_ne_nil _ _

/-- **An event is added.** -/
theorem addEvent (hkind : e.kind ≠ .block) (hplaced : e.Placed)
    (hg' : (Graph.addEvent e).run g = .ok k g') :
    g'.Regular := by
  obtain ⟨t, n, hn, -, hg, -⟩ := h.toShaped.addEvent_ok hkind hg'
  have hensure := h.ensureTask e.task
  refine (hensure.opened e.location).grows hg (fun i => ?_) hplaced hensure.chain_opened
  show _ ∈ (g.prepared e).order ↔ _
  rw [Entry.order_prepared]
  exact hn i

/-! ### Clocks and copies -/

/-- **Clocks are computed anew.** -/
theorem recomputeClocks (hg' : Graph.recomputeClocks g = .ok () g') : g'.Regular :=
  h.of_reclocked (reclocked_of_recomputeClocks hg')

/-- **A copy is made.** -/
theorem copy : g.copy.Regular := by
  refine h.relabel h.toShaped.copy rfl rfl (fun k hk => ?_) (fun hb => ?_) (fun r a b hin => ?_)
    (fun hlabel => ?_) (fun hlabel => ?_) fun loc => ?_
  · rw [h.toShaped.event?_copy, if_pos hk]
  · rw [h.toShaped.in_copy]
    exact and_iff_right hb
  · obtain ⟨hb, hin⟩ := h.toShaped.in_copy.mp hin
    exact h.toShaped.out_copy.mpr ⟨h.source_mem hin, hb, h.mirrored r a b hin⟩
  · rw [h.toShaped.isLabel_copy] at hlabel
    cases hlabel
  · rw [h.toShaped.isLabel_copy] at hlabel
    cases hlabel
  · exact ⟨List.nodup_nil, by simp [waitingFor, Graph.copy]⟩

end Regular

/-! ### Editing -/

theorem regular_initial : Graph.initial.Regular where
  toShaped := shaped_initial
  initial := wired_initial.initial
  sequence := fun _ hj => absurd (List.mem_singleton.mp hj) (Key.place_ne_init _ _)
  mirrored := wired_initial.mirrored
  linked := wired_initial.linked
  label_end := wired_initial.label_end
  no_fromRead := not_in_initial
  placed := by
    intro k e _ he
    obtain ⟨-, rfl⟩ := eq_initial_of_event? he
    exact ⟨fun hkind => absurd hkind (by decide), fun hkind => absurd hkind (by decide)⟩
  touched := by
    intro k e _ he hne
    obtain ⟨-, rfl⟩ := eq_initial_of_event? he
    exact absurd rfl hne
  locations := List.nodup_nil
  chain_eq := fun hc => by cases hc
  coherency := by
    refine iff_of_false not_in_initial ?_
    rintro ⟨loc, -, hab⟩
    exact not_infix_nil hab
  source := fun ha => absurd ha not_in_initial
  waits := fun loc => ⟨List.nodup_nil, by simp [waitingFor, Graph.initial]⟩

/-- **Every operation keeps a graph regular.** -/
theorem Edits.regular (he : Edits g g') (h : g.Regular) : g'.Regular := by
  cases he with
  | addEvent _ hkind hplaced hg' => exact h.addEvent hkind hplaced hg'
  | setReadsFrom hread hwrite hnone =>
    obtain ⟨e, hevent, hread, -⟩ := hread
    have hmem := (h.mem_iff hevent).mpr fun heq => by rw [heq] at hread; cases hread
    exact h.setReadsFrom hmem hwrite
      (h.ne_init_of_kind hevent fun heq => by rw [heq] at hread; cases hread) hnone
  | changeReadsFrom hread hwrite hg' => exact h.changeReadsFrom hread hwrite hg'
  | trackCoherency hwrite hplace => exact h.trackCoherency hwrite hplace
  | swapCoherency ha hb hg' => exact h.swapCoherency ha hb hg'
  | trackThreadCreates hnew => exact h.trackThreadCreates hnew
  | trackThreadStarts hfree hg' => exact h.trackThreadStarts hg' hfree
  | trackThreadJoins hfree hg' => exact h.trackThreadJoins hg' hfree
  | block htask hfree => exact h.block htask hfree
  | unblock hg' =>
    unfold Graph.unblock at hg'
    split at hg'
    · rename_i hblocked
      exact Except.ok.inj hg' ▸ h.dropLabel hblocked
    · cases hg'
  | blockForLock htask => exact h.blockForLock htask _
  | unblockForLock => exact h.unblockForLock _
  | acquireLock => exact h.acquireLock _ _
  | restrict hg' => exact h.restrict hg'
  | restrictBySet hclosed hg' => exact h.restrictBySet hclosed hg'
  | recomputeClocks hg' => exact h.recomputeClocks hg'
  | copy => exact h.copy

/-- Sorted by their places, the events of a task are numbered through. -/
theorem eq_places {ks : List Key} (hnodup : ks.Nodup)
    (hmem : ∀ {k}, k ∈ ks ↔ ∃ i < n, k = .place t i)
    (hsorted : ∀ {i j : Nat}, i < j → .place t j ∈ ks → Before ks (.place t i) (.place t j)) :
    ks = places t n := by
  have hpairs : ks.Pairwise fun a b => a.seq < b.seq := by
    rw [List.pairwise_iff_getElem]
    intro i j hi hj hij
    obtain ⟨a, -, ha⟩ := hmem.mp (List.getElem_mem hi)
    obtain ⟨b, -, hb⟩ := hmem.mp (List.getElem_mem hj)
    have hlt : a < b := by
      refine lt_of_le_of_ne (Nat.not_lt.mp fun hba => ?_) fun heq => ?_
      · have hbefore := (hsorted hba (ha ▸ List.getElem_mem hi)).2
        rw [← ha, ← hb, hnodup.idxOf_getElem, hnodup.idxOf_getElem] at hbefore
        omega
      · have hidx : i = j := hnodup.getElem_inj_iff.mp (by rw [ha, hb, heq])
        omega
    rw [ha, hb]
    show (a : Int) < b
    omega
  have hplaces : (places t n).Pairwise fun a b => a.seq < b.seq := by
    unfold places
    rw [List.pairwise_map]
    exact List.pairwise_lt_range.imp fun hlt => Int.ofNat_lt.mpr hlt
  have hnodup' : (places t n).Nodup := hplaces.imp fun hlt heq => by
    rw [heq] at hlt; exact absurd hlt (lt_irrefl _)
  refine List.Perm.eq_of_pairwise (fun a b _ _ hab hba => absurd hab (lt_asymm hba))
    hpairs hplaces ?_
  exact (List.perm_ext_iff_of_nodup hnodup hnodup').mpr fun k => hmem.trans mem_places.symm

/-- The nodes of a task. -/
theorem Shaped.mem_taskKeys (h : g.Shaped) :
    k ∈ g.taskKeys t ↔ ∃ i : Nat, k = .place t i ∧ g.Has k := by
  obtain ⟨n, hn, hkeys⟩ := h.tasks t
  constructor
  · intro hk
    rcases hkeys with hkeys | ⟨hkeys, hlabel⟩
    · rw [hkeys] at hk
      obtain ⟨i, hi, rfl⟩ := mem_places.mp hk
      exact ⟨i, rfl, h.has ((hn i).mpr hi)⟩
    · rw [hkeys, places_succ, List.mem_append, List.mem_singleton] at hk
      rcases hk with hk | rfl
      · obtain ⟨i, hi, rfl⟩ := mem_places.mp hk
        exact ⟨i, rfl, h.has ((hn i).mpr hi)⟩
      · exact ⟨n, rfl, has_of_isLabel hlabel⟩
  · rintro ⟨i, rfl, hhas⟩
    rcases h.mem_or_label hhas with hk | hlabel
    · have hi := (hn i).mp hk
      rcases hkeys with hkeys | ⟨hkeys, -⟩
      · exact hkeys ▸ mem_places.mpr ⟨i, hi, rfl⟩
      · exact hkeys ▸ mem_places.mpr ⟨i, Nat.lt_succ_of_lt hi, rfl⟩
    · obtain ⟨u, m, heq, hkeys⟩ := h.label hlabel
      obtain ⟨rfl, rfl⟩ := Key.place_inj.mp heq
      exact hkeys ▸ mem_places.mpr ⟨i, Nat.lt_succ_self i, rfl⟩

namespace Regular

variable (h : g.Regular)
include h

/-- The nodes of a task without its label are its events. -/
theorem filter_taskKeys (hn : g.Fills t n) :
    (g.taskKeys t).filter (fun k => !g.isLabel k) = places t n := by
  obtain ⟨m, hm, hkeys⟩ := h.tasks t
  obtain rfl := hn.unique hm
  rcases hkeys with hkeys | ⟨hkeys, hlabel⟩
  · rw [hkeys, h.filter_not_isLabel_places hn]
  · rw [hkeys, places_succ, List.filter_append, h.filter_not_isLabel_places hn]
    simp [hlabel]

/-- **The views of a regular graph agree.** -/
theorem agrees : g.Agrees where
  place := by
    intro t i k hk
    obtain ⟨-, -, hhas⟩ := h.mem_taskKeys.mp (List.mem_of_getElem? hk)
    obtain ⟨n, hn⟩ := hhas.exists
    refine ⟨?_, n, hn, key_of_find? hn⟩
    obtain ⟨m, hm⟩ : ∃ m, g.taskKeys t = places t m := by
      obtain ⟨m, -, hkeys | ⟨hkeys, -⟩⟩ := h.tasks t
      · exact ⟨m, hkeys⟩
      · exact ⟨m + 1, hkeys⟩
    rw [hm] at hk
    have hi : i < m := by simpa using (List.getElem?_eq_some_iff.mp hk).1
    exact (Option.some.inj ((getElem?_places hi).symm.trans hk)).symm
  label := by
    intro t i k hk hlabel
    obtain ⟨j, hj, -⟩ := h.mem_taskKeys.mp (List.mem_of_getElem? hk)
    obtain ⟨u, m, heq, hkeys⟩ := h.label hlabel
    obtain ⟨rfl, rfl⟩ := Key.place_inj.mp (hj.symm.trans heq)
    have hi : i < j + 1 := by simpa [hkeys] using (List.getElem?_eq_some_iff.mp hk).1
    rw [hkeys, getElem?_places hi, hj, Option.some.injEq] at hk
    rw [hkeys, length_places, (Key.place_inj.mp hk).2]
  initial := by
    obtain ⟨n, hn⟩ := h.find? h.init_mem
    exact ⟨n, hn, h.initial (by rw [event?, hn]; rfl)⟩
  order := by
    obtain ⟨ks, hks⟩ := List.head?_eq_some_iff.mp h.first
    have hnodup := hks ▸ h.nodup
    refine ⟨ks, hks, hnodup, fun k => ⟨fun hk => ?_, ?_⟩⟩
    · have hmem : k ∈ g.order := hks ▸ List.mem_cons_of_mem _ hk
      rcases h.key hmem with rfl | ⟨t, i, rfl⟩
      · exact absurd hk (List.nodup_cons.mp hnodup).1
      · exact ⟨t, h.mem_taskKeys.mpr ⟨i, rfl, h.has hmem⟩, h.isLabel_of_mem hmem⟩
    · rintro ⟨t, hk, hlabel⟩
      obtain ⟨i, rfl, hhas⟩ := h.mem_taskKeys.mp hk
      have hmem := (h.mem_or_label hhas).resolve_right (by rw [hlabel]; decide)
      rw [hks] at hmem
      exact (List.mem_cons.mp hmem).resolve_left (Key.place_ne_init t i)
  sequence := by
    intro t
    obtain ⟨n, hn, -⟩ := h.tasks t
    rw [h.filter_taskKeys hn]
    refine eq_places (h.nodup.filter _) (fun {k} => ?_) fun {i j} hij hj => ?_
    · rw [List.mem_filter, beq_iff_eq]
      constructor
      · rintro ⟨hk, htask⟩
        rcases h.key hk with rfl | ⟨u, i, rfl⟩
        · exact absurd htask (by simp [Key.init])
        · obtain rfl := Int.ofNat_inj.mp htask
          exact ⟨i, (hn i).mp hk, rfl⟩
      · rintro ⟨i, hi, rfl⟩
        exact ⟨(hn i).mpr hi, rfl⟩
    · obtain ⟨hj, -⟩ := List.mem_filter.mp hj
      exact before_filter.mpr ⟨beq_self_eq_true _, beq_self_eq_true _, h.sequence hij hj⟩
  mirrored := ⟨h.mirrored _ _ _, h.tidy.known⟩
  programOrder := by
    intro a t i
    rw [h.mem_taskKeys]
    constructor
    · exact fun hin => ⟨⟨i, rfl, has_of_in hin⟩, h.programOrder hin⟩
    · rintro ⟨⟨-, -, hhas⟩, rfl⟩
      exact h.linked hhas
  chain := by
    intro loc
    refine (h.chain_cases loc).imp_right ?_
    rintro ⟨ws, heq, -, hws⟩
    exact ⟨ws, heq, heq ▸ h.nodup_chain loc, hws⟩
  coherency := h.coherency

end Regular

/-- A graph that is edited is regular at all times. -/
theorem regular_of_edits (h : Relation.ReflTransGen Edits .initial g) : g.Regular := by
  induction h with
  | refl => exact regular_initial
  | tail _ he ih => exact he.regular ih

/-- **The views of a graph agree after any number of operations.** -/
theorem agrees_of_edits (h : Relation.ReflTransGen Edits .initial g) : g.Agrees :=
  (regular_of_edits h).agrees

theorem not_in_of_predecessors {a b : Key} {r : Relation}
    (h : (g.find? b).map (·.predecessors r) = some []) : ¬g.In r a b := by
  intro hin
  obtain ⟨n, hn, -⟩ := id hin
  rw [hn, Option.map_some, Option.some.injEq] at h
  have hmem := (mem_predecessors hn).mpr hin
  rw [h] at hmem
  cases hmem

theorem not_in_of_nodes {a b : Key} {r : Relation} (h : ∀ n ∈ g.nodes, (r, a) ∉ n.pred) :
    ¬g.In r a b := by
  rintro ⟨n, hn, hin⟩
  exact h n (List.mem_of_find?_eq_some hn) hin

/-- Reads and writes are at locations of the memory. -/
theorem placed_new {kind : Kind} {task : Int} {loc : Location}
    (hkind : kind.isRead = true ∨ kind.isWrite = true) (hloc : 0 < loc) :
    (Event.new task kind loc).Placed where
  memory := fun _ => hloc
  thread := by
    intro h
    refine absurd hkind ?_
    change kind = .threadStart ∨ kind = .threadFinish ∨ kind = .threadJoin at h
    clear hkind hloc
    revert h
    cases kind <;> decide

/-- An event of a task is added. -/
theorem edits_insertEvent {e : Event} {k : Key} (hg : Relation.ReflTransGen Edits .initial g)
    (htask : 0 ≤ e.task) (hkind : e.kind ≠ .block) (hplaced : e.Placed)
    (hadd : (Graph.addEvent e).run g = .ok k ((g.ensureTask e.task).insertEvent e)) :
    Relation.ReflTransGen Edits .initial ((g.ensureTask e.task).insertEvent e) :=
  hg.tail (.addEvent htask hkind hplaced hadd)

/-- A write of some kind, of one task, in its chain. -/
def writingGraph (kind : Kind) : Graph :=
  ((Graph.initial.ensureTask 0).insertEvent (.new 0 kind 1)).trackCoherency (.place 0 0)

/-- A write of one task in its chain. -/
def writtenGraph : Graph := writingGraph .write

/-- A read of another task that sees the write. -/
def observedGraph : Graph :=
  ((writtenGraph.ensureTask 1).insertEvent (.new 1 .read 1)).setReadsFrom (.place 1 0) (.place 0 0)

/-- The first task is blocked, and the read is taken out again. -/
def withdrawnGraph : Graph := (observedGraph.block 0).prune [.place 1 0]

/-- A write of any kind can be recorded and take effect. -/
theorem edits_writingGraph {kind : Kind} (hkind : kind.isWrite = true) :
    Relation.ReflTransGen Edits .initial (writingGraph kind) := by
  have hnone : kind ≠ .block := by
    rintro rfl
    cases hkind
  have hadd := edits_insertEvent (e := .new 0 kind 1) (k := .place 0 0) .refl (Int.le_refl 0) hnone
    (placed_new (Or.inr hkind) (by decide)) rfl
  have hwrite : ((Graph.initial.ensureTask 0).insertEvent (.new 0 kind 1)).WritesTo
      (.place 0 0) 1 :=
    ⟨_, rfl, hkind, rfl⟩
  exact hadd.tail (.trackCoherency hwrite (Or.inl (by decide : Key.place 0 0 ∉ [Key.init])))

theorem edits_writtenGraph : Relation.ReflTransGen Edits .initial writtenGraph :=
  edits_writingGraph rfl

theorem edits_observedGraph : Relation.ReflTransGen Edits .initial observedGraph := by
  have hadd := edits_insertEvent (e := .new 1 .read 1) (k := .place 1 0) edits_writtenGraph
    (by decide) (by decide) (placed_new (Or.inl rfl) (by decide)) rfl
  have hread : ((writtenGraph.ensureTask 1).insertEvent (.new 1 .read 1)).ReadsAt (.place 1 0) 1 :=
    ⟨_, rfl, rfl, rfl⟩
  exact hadd.tail (.setReadsFrom hread (by decide) fun _ => not_in_of_predecessors (by decide))

theorem agrees_withdrawnGraph :
    Relation.ReflTransGen Edits .initial withdrawnGraph ∧ withdrawnGraph.Agrees := by
  have hblock : Edits observedGraph (observedGraph.block 0) := .block (by decide) (by decide)
  have hrestrict : Edits (observedGraph.block 0) withdrawnGraph := .restrict (k := .place 0 0) rfl
  have hedits := (edits_observedGraph.tail hblock).tail hrestrict
  exact ⟨hedits, agrees_of_edits hedits⟩

end Interleaving.Graph
