import Interleaving.Proofs.Graph.Initial
import Interleaving.Proofs.Graph.Prune

/-!
# Regular graphs

A graph keeps its nodes in three views – program order, total order and chains – and its edges at
both ends. A graph is **regular** (`Interleaving.Graph.Regular`) when all of these agree: keys are
places in tasks, labels stand at the end of tasks only, the total order lists all events in an order
that keeps program order, and program order and coherency edges link just the neighbours of tasks
and of chains. Nothing is said about consistency, and time may run in a cycle.

Every operation that builds or changes a graph keeps it regular. This module has the operations on
edges, chains and labels, and the entry of an event; they are told apart by what they change:

* edges alone – `Interleaving.Graph.Regular.link`, `Interleaving.Graph.Regular.changeReadsFrom`;
* a chain and its edges – `Interleaving.Graph.Regular.rechain`;
* labels and waiting tasks, but no event – `Interleaving.Graph.Regular.relabel`.
-/

namespace Interleaving

/-- An event whose location suits its kind: reads and writes touch memory, and the life of threads
has a location of its own. -/
structure Event.Placed (e : Event) : Prop where
  memory : e.kind.isRead = true ∨ e.kind.isWrite = true → 0 < e.location
  thread : e.kind = .threadStart ∨ e.kind = .threadFinish ∨ e.kind = .threadJoin →
    e.location = .thread

namespace Graph

variable {g g' : Graph} {a b k w : Key} {r : Relation} {e : Event} {t n : Nat} {loc : Location}
  {ks : List Key}

/-- An event that belongs into the chain of a location: a write to it, or the start of a thread. -/
def Joins (g : Graph) (k : Key) (loc : Location) : Prop :=
  ∃ e, g.event? k = some e ∧ e.location = loc ∧
    if loc = .thread then e.kind = .threadStart else e.kind.isWrite = true

/-- A graph whose views and the two ends of its edges agree; nothing is said of coherency edges. -/
structure Framed (g : Graph) : Prop extends g.Shaped where
  initial : ∀ {e}, g.event? .init = some e → e.kind = .init
  /-- The total order keeps program order. -/
  sequence : ∀ {t i j : Nat}, i < j → .place t j ∈ g.order →
    Before g.order (.place t i) (.place t j)
  mirrored : g.Mirrored
  /-- Program order links every node to the one before it. -/
  linked : ∀ {t i : Nat}, g.Has (.place t i) → g.In .programOrder (.prior t i) (.place t i)
  label_end : ∀ {r a b}, g.isLabel a = true → ¬g.In r a b
  no_fromRead : ∀ {a b}, ¬g.In .fromRead a b
  placed : ∀ {k e}, k ∈ g.order → g.event? k = some e → e.Placed
  /-- Every location that an event touches has a chain. -/
  touched : ∀ {k e}, k ∈ g.order → g.event? k = some e → e.location ≠ .none →
    g.chain e.location ≠ []
  locations : (g.chains.map (·.1)).Nodup
  /-- The first event stands in front of every chain, and nothing stands in it twice. -/
  chain_eq : ∀ {c}, c ∈ g.chains → ∃ ws, c.2 = .init :: ws ∧ ws.Nodup ∧ ∀ w ∈ ws, g.Joins w c.1
  /-- A read has one source at most. -/
  source : ∀ {a b k}, g.In .readsFrom a k → g.In .readsFrom b k → a = b
  waits : ∀ loc, (g.waitingFor loc).Nodup ∧ ∀ task ∈ g.waitingFor loc, 0 ≤ task

/-- **A regular graph**: its views and the two ends of its edges agree, and coherency links the
neighbours of chains, but for that of the life of threads. -/
structure Regular (g : Graph) : Prop extends g.Framed where
  coherency : ∀ {a b}, g.In .coherency a b ↔ ∃ loc, loc ≠ .thread ∧ [a, b] <:+: g.chain loc

theorem Framed.chained (h : g.Framed) : g.Chained :=
  fun hk he hne => isSome_chain? (h.touched hk he hne)

/-! ### Chains -/

theorem Joins.unique {loc' : Location} (h : g.Joins k loc) (h' : g.Joins k loc') : loc = loc' := by
  obtain ⟨e, he, hloc, -⟩ := h
  obtain ⟨e', he', hloc', -⟩ := h'
  rw [he] at he'
  cases he'
  exact hloc.symm.trans hloc'

theorem Joins.congr (h : g.Joins k loc) (hevent : g'.event? k = g.event? k) : g'.Joins k loc := by
  obtain ⟨e, he, hloc, hkind⟩ := h
  exact ⟨e, hevent.trans he, hloc, hkind⟩

theorem Shaped.mem_of_joins (h : g.Shaped) (hk : g.Joins k loc) : k ∈ g.order := by
  obtain ⟨e, he, -, hkind⟩ := hk
  refine (h.mem_iff he).mpr fun hblock => ?_
  rw [hblock] at hkind
  split at hkind <;> cases hkind

theorem has_of_isLabel (h : g.isLabel k = true) : g.Has k := by
  obtain ⟨e, he, -⟩ := isLabel_iff_event?.mp h
  rw [has_iff_event?, he]
  rfl

/-- An edge that is no program order leads to an event. -/
theorem Shaped.mem_of_in (h : g.Shaped) (hin : g.In r a b) (hr : r ≠ .programOrder) : b ∈ g.order :=
  (h.mem_or_label (has_of_in hin)).resolve_right fun hlabel => hr (h.label_cause hlabel hin)

namespace Framed

variable (h : g.Framed)
include h

theorem ne_init_of_joins (hk : g.Joins k loc) : k ≠ .init := by
  rintro rfl
  obtain ⟨e, he, -, hkind⟩ := hk
  rw [h.initial he] at hkind
  split at hkind <;> cases hkind

theorem chain_cases (loc : Location) :
    g.chain loc = [] ∨ ∃ ws, g.chain loc = .init :: ws ∧ ws.Nodup ∧ ∀ w ∈ ws, g.Joins w loc := by
  cases hchain : g.chain loc with
  | nil => exact Or.inl rfl
  | cons k ks =>
    have hk : k ∈ g.chain loc := hchain ▸ List.mem_cons_self
    have hmem := mem_chains_of_mem hk
    rw [hchain] at hmem
    exact Or.inr (h.chain_eq hmem)

theorem nodup_chain (loc : Location) : (g.chain loc).Nodup := by
  rcases h.chain_cases loc with heq | ⟨ws, heq, hnodup, hws⟩
  · rw [heq]
    exact List.nodup_nil
  · rw [heq, List.nodup_cons]
    exact ⟨fun hmem => h.ne_init_of_joins (hws _ hmem) rfl, hnodup⟩

theorem mem_chain (hk : k ∈ g.chain loc) : k = .init ∨ g.Joins k loc := by
  rcases h.chain_cases loc with heq | ⟨ws, heq, -, hws⟩
  · rw [heq] at hk
    cases hk
  · rw [heq] at hk
    exact (List.mem_cons.mp hk).imp_right (hws k)

theorem mem_order_of_chain (hk : k ∈ g.chain loc) : k ∈ g.order := by
  rcases h.mem_chain hk with rfl | hk
  · exact h.init_mem
  · exact h.mem_of_joins hk

/-- What comes after another key in a chain belongs there. -/
theorem joins_of_adjacent (hab : [a, b] <:+: g.chain loc) : g.Joins b loc := by
  rcases h.chain_cases loc with heq | ⟨ws, heq, -, hws⟩
  · rw [heq] at hab
    simpa using hab.length_le
  · rw [heq, infix_cons_iff] at hab
    rcases hab with ⟨-, hhead⟩ | hab
    · exact hws b (List.mem_of_head? hhead)
    · exact hws b (hab.subset (by simp))

/-- Labels have no edges but that of program order. -/
theorem source_mem (hin : g.In r a b) : a ∈ g.order :=
  (h.mem_or_label (has_of_out (h.mirrored _ _ _ hin))).resolve_right fun hlabel =>
    h.label_end hlabel hin

/-- **Coherency edges between the neighbours of chains** make a graph regular. -/
theorem recohere (hr : Recoheres g g') (htasks : g'.tasks = g.tasks)
    (hwaiting : g'.waiting = g.waiting)
    (hco : ∀ {a b}, g'.In .coherency a b ↔ ∃ loc, loc ≠ .thread ∧ [a, b] <:+: g.chain loc) :
    g'.Regular := by
  have hs : g'.Shaped := h.toShaped.congr (hr.tidy h.tidy) hr.order htasks
    (fun k => kindOf?_congr (hr.event k)) fun {r a b} hin => by
      by_cases hc : r = .coherency
      · subst hc
        obtain ⟨loc, -, hab⟩ := hco.mp hin
        have hb := h.joins_of_adjacent hab
        exact Or.inr ⟨h.mem_of_joins hb, h.ne_init_of_joins hb, fun heq => by cases heq⟩
      · exact Or.inl ((hr.other hc).mp hin)
  have hchain : ∀ loc, g'.chain loc = g.chain loc := fun loc => by
    rw [chain, chain?, hr.chains, ← chain?, ← chain]
  have hsource : ∀ {r a b}, g'.In r a b → a ∈ g.order := by
    intro r a b hin
    by_cases hc : r = .coherency
    · subst hc
      obtain ⟨loc, -, hab⟩ := hco.mp hin
      exact h.mem_order_of_chain (hab.subset (by simp))
    · exact h.source_mem ((hr.other hc).mp hin)
  exact
    { toShaped := hs
      initial := fun he => h.initial ((hr.event _).symm.trans he)
      sequence := hr.order ▸ h.sequence
      mirrored := hr.mirrored h.mirrored
      linked := by
        intro t i hhas
        rw [hr.has_iff] at hhas
        exact (hr.other (by decide)).mpr (h.linked hhas)
      label_end := by
        intro r a b hlabel hin
        have hno := hs.isLabel_of_mem (hr.order ▸ hsource hin)
        exact absurd (hlabel.symm.trans hno) (by decide)
      no_fromRead := fun hin => h.no_fromRead ((hr.other (by decide)).mp hin)
      placed := fun hk he => h.placed (hr.order ▸ hk) ((hr.event _).symm.trans he)
      touched := by
        intro k e hk he
        rw [hchain]
        exact h.touched (hr.order ▸ hk) ((hr.event _).symm.trans he)
      locations := hr.chains ▸ h.locations
      chain_eq := by
        intro c hc
        obtain ⟨ws, heq, hnodup, hws⟩ := h.chain_eq (hr.chains ▸ hc)
        exact ⟨ws, heq, hnodup, fun w hw => (hws w hw).congr (hr.event w)⟩
      source := fun ha hb => h.source ((hr.other (by decide)).mp ha) ((hr.other (by decide)).mp hb)
      waits := by
        intro loc
        rw [waitingFor, hwaiting, ← waitingFor]
        exact h.waits loc
      coherency := by
        intro a b
        simp only [hchain]
        exact hco }

/-- Another chain for one location. -/
theorem setChain (hnodup : ks.Nodup) (hks : ∀ w ∈ ks, g.Joins w loc) :
    (g.setChain loc (.init :: ks)).Framed := by
  refine ⟨h.toShaped.setChain loc _, h.initial, h.sequence, h.mirrored, h.linked, h.label_end,
    h.no_fromRead, h.placed, ?_, nodup_setChain h.locations, ?_, h.source, h.waits⟩
  · intro k e hk he hne
    rw [chain_setChain]
    split
    · exact List.cons_ne_nil _ _
    · exact h.touched hk he hne
  · intro c hc
    rcases mem_setChain.mp hc with rfl | ⟨-, hc⟩
    · exact ⟨ks, rfl, hnodup, hks⟩
    · exact h.chain_eq hc

end Framed

namespace Regular

variable (h : g.Regular)
include h

/-! ### Labels and waiting tasks -/

/-- **Other labels and other waiting tasks** on the same events. -/
theorem relabel (hs : g'.Shaped) (horder : g'.order = g.order) (hchains : g'.chains = g.chains)
    (hevent : ∀ k ∈ g.order, g'.event? k = g.event? k) (hedge : ∀ {r a b}, b ∈ g.order →
      (g'.In r a b ↔ g.In r a b))
    (hm : g'.Mirrored) (hlinked : ∀ {t i : Nat}, g'.isLabel (.place t i) = true →
      g'.In .programOrder (.prior t i) (.place t i))
    (hend : ∀ {r a b}, g'.isLabel a = true → ¬g'.In r a b)
    (hwaits : ∀ loc, (g'.waitingFor loc).Nodup ∧ ∀ task ∈ g'.waitingFor loc, 0 ≤ task) :
    g'.Regular := by
  have hchain : ∀ loc, g'.chain loc = g.chain loc := fun loc => by
    rw [chain, chain?, hchains, ← chain?, ← chain]
  have hin : ∀ {r a b}, r ≠ .programOrder → (g'.In r a b ↔ g.In r a b) := by
    intro r a b hr
    constructor
    · exact fun hin => (hedge (horder ▸ hs.mem_of_in hin hr)).mp hin
    · exact fun hin => (hedge (h.mem_of_in hin hr)).mpr hin
  exact
    { toShaped := hs
      initial := fun he => h.initial ((hevent _ h.init_mem).symm.trans he)
      sequence := horder ▸ h.sequence
      mirrored := hm
      linked := by
        intro t i hhas
        rcases hs.mem_or_label hhas with hk | hlabel
        · have hk := horder ▸ hk
          exact (hedge hk).mpr (h.linked (h.has hk))
        · exact hlinked hlabel
      label_end := hend
      no_fromRead := fun hfr => h.no_fromRead ((hin (by decide)).mp hfr)
      placed := fun hk he => h.placed (horder ▸ hk) ((hevent _ (horder ▸ hk)).symm.trans he)
      touched := by
        intro k e hk he
        rw [hchain]
        exact h.touched (horder ▸ hk) ((hevent _ (horder ▸ hk)).symm.trans he)
      locations := hchains ▸ h.locations
      chain_eq := by
        intro c hc
        obtain ⟨ws, heq, hnodup, hws⟩ := h.chain_eq (hchains ▸ hc)
        exact ⟨ws, heq, hnodup, fun w hw => (hws w hw).congr (hevent w (h.mem_of_joins (hws w hw)))⟩
      source := fun ha hb => h.source ((hin (by decide)).mp ha) ((hin (by decide)).mp hb)
      waits := hwaits
      coherency := by
        intro a b
        rw [hin (by decide), h.coherency]
        simp only [hchain] }

theorem ensureTask (t : Int) : (g.ensureTask t).Regular :=
  h.relabel (h.toShaped.ensureTask t) rfl rfl (fun _ _ => rfl) (fun _ => Iff.rfl) h.mirrored
    (fun hlabel => h.linked (has_of_isLabel (g := g) hlabel)) h.label_end h.waits

/-- Other tasks wait for a lock. -/
theorem setWaiting {ts : List Int} (hnodup : ts.Nodup) (hts : ∀ task ∈ ts, 0 ≤ task) :
    (g.setWaiting loc ts).Regular := by
  refine h.relabel (h.toShaped.setWaiting loc ts) rfl rfl (fun _ _ => rfl) (fun _ => Iff.rfl)
    h.mirrored (fun hlabel => h.linked (has_of_isLabel (g := g) hlabel)) h.label_end fun loc' => ?_
  rw [waitingFor_setWaiting]
  split
  · exact ⟨hnodup, hts⟩
  · exact h.waits loc'

/-- **A task is blocked.** -/
theorem block {task : Int} (htask : 0 ≤ task) (hfree : g.isBlocked task = false) :
    (g.block task).Regular := by
  obtain ⟨t, rfl⟩ := Int.eq_ofNat_of_zero_le htask
  obtain ⟨n, hn, -⟩ := h.tasks t
  have hkeys := h.taskKeys_of_not_blocked hn hfree
  have hb := h.toShaped.blocks hn hkeys
  obtain ⟨e, hkind, hevent⟩ := hb.event
  refine h.relabel (hb.shaped h.toShaped hn hkeys) hb.order hb.chains (fun k hk => ?_)
    (fun {r a b} hk => ?_) (fun r a b hin => ?_) (fun {u i} hlab => ?_) (fun {r a b} hlab hin => ?_)
    fun loc => ?_
  · rw [hevent, if_neg (hn.ne_of_mem hk)]
  · rw [(hb.edges r a b).1]
    exact or_iff_left fun heq => hn.ne_of_mem hk heq.2.2
  · exact ((hb.edges r a b).2).mpr (((hb.edges r a b).1.mp hin).imp_left (h.mirrored r a b))
  · rw [(hb.edges ..).1]
    rcases hb.isLabel_iff.mp hlab with heq | hlab
    · obtain ⟨rfl, rfl⟩ := Key.place_inj.mp heq
      exact Or.inr ⟨rfl, rfl, rfl⟩
    · exact Or.inl (h.linked (has_of_isLabel hlab))
  · rcases ((hb.edges r a b).1).mp hin with hin | ⟨-, rfl, -⟩
    · rcases hb.isLabel_iff.mp hlab with rfl | hlab
      · exact h.not_has hn hkeys (has_of_out (h.mirrored _ _ _ hin))
      · exact h.label_end hlab hin
    · have hprior := h.prior_mem hn
      rcases hb.isLabel_iff.mp hlab with heq | hlab
      · exact hn.ne_of_mem hprior heq
      · rw [h.isLabel_of_mem hprior] at hlab
        cases hlab
  · rw [waitingFor, hb.waiting, ← waitingFor]
    exact h.waits loc

/-- **The label of a task is taken off.** -/
theorem dropLabel {task : Int} (hblocked : g.isBlocked task = true) :
    (g.dropLabel task).Regular := by
  obtain ⟨t, rfl⟩ : ∃ t : Nat, task = t := by
    refine Int.eq_ofNat_of_zero_le (Int.not_lt.mp fun hneg => ?_)
    rw [isBlocked_of_neg hneg] at hblocked
    cases hblocked
  obtain ⟨n, hn, -⟩ := h.tasks t
  have hu := h.toShaped.unblocks hn ((h.isBlocked_iff hn).mp hblocked)
  refine h.relabel (hu.shaped hn h.toShaped) hu.order hu.chains (fun k hk => ?_)
    (fun {r a b} hk => ?_) (fun r a b hin => ?_) (fun {u i} hlab => ?_) (fun {r a b} hlab hin => ?_)
    fun loc => ?_
  · rw [hu.event, if_neg (hn.ne_of_mem hk)]
  · rw [(hu.edges r a b).1]
    exact and_iff_left (hn.ne_of_mem hk)
  · obtain ⟨hin, hne⟩ := (hu.edges r a b).1.mp hin
    exact (hu.edges r a b).2.mpr ⟨h.mirrored r a b hin, hn.ne_of_mem (h.source_mem hin), hne⟩
  · obtain ⟨hne, hlab⟩ := hu.isLabel_iff.mp hlab
    exact (hu.edges ..).1.mpr ⟨h.linked (has_of_isLabel hlab), hne⟩
  · exact h.label_end (hu.isLabel_iff.mp hlab).2 ((hu.edges ..).1.mp hin).1
  · rw [waitingFor, hu.waiting, ← waitingFor]
    exact h.waits loc

omit h in
theorem blockAll (h : g.Regular) (ts : List Int) (hts : ∀ task ∈ ts, 0 ≤ task) :
    (g.blockAll ts).Regular := by
  induction ts generalizing g with
  | nil => exact h
  | cons task ts ih =>
    have hcons : g.blockAll (task :: ts) =
      (if g.isBlocked task then g else g.block task).blockAll ts := rfl
    rw [hcons]
    refine ih ?_ fun task htask => hts task (List.mem_cons_of_mem _ htask)
    split
    · exact h
    · rename_i hfree
      exact h.block (hts task List.mem_cons_self) (by simpa using hfree)

omit h in
theorem unblockAll (h : g.Regular) (ts : List Int) : (g.unblockAll ts).Regular := by
  induction ts generalizing g with
  | nil => exact h
  | cons task ts ih =>
    have hcons : g.unblockAll (task :: ts) =
      (if g.isBlocked task then g.dropLabel task else g).unblockAll ts := rfl
    rw [hcons]
    refine ih ?_
    split
    · rename_i hblocked
      exact h.dropLabel hblocked
    · exact h

/-- A task that finds a lock held is blocked and waits for it. -/
theorem blockForLock {task : Int} (htask : 0 ≤ task) (loc : Location) :
    (g.blockForLock task loc).Regular := by
  have hone : (if g.isBlocked task then g else g.block task) = g.blockAll [task] := rfl
  unfold Graph.blockForLock
  dsimp only
  rw [hone]
  have hblock := h.blockAll [task] (by simpa using htask)
  generalize g.blockAll [task] = g₁ at hblock
  split
  · exact hblock
  · rename_i hnew
    refine hblock.setWaiting ?_ ?_
    · rw [List.nodup_append]
      refine ⟨(hblock.waits loc).1, by simp, ?_⟩
      rintro x hx y hy rfl
      exact hnew (by simpa using List.mem_singleton.mp hy ▸ hx)
    · intro x hx
      rcases List.mem_append.mp hx with hx | hx
      · exact (hblock.waits loc).2 x hx
      · rwa [List.mem_singleton.mp hx]

/-- A release lets the tasks that wait for the lock go on. -/
theorem unblockForLock (loc : Location) : (g.unblockForLock loc).Regular :=
  h.unblockAll (g.waitingFor loc)

/-- A task that gets a lock does not wait for it any more, and all others that do are blocked. -/
theorem acquireLock (loc : Location) (task : Int) : (g.acquireLock loc task).Regular := by
  unfold Graph.acquireLock
  split
  · exact h
  · rename_i ts hlook
    have hfor : g.waitingFor loc = ts := by rw [waitingFor, hlook]; rfl
    obtain ⟨hnodup, hts⟩ := h.waits loc
    rw [hfor] at hnodup hts
    have hothers : ∀ x ∈ ts.filter fun x => x != task, 0 ≤ x :=
      fun x hx => hts x (List.mem_of_mem_filter hx)
    exact (h.setWaiting (hnodup.filter _) hothers).blockAll _ hothers

/-! ### Edges between events -/

/-- **Other edges** between the same events, with program order and coherency as they were. -/
theorem rewire (hs : g'.Shaped) (horder : g'.order = g.order) (hchains : g'.chains = g.chains)
    (hwaiting : g'.waiting = g.waiting) (hevent : ∀ k, g'.event? k = g.event? k) (hm : g'.Mirrored)
    (hpo : ∀ {a b}, g'.In .programOrder a b ↔ g.In .programOrder a b)
    (hco : ∀ {a b}, g'.In .coherency a b ↔ g.In .coherency a b) (hsource : ∀ {r a b}, g'.In r a b →
      a ∈ g.order)
    (hfr : ∀ {a b}, ¬g'.In .fromRead a b)
    (hrf : ∀ {a b k}, g'.In .readsFrom a k → g'.In .readsFrom b k → a = b) : g'.Regular := by
  have hchain : ∀ loc, g'.chain loc = g.chain loc := fun loc => by
    rw [chain, chain?, hchains, ← chain?, ← chain]
  exact
    { toShaped := hs
      initial := fun he => h.initial ((hevent _).symm.trans he)
      sequence := horder ▸ h.sequence
      mirrored := hm
      linked := by
        intro t i hhas
        rw [has_iff_event?, hevent, ← has_iff_event?] at hhas
        exact hpo.mpr (h.linked hhas)
      label_end := by
        intro r a b hlabel hin
        rw [hs.isLabel_of_mem (horder ▸ hsource hin)] at hlabel
        cases hlabel
      no_fromRead := hfr
      placed := fun hk he => h.placed (horder ▸ hk) ((hevent _).symm.trans he)
      touched := by
        intro k e hk he
        rw [hchain]
        exact h.touched (horder ▸ hk) ((hevent _).symm.trans he)
      locations := hchains ▸ h.locations
      chain_eq := by
        intro c hc
        obtain ⟨ws, heq, hnodup, hws⟩ := h.chain_eq (hchains ▸ hc)
        exact ⟨ws, heq, hnodup, fun w hw => (hws w hw).congr (hevent w)⟩
      source := hrf
      waits := by
        intro loc
        rw [waitingFor, hwaiting, ← waitingFor]
        exact h.waits loc
      coherency := by
        intro a b
        rw [hco, h.coherency]
        simp only [hchain] }

/-- **Another edge between events** that is no program order and no coherency. -/
theorem link (ha : a ∈ g.order) (hb : b ∈ g.order) (hne : b ≠ .init) (hpo : r ≠ .programOrder)
    (hco : r ≠ .coherency) (hfr : r ≠ .fromRead)
    (hrf : r = .readsFrom → ∀ c, ¬g.In .readsFrom c b) : (g.link a b r).Regular := by
  have hin : ∀ {r' c d}, (g.link a b r).In r' c d ↔ g.In r' c d ∨ r' = r ∧ c = a ∧ d = b :=
    in_link (h.has hb)
  have hother : ∀ {r' c d}, r' ≠ r → ((g.link a b r).In r' c d ↔ g.In r' c d) := fun hr =>
    hin.trans (or_iff_left fun heq => hr heq.1)
  refine h.rewire (h.toShaped.link (h.has ha) hb hne fun heq => absurd heq hpo) (link_order ..)
    (link_chains ..) (link_waiting ..) (fun _ => event?_link) (fun r' c d hcd => ?_)
    (hother hpo.symm) (hother hco.symm) (fun hcd => ?_)
    (fun hcd => h.no_fromRead ((hother hfr.symm).mp hcd)) fun {c d k} hc hd => ?_
  · exact (out_link (h.has ha)).mpr ((hin.mp hcd).imp_left (h.mirrored r' c d))
  · rcases hin.mp hcd with hcd | ⟨-, rfl, -⟩
    · exact h.source_mem hcd
    · exact ha
  · rcases hin.mp hc with hc' | ⟨rfl, rfl, rfl⟩
    · rcases hin.mp hd with hd' | ⟨heq, -, rfl⟩
      · exact h.source hc' hd'
      · exact absurd hc' (hrf heq.symm c)
    · rcases hin.mp hd with hd' | ⟨-, heq, -⟩
      · exact absurd hd' (hrf rfl d)
      · exact heq.symm

/-- **A read loses a source.** -/
theorem unlink : (g.unlink a b .readsFrom).Regular := by
  have hother : ∀ {r' c d}, r' ≠ .readsFrom →
      ((g.unlink a b .readsFrom).In r' c d ↔ g.In r' c d) := fun hr =>
    in_unlink.trans (and_iff_left fun heq => hr heq.1)
  exact h.rewire h.toShaped.unlink (unlink_order ..) (unlink_chains ..) (unlink_waiting ..)
    (fun _ => event?_unlink)
    (fun r' c d hcd => out_unlink.mpr ((in_unlink.mp hcd).imp_left (h.mirrored r' c d)))
    (hother (by decide)) (hother (by decide)) (fun hcd => h.source_mem (in_unlink.mp hcd).1)
    (fun hcd => h.no_fromRead (in_unlink.mp hcd).1) fun hc hd =>
      h.source (in_unlink.mp hc).1 (in_unlink.mp hd).1

/-- **Other clocks.** -/
theorem of_reclocked (hr : Reclocked g g') : g'.Regular :=
  h.rewire (h.toShaped.of_reclocked hr) hr.order hr.chains hr.waiting (fun _ => hr.event?)
    (fun r a b hin => hr.out_iff.mpr (h.mirrored r a b (hr.in_iff.mp hin))) hr.in_iff hr.in_iff
    (fun hin => h.source_mem (hr.in_iff.mp hin)) (fun hin => h.no_fromRead (hr.in_iff.mp hin))
    fun ha hb => h.source (hr.in_iff.mp ha) (hr.in_iff.mp hb)

/-- **A read without a source** gets one. -/
theorem setReadsFrom (hread : k ∈ g.order) (hwrite : w ∈ g.order) (hne : k ≠ .init)
    (hnone : ∀ c, ¬g.In .readsFrom c k) : (g.setReadsFrom k w).Regular :=
  h.link hwrite hread hne (by decide) (by decide) (by decide) fun _ => hnone

/-- **A read gets another source.** -/
theorem changeReadsFrom (hread : k ∈ g.order) (hwrite : w ∈ g.order)
    (hg' : g.changeReadsFrom k w = .ok g') :
    g'.Regular := by
  obtain ⟨m, hm⟩ := h.find? hread
  unfold Graph.changeReadsFrom at hg'
  rw [hm] at hg'
  dsimp only [Option.map_some, Option.getD_some] at hg'
  split at hg'
  · rename_i source hsource
    have hin : ∀ c, g.In .readsFrom c k ↔ c = source := by
      intro c
      rw [← mem_predecessors hm, hsource, List.mem_singleton]
    have hmem := h.source_mem ((hin source).mpr rfl)
    obtain ⟨p, hp⟩ := h.find? hmem
    have hne : k ≠ .init := by
      rintro rfl
      exact h.no_cause ((hin source).mpr rfl)
    rw [h.node hmem hp] at hg'
    dsimp only [bind, Except.bind, pure, Except.pure] at hg'
    rw [key_of_find? hp] at hg'
    obtain rfl := Except.ok.inj hg'
    refine h.unlink.link (by simpa using hwrite) (by simpa using hread) hne (by decide) (by decide)
      (by decide) fun _ c hc => ?_
    obtain ⟨hc, hnot⟩ := in_unlink.mp hc
    exact hnot ⟨rfl, (hin c).mp hc, rfl⟩
  · cases hg'

/-- The last event of a task that is not blocked is an event. -/
theorem lastOf_mem {task : Int} (hfree : g.isBlocked task = false) : g.lastOf task ∈ g.order := by
  by_cases hneg : task < 0
  · rw [lastOf, taskKeys_of_neg hneg]
    exact h.init_mem
  · obtain ⟨t, rfl⟩ := Int.eq_ofNat_of_zero_le (Int.not_lt.mp hneg)
    obtain ⟨n, hn, -⟩ := h.tasks t
    rw [lastOf_eq (h.taskKeys_of_not_blocked hn hfree)]
    exact h.prior_mem hn

theorem ne_init_of_kind (hk : g.event? k = some e) (hkind : e.kind ≠ .init) : k ≠ .init := by
  rintro rfl
  exact hkind (h.initial hk)

/-- **The start of a thread** comes after the last event of the task that spawned it. -/
theorem trackThreadStarts (hg' : g.trackThreadStarts k = .ok g')
    (hfree : ∀ {e task}, g.event? k = some e → e.startedBy? = some task →
      g.isBlocked task = false) : g'.Regular := by
  unfold Graph.trackThreadStarts at hg'
  split at hg'
  · cases hg'
    exact h
  · rename_i m hm
    have he : g.event? k = some m.event := by rw [event?, hm]; rfl
    split at hg'
    · cases hg'
      exact h
    rename_i hkind
    have hkind : m.event.kind = .threadStart := not_not.mp hkind
    have hk := (h.mem_iff he).mpr (by rw [hkind]; decide)
    have hne := h.ne_init_of_kind he (by rw [hkind]; decide)
    split at hg'
    · rename_i parent hparent
      split at hg'
      · obtain rfl := Except.ok.inj hg'
        exact h.link (h.lastOf_mem (hfree he hparent)) hk hne (by decide) (by decide) (by decide)
          fun heq => by cases heq
      · cases hg'
    · cases hg'

/-- **A join** comes after the last event of the task that was joined. -/
theorem trackThreadJoins (hg' : g.trackThreadJoins k = .ok g')
    (hfree : ∀ {e task}, g.event? k = some e → e.joinedTask? = some task →
      g.isBlocked task = false) : g'.Regular := by
  unfold Graph.trackThreadJoins at hg'
  split at hg'
  · cases hg'
    exact h
  · rename_i m hm
    have he : g.event? k = some m.event := by rw [event?, hm]; rfl
    split at hg'
    · cases hg'
      exact h
    rename_i hkind
    have hkind : m.event.kind = .threadJoin := not_not.mp hkind
    have hk := (h.mem_iff he).mpr (by rw [hkind]; decide)
    have hne := h.ne_init_of_kind he (by rw [hkind]; decide)
    split at hg'
    · rename_i target htarget
      split at hg'
      · obtain rfl := Except.ok.inj hg'
        exact h.link (h.lastOf_mem (hfree he htarget)) hk hne (by decide) (by decide) (by decide)
          fun heq => by cases heq
      · cases hg'
    · cases hg'

/-! ### Chains that change -/

/-- **Another chain for one location**, with coherency edges between its neighbours. -/
theorem rechain (hr : Recoheres g g') (htasks : g'.tasks = g.tasks)
    (hwaiting : g'.waiting = g.waiting) (hnodup : ks.Nodup) (hks : ∀ w ∈ ks, g.Joins w loc)
    (hco : ∀ {a b}, g'.In .coherency a b ↔
      ∃ loc', loc' ≠ .thread ∧ [a, b] <:+: if loc' = loc then .init :: ks else g.chain loc') :
    (g'.setChain loc (.init :: ks)).Regular := by
  have hchains : (g'.setChain loc (.init :: ks)).chains =
      (g.setChain loc (.init :: ks)).chains := by
    unfold Graph.setChain chain?
    rw [hr.chains]
  have htidy (ht : (g.setChain loc (.init :: ks)).Tidy) : (g'.setChain loc (.init :: ks)).Tidy := by
    have hnodes (f : Graph) : f.nodes = (f.setChain loc (.init :: ks)).nodes := rfl
    exact tidy_of_nodes (hnodes g').symm (hr.tidy (tidy_of_nodes (hnodes g) ht))
  refine (h.toFramed.setChain hnodup hks).recohere ⟨hr.order, hchains, hr.event, htidy, hr.mirrored,
    hr.other⟩ htasks hwaiting fun {a b} => ?_
  simp only [chain_setChain]
  exact hco

/-- A location that nothing has touched gets a chain. -/
theorem opened (loc : Location) : (g.opened loc).Regular := by
  unfold Graph.opened
  split
  · rename_i hnew
    have hnil : g.chain loc = [] :=
      chain?_eq_none_of_chain (by simpa using (Bool.and_eq_true_iff.mp hnew).2)
    refine h.rechain (.refl g) rfl rfl List.nodup_nil (by simp) fun {a b} => ?_
    refine h.coherency.trans (exists_congr fun loc' => and_congr_right fun _ => ?_)
    split
    · rename_i heq
      rw [heq, hnil]
      exact iff_of_false (fun hin => by simpa using hin.length_le) fun hin => by
        simpa using hin.length_le
    · rfl
  · exact h

/-- **The start of a thread** comes after the previous start. -/
theorem trackThreadCreates (hnew : k ∉ g.chain .thread) : (g.trackThreadCreates k).Regular := by
  unfold Graph.trackThreadCreates
  split
  · rename_i hkind
    obtain ⟨e, he, hstart⟩ : ∃ e, g.event? k = some e ∧ e.kind = .threadStart := by
      rw [kindOf?_eq_map] at hkind
      exact Option.map_eq_some_iff.mp hkind
    have hk := (h.mem_iff he).mpr (by rw [hstart]; decide)
    obtain ⟨ws, heq, hnodup, hws⟩ :
        ∃ ws, (if (g.chain .thread).isEmpty then [Key.init] else g.chain .thread) = .init :: ws ∧
        ws.Nodup ∧ ∀ w ∈ ws, g.Joins w .thread := by
      rcases h.chain_cases .thread with heq | ⟨ws, heq, hws⟩
      · exact ⟨[], by rw [heq]; rfl, List.nodup_nil, by simp⟩
      · exact ⟨ws, by rw [heq]; rfl, hws⟩
    have hnot : k ∉ ws := by
      intro hmem
      split at heq
      · cases heq
        cases hmem
      · exact hnew (heq ▸ List.mem_cons_of_mem _ hmem)
    dsimp only
    rw [heq]
    have hlast : (Key.init :: ws).getLast?.getD .init ∈ g.order := by
      rw [List.getLast?_eq_some_getLast (List.cons_ne_nil _ _), Option.getD_some]
      rcases List.mem_cons.mp (List.getLast_mem (List.cons_ne_nil Key.init ws)) with heq | hmem
      · rw [heq]
        exact h.init_mem
      · exact h.mem_of_joins (hws _ hmem)
    have hlink := h.link (r := .threadCreation) hlast hk
      (h.ne_init_of_kind he (by rw [hstart]; decide)) (by decide) (by decide) (by decide)
      fun heq => by cases heq
    rw [List.cons_append]
    refine hlink.rechain (.refl _) rfl rfl ?_ ?_ fun {a b} => ?_
    · rw [List.nodup_append]
      refine ⟨hnodup, by simp, ?_⟩
      rintro x hx y hy rfl
      exact hnot (List.mem_singleton.mp hy ▸ hx)
    · intro w hw
      rcases List.mem_append.mp hw with hw | hw
      · exact (hws w hw).congr event?_link
      · rw [List.mem_singleton.mp hw]
        exact ⟨e, event?_link.trans he,
          (h.placed hk he).thread (Or.inl hstart), by rw [if_pos rfl]; exact hstart⟩
    · refine hlink.coherency.trans (exists_congr fun loc' => and_congr_right fun hloc' => ?_)
      rw [if_neg hloc']
  · exact h

end Regular

end Graph

end Interleaving
