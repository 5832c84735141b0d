import Interleaving.Proofs.Graph.Editing

/-!
# Graphs under any calls

Whoever calls the engine in an order of their own can bring about graphs that no run of a program
leads to: a thread is spawned by a task that ends in a label, the label goes and leaves an edge from
nothing behind, a location of memory stands for the one of threads. Such a graph is not regular, yet
some things hold in it all the same. It is **laid out** (`Interleaving.Graph.Laid`) when its views
list the same events in program order and no chain lists one twice, and **steady**
(`Interleaving.Graph.Steady`) when its clocks also rise along every task. A bound on the clocks of a
steady graph is one on the places of its events, too, and no count is ever wrapped.

A steady graph stays steady when tasks are blocked and let go, when an edge leads to its latest
event and when an event joins it.
-/

namespace Interleaving

namespace Graph

variable {g g' : Graph} {a b k w : Key} {r : Relation} {e : Event} {t n i j u : Nat}
  {loc : Location} {ks : List Key} {N M : Nat} {c : Clock}

/-! ### Graphs that are laid out -/

/-- The first event in front of places of tasks, each of them once. -/
def Strung (ks : List Key) : Prop :=
  ∃ ws, ks = .init :: ws ∧ ws.Nodup ∧ ∀ w ∈ ws, ∃ t i : Nat, w = .place t i

/-- **The views list the same events** in program order, and no chain lists one twice. Other edges
may come from labels, or from nothing. -/
structure Laid (g : Graph) : Prop extends g.Shaped where
  sequence : ∀ {t i j : Nat}, i < j → .place t j ∈ g.order →
    Before g.order (.place t i) (.place t j)
  linked : ∀ {t i : Nat}, .place t i ∈ g.order → g.In .programOrder (.prior t i) (.place t i)
  located : ∀ {k e}, g.event? k = some e → e.kind.isRead = true ∨ e.kind.isWrite = true →
    e.location ≠ .none
  waits : ∀ loc, ∀ task ∈ g.waitingFor loc, 0 ≤ task
  strung : ∀ loc, g.chain loc = [] ∨ Strung (g.chain loc)

/-- Whatever a chain lists is an event. -/
def Resolved (g : Graph) : Prop := ∀ loc, ∀ k ∈ g.chain loc, k ∈ g.order

namespace Strung

/-- A chain that is strung lists no write twice. -/
theorem nodup (h : Strung ks) : ks.Nodup := by
  obtain ⟨ws, rfl, hnodup, hws⟩ := h
  refine List.nodup_cons.mpr ⟨fun hin => ?_, hnodup⟩
  obtain ⟨t, i, heq⟩ := hws _ hin
  exact Key.init_ne_place t i heq

/-- A chain that is strung lists events with places, behind the first event. -/
theorem cases (h : Strung ks) (hk : k ∈ ks) : k = .init ∨ ∃ t i : Nat, k = .place t i := by
  obtain ⟨ws, rfl, -, hws⟩ := h
  exact (List.mem_cons.mp hk).imp_right (hws k)

theorem singleton : Strung [.init] := ⟨[], rfl, List.nodup_nil, by simp⟩

/-- A write with a place can join a chain. -/
theorem concat (h : Strung ks) (hnew : .place t i ∉ ks) : Strung (ks ++ [.place t i]) := by
  obtain ⟨ws, rfl, hnodup, hws⟩ := h
  refine ⟨ws ++ [.place t i], rfl, ?_, fun w hw => ?_⟩
  · rw [List.nodup_append]
    refine ⟨hnodup, by simp, ?_⟩
    rintro x hx y hy rfl
    exact hnew (List.mem_cons_of_mem _ (List.mem_singleton.mp hy ▸ hx))
  · rcases List.mem_append.mp hw with hw | hw
    · exact hws w hw
    · exact ⟨t, i, List.mem_singleton.mp hw⟩

/-- Writes can leave a chain. -/
theorem filter (h : Strung ks) {p : Key → Bool} (hp : p .init = true) : Strung (ks.filter p) := by
  obtain ⟨ws, rfl, hnodup, hws⟩ := h
  exact ⟨ws.filter p, List.filter_cons_of_pos hp, hnodup.filter p,
    fun w hw => hws w (List.mem_of_mem_filter hw)⟩

end Strung

namespace Laid

variable (h : g.Laid)
include h

theorem nodup_chain (loc : Location) : (g.chain loc).Nodup := by
  rcases h.strung loc with hnil | hstrung
  · rw [hnil]
    exact List.nodup_nil
  · exact hstrung.nodup

/-- The events as they were, with program order between them, and perhaps other labels, edges and
chains. -/
theorem congr (hs : g'.Shaped) (horder : g'.order = g.order)
    (hface : ∀ k ∈ g.order, g'.face k = g.face k)
    (hpo : ∀ {a b}, b ∈ g.order → g.In .programOrder a b → g'.In .programOrder a b)
    (hwaits : ∀ loc, ∀ task ∈ g'.waitingFor loc, 0 ≤ task)
    (hstrung : ∀ loc, g'.chain loc = [] ∨ Strung (g'.chain loc)) : g'.Laid where
  toShaped := hs
  sequence := by
    rw [horder]
    exact h.sequence
  linked := fun hk => hpo (horder ▸ hk) (h.linked (horder ▸ hk))
  located := by
    intro k e he hkind
    have hk := horder ▸ (hs.mem_iff he).mpr fun hblock => by
      rw [hblock] at hkind
      exact hkind.elim nofun nofun
    obtain ⟨e₀, he₀⟩ := h.event? hk
    obtain ⟨hsame, hloc⟩ := eq_of_face he he₀ (hface k hk)
    rw [hloc]
    exact h.located he₀ (hsame ▸ hkind)
  waits := hwaits
  strung := hstrung

/-- A graph that resembles one that is laid out is laid out. -/
theorem resemble (hs : g'.Shaped) (hr : Resembles g g')
    (hwaits : ∀ loc, ∀ task ∈ g'.waitingFor loc, 0 ≤ task) :
    g'.Laid :=
  h.congr hs hr.order hr.face (fun hb hin => (hr.edge hb).mpr hin) hwaits fun loc =>
    hr.chain loc ▸ h.strung loc

/-- One more edge to an event. -/
theorem link (ha : g.Has a) (hb : b ∈ g.order) (hne : b ≠ .init) (hr : r ≠ .programOrder) :
    (g.link a b r).Laid := by
  refine h.congr (h.toShaped.link ha hb hne fun heq => absurd heq hr) (link_order ..)
    (fun _ _ => face_congr event?_link) (fun _ hin => (in_link (h.has hb)).mpr (Or.inl hin))
    (fun loc => ?_) fun loc => ?_
  · rw [waitingFor, link_waiting, ← waitingFor]
    exact h.waits loc
  · rw [chain, chain?, link_chains, ← chain?, ← chain]
    exact h.strung loc

theorem unlink (hr : r ≠ .programOrder) : (g.unlink a b r).Laid :=
  h.congr h.toShaped.unlink rfl (fun _ _ => face_congr event?_unlink)
    (fun _ hin => in_unlink.mpr ⟨hin, fun heq => hr heq.1.symm⟩) h.waits h.strung

/-- A chain that is strung may be replaced by another. -/
theorem setChain (hks : Strung ks) : (g.setChain loc ks).Laid := by
  refine h.congr (h.toShaped.setChain loc ks) rfl (fun _ _ => rfl) (fun _ hin => hin) h.waits
    fun loc' => ?_
  rw [chain_setChain]
  split
  · exact Or.inr hks
  · exact h.strung loc'

/-- New clocks do not change the layout. -/
theorem of_reclocked (hr : Reclocked g g') : g'.Laid := by
  refine h.congr (h.toShaped.of_reclocked hr) hr.order (fun k _ => face_congr hr.event?)
    (fun _ hin => hr.in_iff.mpr hin) (fun loc => ?_) fun loc => ?_
  · rw [waitingFor, hr.waiting, ← waitingFor]
    exact h.waits loc
  · rw [chain, chain?, hr.chains, ← chain?, ← chain]
    exact h.strung loc

end Laid

/-! ### Clocks that rise -/

/-- **Clocks rise along every task** and count no further than a bound; those of labels may be one
ahead. -/
structure Rising (g : Graph) (N : Nat) : Prop where
  nonneg : ∀ k, (g.clockOf k).Nonneg
  bounded : ∀ k ∈ g.order, ∀ u : Nat, (g.clockOf k).count u ≤ N
  ahead : ∀ k, ∀ u : Nat, (g.clockOf k).count u ≤ N + 1
  prior : ∀ {t i : Nat}, .place t i ∈ g.order →
    ∀ u : Nat, (g.clockOf (.prior t i)).count u ≤ (g.clockOf (.place t i)).count u
  own : ∀ {t i : Nat}, .place t i ∈ g.order →
    (g.clockOf (.prior t i)).count t < (g.clockOf (.place t i)).count t

namespace Rising

theorem mono (h : g.Rising N) (hle : N ≤ M) : g.Rising M where
  nonneg := h.nonneg
  bounded := fun k hk u => (h.bounded k hk u).trans (by exact_mod_cast hle)
  ahead := fun k u => (h.ahead k u).trans (by exact_mod_cast Nat.succ_le_succ hle)
  prior := h.prior
  own := h.own

/-- The clocks of the events as they were. -/
theorem congr (h : g.Rising N) (horder : g'.order = g.order)
    (hprior : ∀ {t i}, .place t i ∈ g.order → Key.prior t i ∈ g.order)
    (hclock : ∀ k ∈ g.order, g'.clockOf k = g.clockOf k)
    (hlabel : ∀ k, (g'.clockOf k).Nonneg ∧ ∀ u : Nat, (g'.clockOf k).count u ≤ N + 1) :
    g'.Rising N where
  nonneg := fun k => (hlabel k).1
  bounded := fun k hk u => by
    rw [hclock k (horder ▸ hk)]
    exact h.bounded k (horder ▸ hk) u
  ahead := fun k => (hlabel k).2
  prior := fun hk u => by
    have hk := horder ▸ hk
    rw [hclock _ hk, hclock _ (hprior hk)]
    exact h.prior hk u
  own := fun hk => by
    have hk := horder ▸ hk
    rw [hclock _ hk, hclock _ (hprior hk)]
    exact h.own hk

variable (h : g.Rising N) (hs : g.Shaped)
include h hs

/-- The clock of an event is above those of the events before it in its task. -/
theorem count_le (hij : i < j) (hj : .place t j ∈ g.order) :
    (∀ u : Nat, (g.clockOf (.place t i)).count u ≤ (g.clockOf (.place t j)).count u) ∧
      (g.clockOf (.place t i)).count t < (g.clockOf (.place t j)).count t := by
  induction j with
  | zero => exact absurd hij (Nat.not_lt_zero i)
  | succ j ih =>
    have hprior := h.prior hj
    have hown := h.own hj
    rcases Nat.lt_succ_iff_lt_or_eq.mp hij with hlt | rfl
    · obtain ⟨hle, hlt⟩ := ih hlt (hs.mem_of_lt hj (Nat.lt_succ_self j))
      exact ⟨fun u => (hle u).trans (hprior u), hlt.trans hown⟩
    · exact ⟨hprior, hown⟩

/-- **What happens before something** comes with all that stands before it in its task. -/
theorem happensBefore_of_lt (hij : i < j) (hj : .place t j ∈ g.order)
    (hb : g.happensBefore (.place t j) b = true) : g.happensBefore (.place t i) b = true := by
  obtain ⟨m, hm⟩ := hs.find? (hs.mem_of_lt hj hij)
  obtain ⟨m', hm'⟩ := hs.find? hj
  obtain ⟨hle, hlt⟩ := h.count_le hs hij hj
  unfold happensBefore at hb ⊢
  rw [hm'] at hb
  rw [hm]
  unfold clockOf at hle hlt
  rw [hm, hm'] at hle hlt
  cases hfind : g.find? b with
  | none =>
    rw [hfind] at hb
    cases hb
  | some mb =>
    rw [hfind] at hb
    obtain ⟨hall, -⟩ := Clock.before_iff.mp hb
    exact Clock.before_iff.mpr ⟨fun u => (hle u).trans (hall u), t, (hlt.trans_le (hall t)).ne⟩

/-- An event happens before those behind it in its task. -/
theorem happensBefore_of_place (hij : i < j) (hj : .place t j ∈ g.order) :
    g.happensBefore (.place t i) (.place t j) = true := by
  obtain ⟨m, hm⟩ := hs.find? (hs.mem_of_lt hj hij)
  obtain ⟨m', hm'⟩ := hs.find? hj
  obtain ⟨hle, hlt⟩ := h.count_le hs hij hj
  unfold clockOf at hle hlt
  rw [hm, hm'] at hle hlt
  unfold happensBefore
  rw [hm, hm']
  exact Clock.before_iff.mpr ⟨hle, t, hlt.ne⟩

/-- An event counts itself and those before it in its task. -/
theorem lt_count (hi : .place t i ∈ g.order) : (i : Int) < (g.clockOf (.place t i)).count t := by
  induction i with
  | zero => exact (h.nonneg _ t).trans_lt (h.own hi)
  | succ i ih =>
    have hlt := ih (hs.mem_of_lt hi (Nat.lt_succ_self i))
    have hown := h.own hi
    have hprior : g.clockOf (.prior t (i + 1)) = g.clockOf (.place t i) := rfl
    rw [hprior] at hown
    push_cast
    omega

/-- The bound on clocks is one on the places of events. -/
theorem place_le (hi : .place t i ∈ g.order) : i + 1 ≤ N := by
  have hlt := h.lt_count hs hi
  have hle := h.bounded _ hi t
  omega

/-- A task has no more events than the bound allows. -/
theorem fills_le (hn : g.Fills t n) : n ≤ N := by
  cases n with
  | zero => exact Nat.zero_le N
  | succ n => exact h.place_le hs ((hn n).mpr (Nat.lt_succ_self n))

end Rising

/-! ### Steady graphs -/

/-- Behind every exclusive read there is room for the write that completes it. -/
def Ample (g : Graph) (N : Nat) : Prop :=
  ∀ {t i : Nat} {e}, g.event? (.place t i) = some e → e.kind.isExclusiveRead = true → i + 2 ≤ N

/-- Room is a matter of events. -/
theorem Ample.congr (h : g.Ample N) (hg : g.Shaped) (hs : g'.Shaped) (horder : g'.order = g.order)
    (hface : ∀ k ∈ g.order, g'.face k = g.face k) : g'.Ample N := by
  intro t i e he hex
  have hk := horder ▸ (hs.mem_iff he).mpr fun hblock => by
    rw [hblock] at hex
    cases hex
  obtain ⟨e₀, he₀⟩ := hg.event? hk
  exact h he₀ ((eq_of_face he he₀ (hface _ hk)).1 ▸ hex)

/-- **A graph that is laid out, with clocks that rise along its tasks.** A bound on its clocks
leaves room for the pairs that are still open. -/
structure Steady (g : Graph) (N : Nat) : Prop extends g.Laid, g.Rising N where
  ample : g.Ample N
  room : N < 2 ^ 62

theorem le_of_forall_lt {x y : Int} (hy : 0 ≤ y)
    (h : ∀ i : Nat, (i : Int) < x → (i : Int) < y) : x ≤ y := by
  obtain ⟨m, rfl⟩ := Int.eq_ofNat_of_zero_le hy
  exact Int.not_lt.mp fun hlt => Int.lt_irrefl _ (h m hlt)

/-- The clock that a task has after one more step; no count is wrapped. -/
theorem count_successor_eq (hnonneg : c.Nonneg) (hle : ∀ u : Nat, c.count u ≤ N)
    (hroom : N < 2 ^ 62) (u : Nat) :
    (c.successor t).count u = if u = t then c.count t + 1 else c.count u := by
  have hpos := hnonneg t
  have hmax := hle t
  rw [Clock.count_successor, Word.wrap_of_fits]
  unfold Word.fits Word.least Word.greatest
  simp only [Bool.and_eq_true, decide_eq_true_eq]
  omega

/-- The successor of a clock goes up by one in one task. -/
theorem count_successor_le (hnonneg : c.Nonneg) (hle : ∀ u : Nat, c.count u ≤ N)
    (hroom : N < 2 ^ 62) : (c.successor t).Nonneg ∧ (∀ u : Nat, (c.successor t).count u ≤ N + 1) ∧
      ∀ u : Nat, c.count u ≤ (c.successor t).count u ∧
        (u = t → c.count u < (c.successor t).count u) := by
  have hcount := count_successor_eq (t := t) hnonneg hle hroom
  refine ⟨fun u => ?_, fun u => ?_, fun u => ?_⟩ <;> rw [hcount] <;> have hpos := hnonneg u <;>
    have hmax := hle u <;>
    split <;> rename_i hu <;> first | (subst hu; omega) | omega

/-- What is not there has the clock of nothing. -/
theorem clock_of_absent (hk : g.find? k = none) (N : Nat) :
    (g.clockOf k).Nonneg ∧ ∀ u : Nat, (g.clockOf k).count u ≤ N + 1 := by
  rw [clockOf, hk]
  refine ⟨Clock.nonneg_empty, fun u => ?_⟩
  show (0 : Int) ≤ N + 1
  omega

namespace Steady

theorem mono (h : g.Steady N) (hle : N ≤ M) (hroom : M < 2 ^ 62) : g.Steady M :=
  ⟨h.toLaid, h.toRising.mono hle, fun he hex => (h.ample he hex).trans hle, hroom⟩

variable (h : g.Steady N)
include h

theorem prior_mem {t i : Nat} (hk : .place t i ∈ g.order) : Key.prior t i ∈ g.order := by
  cases i with
  | zero => exact h.init_mem
  | succ i => exact h.mem_of_lt hk (Nat.lt_succ_self i)

/-- **The same events** with the same clocks, and perhaps other labels. -/
theorem relabel (hs : g'.Shaped) (hr : Resembles g g')
    (hwaits : ∀ loc, ∀ task ∈ g'.waitingFor loc, 0 ≤ task)
    (hlabel : ∀ k, (g'.clockOf k).Nonneg ∧ ∀ u : Nat, (g'.clockOf k).count u ≤ N + 1) :
    g'.Steady N where
  toLaid := h.toLaid.resemble hs hr hwaits
  toRising := h.toRising.congr hr.order h.prior_mem hr.clock hlabel
  ample := Ample.congr h.ample h.toShaped hs hr.order hr.face
  room := h.room

/-- Nodes as they were. -/
theorem of_nodes (hs : g'.Shaped) (hnodes : g'.nodes = g.nodes) (horder : g'.order = g.order)
    (hwaits : ∀ loc, ∀ task ∈ g'.waitingFor loc, 0 ≤ task)
    (hstrung : ∀ loc, g'.chain loc = [] ∨ Strung (g'.chain loc)) : g'.Steady N where
  toLaid := h.toLaid.congr hs horder (fun _ _ => face_congr (event?_of_nodes hnodes _))
    (fun _ hin => (in_of_nodes hnodes).mpr hin) hwaits hstrung
  toRising := h.toRising.congr horder h.prior_mem (fun _ _ => clockOf_of_nodes hnodes _) fun k => by
    rw [clockOf_of_nodes hnodes]
    exact ⟨h.nonneg k, h.ahead k⟩
  ample := fun he hex => h.ample (event?_of_nodes hnodes _ ▸ he) hex
  room := h.room

theorem ensureTask (t : Int) : (g.ensureTask t).Steady N :=
  h.of_nodes (h.toShaped.ensureTask t) rfl rfl h.waits h.strung

theorem setWaiting {ts : List Int} (hts : ∀ task ∈ ts, 0 ≤ task) :
    (g.setWaiting loc ts).Steady N := by
  refine h.of_nodes (h.toShaped.setWaiting loc ts) rfl rfl (fun loc' => ?_) h.strung
  rw [waitingFor_setWaiting]
  split
  · exact hts
  · exact h.waits loc'

theorem setChain (hks : Strung ks) : (g.setChain loc ks).Steady N :=
  h.of_nodes (h.toShaped.setChain loc ks) rfl rfl h.waits (h.toLaid.setChain hks).strung

/-- A location may be touched. -/
theorem opened (loc : Location) : (g.opened loc).Steady N := by
  unfold Graph.opened
  split
  · exact h.setChain .singleton
  · exact h

/-! ### Labels -/

/-- **A label** is put behind the last event of a task. -/
theorem block {task : Int} (htask : 0 ≤ task) (hfree : g.isBlocked task = false) :
    (g.block task).Steady N ∧ Resembles g (g.block task) := by
  obtain ⟨t, rfl⟩ := Int.eq_ofNat_of_zero_le htask
  obtain ⟨n, hn, -⟩ := h.tasks t
  have hkeys := h.taskKeys_of_not_blocked hn hfree
  have hb := h.toShaped.blocks hn hkeys
  have hr := hb.resembles hn
  have hprior := h.toShaped.prior_mem hn
  obtain ⟨hnonneg, hle, -⟩ :=
    count_successor_le (t := t) (h.nonneg (.prior t n)) (h.bounded _ hprior) h.room
  refine ⟨h.relabel (hb.shaped h.toShaped hn hkeys) hr (fun loc => ?_) fun k => ?_, hr⟩
  · rw [waitingFor, hb.waiting, ← waitingFor]
    exact h.waits loc
  · by_cases hk : k = .place t n
    · subst hk
      rw [hb.label]
      refine ⟨hnonneg.merge _, fun u => ?_⟩
      rw [Clock.count_merge hnonneg]
      exact max_le (hle u) (h.ahead _ u)
    · rw [hb.clock k hk]
      exact ⟨h.nonneg k, h.ahead k⟩

/-- **The label of a task goes.** -/
theorem dropLabel {task : Int} (hblocked : g.isBlocked task = true) :
    (g.dropLabel task).Steady N ∧ Resembles g (g.dropLabel task) := by
  obtain ⟨t, rfl⟩ : ∃ t : Nat, task = t := by
    refine Int.eq_ofNat_of_zero_le (Int.not_lt.mp fun hneg => ?_)
    rw [isBlocked_of_neg hneg] at hblocked
    cases hblocked
  obtain ⟨n, hn, -⟩ := h.tasks t
  have hu := h.toShaped.unblocks hn ((h.isBlocked_iff hn).mp hblocked)
  have hr := hu.resembles hn
  refine ⟨h.relabel (hu.shaped hn h.toShaped) hr (fun loc => ?_) fun k => ?_, hr⟩
  · rw [waitingFor, hu.waiting, ← waitingFor]
    exact h.waits loc
  · by_cases hk : k = .place t n
    · have hnone : (g.dropLabel t).find? k = none := by
        have hevent := hu.event k
        rw [if_pos hk] at hevent
        exact Option.map_eq_none_iff.mp hevent
      exact clock_of_absent hnone N
    · rw [hu.clock k hk]
      exact ⟨h.nonneg k, h.ahead k⟩

omit h in
/-- Tasks may be blocked one after the other. -/
theorem blockAll (h : g.Steady N) {ts : List Int} (hts : ∀ task ∈ ts, 0 ≤ task) :
    (g.blockAll ts).Steady N ∧ Resembles g (g.blockAll ts) := by
  induction ts generalizing g with
  | nil => exact ⟨h, .refl g⟩
  | cons task ts ih =>
    have hmore : ∀ task ∈ ts, 0 ≤ task := fun x hx => hts x (List.mem_cons_of_mem _ hx)
    have hcons : g.blockAll (task :: ts) =
      (if g.isBlocked task then g else g.block task).blockAll ts := rfl
    rw [hcons]
    split
    · exact ih h hmore
    · rename_i hfree
      obtain ⟨hb, hr⟩ := h.block (hts task List.mem_cons_self) (by simpa using hfree)
      obtain ⟨hall, hr'⟩ := ih hb hmore
      exact ⟨hall, hr.trans hr'⟩

omit h in
/-- Tasks may be set free one after the other. -/
theorem unblockAll (h : g.Steady N) (ts : List Int) :
    (g.unblockAll ts).Steady N ∧ Resembles g (g.unblockAll ts) := by
  induction ts generalizing g with
  | nil => exact ⟨h, .refl g⟩
  | cons task ts ih =>
    have hcons : g.unblockAll (task :: ts) =
      (if g.isBlocked task then g.dropLabel task else g).unblockAll ts := rfl
    rw [hcons]
    split
    · rename_i hblocked
      obtain ⟨hb, hr⟩ := h.dropLabel hblocked
      obtain ⟨hall, hr'⟩ := ih hb
      exact ⟨hall, hr.trans hr'⟩
    · exact ih h

/-- A task may wait for a lock. -/
theorem blockForLock {task : Int} (htask : 0 ≤ task) (loc : Location) :
    (g.blockForLock task loc).Steady N ∧ Resembles g (g.blockForLock task loc) := by
  have hone : (if g.isBlocked task then g else g.block task) = g.blockAll [task] := rfl
  have htasks : ∀ x ∈ [task], 0 ≤ x := by simpa using htask
  obtain ⟨hblock, hr⟩ := h.blockAll htasks
  unfold Graph.blockForLock
  dsimp only
  rw [hone]
  generalize g.blockAll [task] = g₁ at hblock hr
  split
  · exact ⟨hblock, hr⟩
  · refine ⟨hblock.setWaiting fun x hx => ?_, hr.trans (Relabels.setWaiting ..).resembles⟩
    rcases List.mem_append.mp hx with hx | hx
    · exact hblock.waits loc x hx
    · rwa [List.mem_singleton.mp hx]

theorem unblockForLock (loc : Location) :
    (g.unblockForLock loc).Steady N ∧ Resembles g (g.unblockForLock loc) :=
  h.unblockAll (g.waitingFor loc)

/-- A task may stop waiting for a lock. -/
theorem acquireLock (loc : Location) (task : Int) :
    (g.acquireLock loc task).Steady N ∧ Resembles g (g.acquireLock loc task) := by
  unfold Graph.acquireLock
  split
  · exact ⟨h, .refl g⟩
  · rename_i ts hlook
    have hfor : g.waitingFor loc = ts := by rw [waitingFor, hlook]; rfl
    have hothers : ∀ x ∈ ts.filter fun x => x != task, 0 ≤ x := fun x hx =>
      h.waits loc x (hfor ▸ List.mem_of_mem_filter hx)
    have hset : (g.setWaiting loc (ts.filter fun x => x != task)).Steady N := h.setWaiting hothers
    obtain ⟨hall, hr⟩ := hset.blockAll hothers
    exact ⟨hall, (Relabels.setWaiting ..).resembles.trans hr⟩

theorem markFinalLockWrite (k : Key) :
    (g.markFinalLockWrite k).Steady N ∧ Resembles g (g.markFinalLockWrite k) := by
  have hr := Resembles.markFinalLockWrite g k
  have hclock : ∀ k', (g.markFinalLockWrite k).clockOf k' = g.clockOf k' := by
    intro k'
    unfold Graph.markFinalLockWrite clockOf
    rw [find?_modifyNode (by exact fun _ => rfl), Option.map_map]
    congr 2
    funext m
    dsimp only [Function.comp_apply]
    split <;> rfl
  have hin : ∀ r a b, (g.markFinalLockWrite k).In r a b ↔ g.In r a b :=
    fun r a b => keepsEdges_mark.in_iff
  refine ⟨h.relabel ?_ hr h.waits fun k' => ?_, hr⟩
  · exact h.toShaped.congr (keepsEdges_mark.tidy h.tidy) rfl rfl
        (kindOf?_markFinalLockWrite g k) fun hi =>
      Or.inl ((hin ..).mp hi)
  · rw [hclock]
    exact ⟨h.nonneg k', h.ahead k'⟩

/-- **A copy** has no labels, and no task waits in it. -/
theorem copy : g.copy.Steady N ∧ Resembles g g.copy := by
  have hr := h.toShaped.resembles_copy
  refine ⟨h.relabel h.toShaped.copy hr (fun loc => by simp [waitingFor, Graph.copy]) fun k => ?_,
    hr⟩
  by_cases hk : k ∈ g.order
  · rw [h.toShaped.clockOf_copy hk]
    exact ⟨h.nonneg k, h.ahead k⟩
  · have hnone : g.copy.find? k = none := by
      rw [h.toShaped.find?_copy, if_neg hk]
    exact clock_of_absent hnone N

end Steady

end Graph

end Interleaving
