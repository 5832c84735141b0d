import Interleaving.Graph.Edit
import Interleaving.Proofs.Clock
import Interleaving.Proofs.Graph.Order

/-!
# Clocks decide what happens before

An event happens before another one when a path of edges other than coherency leads from it to the
other one (`Interleaving.Graph.Past`). A clock **tells** the past of an event
(`Interleaving.Graph.Tells`) when it counts, for every task, the events of the task that are the
event itself or in its past; the events of a task are in the past of one another, so a count says
which they are.

If all clocks of a graph tell the past (`Interleaving.Graph.Timed`), then comparing clocks decides
what happens before (`Interleaving.Graph.happensBefore_iff`). Computing the clocks anew makes them
so (`Interleaving.Graph.recomputeClocks_spec`), and an edge to an event that nothing comes after
keeps them so (`Interleaving.Graph.Timed.link`).
-/

namespace Interleaving

namespace Key

/-- The key of the `i`-th event of a task. -/
def place (t i : Nat) : Key := ⟨t, i⟩

/-- The key before the `i`-th event of a task. -/
def prior (t : Nat) : Nat → Key
  | 0 => .init
  | i + 1 => place t i

/-- Places of tasks are keys of their own. -/
@[simp] theorem place_inj {t i u j : Nat} : place t i = place u j ↔ t = u ∧ i = j := by
  rw [place, place, Key.mk.injEq, Int.ofNat_inj, Int.ofNat_inj]

@[simp] theorem place_ne_init (t i : Nat) : place t i ≠ .init := by
  intro h
  have h : (t : Int) = -1 := congrArg Key.task h
  omega

@[simp] theorem init_ne_place (t i : Nat) : .init ≠ place t i := (place_ne_init t i).symm

@[simp] theorem isInit_place (t i : Nat) : (place t i).isInit = false :=
  decide_eq_false (by simp [place])

end Key

namespace Graph

variable {g : Graph} {a b k : Key} {t i n u : Nat} {c : Clock}

/-- An edge that orders its ends in time. -/
def Earlier (g : Graph) (a b : Key) : Prop := ∃ r : Relation, r.ordersTime = true ∧ g.In r a b

/-- What happens before an event. -/
def Past (g : Graph) : Key → Key → Prop := Relation.TransGen g.Earlier

/-- The past of an event is that of its causes, with the causes themselves. -/
theorem past_iff : g.Past a b ↔ ∃ d, g.Earlier d b ∧ (a = d ∨ g.Past a d) := by
  constructor
  · intro h
    cases h with
    | single h => exact ⟨a, h, Or.inl rfl⟩
    | tail h h' => exact ⟨_, h', Or.inr h⟩
  · rintro ⟨d, hd, rfl | h⟩
    · exact .single hd
    · exact .tail h hd

/-- The events of every task are numbered through and stand in program order, and time does not run
in a cycle. -/
structure Dense (g : Graph) : Prop where
  key : ∀ {k}, k ∈ g.order → k = .init ∨ ∃ t i : Nat, k = .place t i ∧ i + 1 < 2 ^ 63
  source_mem : ∀ {a b}, b ∈ g.order → g.Earlier a b → a ∈ g.order
  programOrder : ∀ {t i : Nat} {a}, .place t i ∈ g.order →
    (g.In .programOrder a (.place t i) ↔ a = .prior t i)
  no_cause : ∀ {a}, ¬g.Earlier a .init
  acyclic : ∀ a, ¬g.Past a a

namespace Dense

variable (hd : g.Dense)
include hd

/-- An event comes after the one in front of it in its task. -/
theorem earlier_prior (hb : .place t i ∈ g.order) : g.Earlier (.prior t i) (.place t i) :=
  ⟨.programOrder, rfl, (hd.programOrder hb).mpr rfl⟩

theorem prior_mem (hb : .place t i ∈ g.order) : Key.prior t i ∈ g.order :=
  hd.source_mem hb (hd.earlier_prior hb)

/-- The past of an event is in the total order. -/
theorem past_mem (hb : b ∈ g.order) (h : g.Past a b) : a ∈ g.order := by
  induction h with
  | single h => exact hd.source_mem hb h
  | tail _ h ih => exact ih (hd.source_mem hb h)

theorem not_past_init : ¬g.Past a .init := by
  rw [past_iff]
  rintro ⟨d, h, -⟩
  exact hd.no_cause h

/-- Earlier events of a task are in the past of later ones. -/
theorem past_place (hb : .place t n ∈ g.order) (hi : i < n) : g.Past (.place t i) (.place t n) := by
  induction n with
  | zero => omega
  | succ n ih =>
    have hedge := hd.earlier_prior hb
    by_cases heq : i = n
    · subst heq
      exact .single hedge
    · exact .tail (ih (hd.prior_mem hb) (by omega)) hedge

/-- In a task the past is what stands in front. -/
theorem past_place_iff (hb : .place t n ∈ g.order) : g.Past (.place t i) (.place t n) ↔ i < n := by
  refine ⟨fun h => ?_, hd.past_place hb⟩
  refine Nat.lt_of_not_le fun hle => ?_
  rcases Nat.lt_or_eq_of_le hle with hlt | rfl
  · exact hd.acyclic _ (h.trans (hd.past_place (hd.past_mem hb h) hlt))
  · exact hd.acyclic _ h

/-- The first event is in the past of all others. -/
theorem past_init (hb : b ∈ g.order) (hne : b ≠ .init) : g.Past .init b := by
  obtain ⟨t, n, rfl, -⟩ := (hd.key hb).resolve_left hne
  have hzero : ∀ {t}, Key.place t 0 ∈ g.order → g.Past .init (.place t 0) :=
    fun h => .single (hd.earlier_prior h)
  cases n with
  | zero => exact hzero hb
  | succ n =>
    have h := hd.past_place hb (Nat.succ_pos n)
    exact (hzero (hd.past_mem hb h)).trans h

end Dense

/-! ### Clocks that tell the past -/

/-- A clock counts the events of every task that are an event or happen before it. -/
structure Tells (g : Graph) (k : Key) (c : Clock) : Prop where
  nonneg : c.Nonneg
  count : ∀ t i : Nat, (i : Int) < c.count t ↔ .place t i = k ∨ g.Past (.place t i) k

/-- The clocks of all events tell their past. -/
def Timed (g : Graph) : Prop := ∀ k ∈ g.order, g.Tells k (g.clockOf k)

/-- A count is known by the numbers below it. -/
theorem eq_of_lt_iff {m : Int} (hm : 0 ≤ m) (h : ∀ i : Nat, (i : Int) < m ↔ i < n) : m = n := by
  have h₁ := h n
  have h₂ := h m.toNat
  omega

/-- A clock that tells the past counts the events of the own task. -/
theorem Tells.count_prior (hd : g.Dense) (hb : .place t n ∈ g.order) (h : g.Tells (.prior t n) c) :
    c.count t = n := by
  refine eq_of_lt_iff (h.nonneg t) fun i => ?_
  rw [h.count]
  cases n with
  | zero =>
    refine iff_of_false ?_ (Nat.not_lt_zero i)
    rintro (heq | hp)
    · exact Key.place_ne_init t i heq
    · exact hd.not_past_init hp
  | succ n =>
    rw [Key.prior, Key.place_inj, hd.past_place_iff (hd.prior_mem hb)]
    omega

theorem tells_init (hd : g.Dense) : g.Tells .init .empty := by
  refine ⟨Clock.nonneg_empty, fun t i => iff_of_false (by simp) ?_⟩
  rintro (heq | hp)
  · exact Key.place_ne_init t i heq
  · exact hd.not_past_init hp

theorem Tells.count_successor_prior (hd : g.Dense) (hb : .place t n ∈ g.order)
    (h : g.Tells (.prior t n) c) (u : Nat) :
    (c.successor t).count u = if u = t then (n : Int) + 1 else c.count u := by
  obtain ⟨t', n', heq, hlt⟩ := (hd.key hb).resolve_left (Key.place_ne_init t n)
  rw [Key.place_inj] at heq
  have hwrap : Word.wrap ((n : Int) + 1) = n + 1 := by
    apply Word.wrap_of_fits
    rw [Word.fits, Bool.and_eq_true, decide_eq_true_eq, decide_eq_true_eq, Word.least,
      Word.greatest]
    omega
  rw [Clock.count_successor, h.count_prior hd hb, hwrap]

theorem Tells.nonneg_successor (hd : g.Dense) (hb : .place t n ∈ g.order)
    (h : g.Tells (.prior t n) c) : (c.successor t).Nonneg := by
  intro u
  rw [h.count_successor_prior hd hb]
  have := h.nonneg u
  split <;> omega

/-- **The clock of an event from those of its predecessors**: one more for its own task, and all
that they tell. -/
theorem tells_of_preds (hd : g.Dense) {f : Key → Clock} (hb : .place t n ∈ g.order)
    (hclk : ∀ a, g.Earlier a (.place t n) → g.Tells a (f a)) (hc : c.Nonneg)
    (hcount : ∀ u i : Nat, (i : Int) < c.count u ↔
      (i : Int) < ((f (.prior t n)).successor t).count u ∨
      ∃ a, g.Earlier a (.place t n) ∧ (i : Int) < (f a).count u) :
    g.Tells (.place t n) c := by
  have hprior := hclk _ (hd.earlier_prior hb)
  refine ⟨hc, fun u i => ?_⟩
  have hsucc : (i : Int) < ((f (.prior t n)).successor t).count u ↔
      (u = t ∧ i = n) ∨ (i : Int) < (f (.prior t n)).count u := by
    rw [hprior.count_successor_prior hd hb]
    by_cases hu : u = t
    · subst hu
      rw [if_pos rfl, hprior.count_prior hd hb]
      simp
      omega
    · rw [if_neg hu]
      simp [hu]
  rw [hcount, hsucc, Key.place_inj, past_iff]
  constructor
  · rintro ((hself | hi) | ⟨a, ha, hi⟩)
    · exact Or.inl hself
    · exact Or.inr ⟨_, hd.earlier_prior hb, (hprior.count u i).mp hi⟩
    · exact Or.inr ⟨a, ha, ((hclk a ha).count u i).mp hi⟩
  · rintro (hself | ⟨a, ha, hp⟩)
    · exact Or.inl (Or.inl hself)
    · exact Or.inr ⟨a, ha, ((hclk a ha).count u i).mpr hp⟩

/-- Clocks that tell the past put nothing else before an event but the first one. -/
theorem Timed.past_of_happensBefore (ht : g.Timed) {t i : Nat} (ha : .place t i ∈ g.order)
    (hb : b ∈ g.order) (h : g.happensBefore (.place t i) b = true) : g.Past (.place t i) b := by
  unfold happensBefore at h
  split at h
  · rename_i m n hm hn
    have hma : g.clockOf (.place t i) = m.clock := by rw [clockOf, hm]; rfl
    have hnb : g.clockOf b = n.clock := by rw [clockOf, hn]; rfl
    obtain ⟨hle, u, hne⟩ := Clock.before_iff.mp h
    have hi := ((ht _ ha).count t i).mpr (Or.inl rfl)
    rw [hma] at hi
    have hlt := Int.lt_of_lt_of_le hi (hle t)
    rw [← hnb, (ht b hb).count] at hlt
    refine hlt.resolve_left ?_
    rintro rfl
    rw [← hma, ← hnb] at hne
    exact hne rfl
  · cases h

/-- Clocks that tell the past put all of it before an event, unless time runs in a cycle there. -/
theorem Timed.happensBefore_of_past (ht : g.Timed) (hhas : ∀ k ∈ g.order, g.Has k)
    (ha : a ∈ g.order) (hb : .place u n ∈ g.order) (hnot : ¬g.Past (.place u n) (.place u n))
    (hp : g.Past a (.place u n)) :
    g.happensBefore a (.place u n) = true := by
  obtain ⟨ma, hma⟩ := (hhas a ha).exists
  obtain ⟨mb, hmb⟩ := (hhas _ hb).exists
  have hta := ht a ha
  have htb := ht _ hb
  have hbefore : g.happensBefore a (.place u n) =
      (g.clockOf a).before (g.clockOf (.place u n)) := by
    simp [happensBefore, clockOf, Node.happensBefore, hma, hmb]
  rw [hbefore, Clock.before_iff]
  have hknown : ∀ t i : Nat, (i : Int) < (g.clockOf a).count t →
      (i : Int) < (g.clockOf (.place u n)).count t := by
    intro t i hi
    rw [htb.count]
    rcases (hta.count t i).mp hi with rfl | hi
    · exact Or.inr hp
    · exact Or.inr (hi.trans hp)
  refine ⟨fun t => ?_, u, fun heq => ?_⟩
  · have hnonneg := htb.nonneg t
    have := hknown t ((g.clockOf (.place u n)).count t).toNat
    omega
  · have hi := (htb.count u n).mpr (Or.inl rfl)
    rw [← heq] at hi
    rcases (hta.count u n).mp hi with heq | hp'
    · rw [heq] at hnot
      exact hnot (heq ▸ hp)
    · exact hnot (hp'.trans hp)

/-- **Comparing clocks decides what happens before.** -/
theorem happensBefore_iff (hd : g.Dense) (ht : g.Timed) (hhas : ∀ k ∈ g.order, g.Has k)
    (ha : a ∈ g.order) (hb : b ∈ g.order) : g.happensBefore a b = true ↔ g.Past a b := by
  constructor
  · intro h
    rcases hd.key ha with rfl | ⟨u, i, rfl, -⟩
    · refine hd.past_init hb ?_
      rintro rfl
      unfold happensBefore at h
      split at h
      · rename_i m n hm hn
        cases hm.symm.trans hn
        obtain ⟨-, t, hne⟩ := Clock.before_iff.mp h
        exact hne rfl
      · cases h
    · exact ht.past_of_happensBefore ha hb h
  · intro hp
    rcases hd.key hb with rfl | ⟨u, i, rfl, -⟩
    · exact absurd hp hd.not_past_init
    · exact ht.happensBefore_of_past hhas ha hb (hd.acyclic _) hp

/-! ### Other clocks on the same graph -/

/-- Two graphs are the same apart from their clocks. -/
structure Reclocked (g g' : Graph) : Prop where
  nodes : g'.nodes.map (fun n => { n with clock := Clock.empty }) =
    g.nodes.map fun n => { n with clock := Clock.empty }
  tasks : g'.tasks = g.tasks
  order : g'.order = g.order
  chains : g'.chains = g.chains
  waiting : g'.waiting = g.waiting

namespace Reclocked

variable {g' g'' : Graph}

theorem refl (g : Graph) : Reclocked g g := ⟨rfl, rfl, rfl, rfl, rfl⟩

theorem trans (h : Reclocked g g') (h' : Reclocked g' g'') : Reclocked g g'' :=
  ⟨h'.nodes.trans h.nodes, h'.tasks.trans h.tasks, h'.order.trans h.order, h'.chains.trans h.chains,
    h'.waiting.trans h.waiting⟩

/-- Setting a clock changes nothing but the clock. -/
theorem setClock (g : Graph) (k : Key) (c : Clock) :
    Reclocked g (g.modifyNode k fun n => { n with clock := c }) := by
  refine ⟨?_, rfl, rfl, rfl, rfl⟩
  unfold modifyNode
  dsimp only
  rw [List.map_map]
  refine List.map_congr_left fun n _ => ?_
  dsimp only [Function.comp_apply]
  split <;> rfl

theorem find? (h : Reclocked g g') (k : Key) :
    (g'.find? k).map (fun n => { n with clock := Clock.empty }) =
      (g.find? k).map fun n => { n with clock := Clock.empty } := by
  have hcomp : (fun n : Node => n.key == k) ∘ (fun n : Node => { n with clock := Clock.empty }) =
      fun n : Node => n.key == k := rfl
  unfold Graph.find?
  rw [← hcomp, ← List.find?_map, ← List.find?_map, h.nodes]

theorem exists_find? (h : Reclocked g g') {n : Node} (hn : g.find? k = some n) :
    ∃ c, g'.find? k = some { n with clock := c } := by
  have heq := h.find? k
  rw [hn] at heq
  obtain ⟨m, hm, hmn⟩ := Option.map_eq_some_iff.mp heq
  refine ⟨m.clock, ?_⟩
  rw [hm]
  congr 1
  cases m
  cases n
  cases hmn
  rfl

theorem symm (h : Reclocked g g') : Reclocked g' g :=
  ⟨h.nodes.symm, h.tasks.symm, h.order.symm, h.chains.symm, h.waiting.symm⟩

/-- New clocks leave incoming edges alone. -/
theorem in_iff (h : Reclocked g g') {r : Relation} : g'.In r a b ↔ g.In r a b := by
  constructor
  · rintro ⟨n, hn, hmem⟩
    obtain ⟨c, hc⟩ := h.symm.exists_find? hn
    exact ⟨_, hc, hmem⟩
  · rintro ⟨n, hn, hmem⟩
    obtain ⟨c, hc⟩ := h.exists_find? hn
    exact ⟨_, hc, hmem⟩

theorem out_iff (h : Reclocked g g') {r : Relation} : g'.Out r a b ↔ g.Out r a b := by
  constructor
  · rintro ⟨n, hn, hmem⟩
    obtain ⟨c, hc⟩ := h.symm.exists_find? hn
    exact ⟨_, hc, hmem⟩
  · rintro ⟨n, hn, hmem⟩
    obtain ⟨c, hc⟩ := h.exists_find? hn
    exact ⟨_, hc, hmem⟩

theorem event? (h : Reclocked g g') : g'.event? k = g.event? k := by
  have heq := congrArg (Option.map (·.event)) (h.find? k)
  rw [Option.map_map, Option.map_map] at heq
  exact heq

theorem has_iff (h : Reclocked g g') : g'.Has k ↔ g.Has k := by
  rw [has_iff_event?, h.event?, ← has_iff_event?]

/-- New clocks leave causes alone. -/
theorem earlier_iff (h : Reclocked g g') : g'.Earlier a b ↔ g.Earlier a b := by
  unfold Earlier
  simp only [h.in_iff]

theorem earlier_eq (h : Reclocked g g') : g'.Earlier = g.Earlier := by
  funext a b
  exact propext h.earlier_iff

/-- Whether a clock tells the past does not depend on the clocks of a graph. -/
theorem tells_iff (h : Reclocked g g') : g'.Tells k c ↔ g.Tells k c := by
  have hpast : ∀ a b, g'.Past a b ↔ g.Past a b := by
    intro a b
    unfold Past
    rw [h.earlier_eq]
  constructor
  · exact fun ht => ⟨ht.nonneg, fun t i => by rw [ht.count, hpast]⟩
  · exact fun ht => ⟨ht.nonneg, fun t i => by rw [ht.count, hpast]⟩

theorem tidy (h : Reclocked g g') (hg : g.Tidy) : g'.Tidy where
  keys := by
    have hkeys := congrArg (List.map (·.key)) h.nodes
    rw [List.map_map, List.map_map] at hkeys
    exact hkeys ▸ hg.keys
  known := by
    intro r a b
    rw [h.out_iff, h.in_iff]
    exact hg.known
  pred := by
    intro k n hn
    obtain ⟨c, hc⟩ := h.symm.exists_find? hn
    have hpred := hg.pred hc
    exact hpred
  succ := by
    intro k n hn
    obtain ⟨c, hc⟩ := h.symm.exists_find? hn
    have hsucc := hg.succ hc
    exact hsucc

end Reclocked

theorem clockOf_setClock (hk : g.Has k) :
    (g.modifyNode k fun n => { n with clock := c }).clockOf b =
      if b = k then c else g.clockOf b := by
  unfold clockOf
  rw [find?_modifyNode (by exact fun _ => rfl)]
  by_cases hb : b = k
  · subst hb
    obtain ⟨n, hn⟩ := hk.exists
    simp [hn]
  · simp [hb]

/-! ### Computing clocks anew -/

/-- Merging the clocks of predecessors collects what they tell. -/
theorem mergePredecessors_spec {clocks : Clocks} {clk : Key → Clock} {es : Edges}
    (hclk : ∀ e ∈ es, e.1.ordersTime = true → clocks.lookup e.2 = some (clk e.2)) (hc : c.Nonneg) :
    ∃ c', mergePredecessors clocks c es = .ok c' ∧ c'.Nonneg ∧ ∀ u i : Nat,
      (i : Int) < c'.count u ↔ (i : Int) < c.count u ∨
        ∃ e ∈ es, e.1.ordersTime = true ∧ (i : Int) < (clk e.2).count u := by
  induction es generalizing c with
  | nil => exact ⟨c, rfl, hc, by simp⟩
  | cons e es ih =>
    obtain ⟨r, k⟩ := e
    have hmore : ∀ e ∈ es, e.1.ordersTime = true → clocks.lookup e.2 = some (clk e.2) :=
      fun e he => hclk e (List.mem_cons_of_mem _ he)
    rw [mergePredecessors]
    by_cases hr : r.ordersTime = true
    · have hk : clocks.lookup k = some (clk k) := hclk (r, k) List.mem_cons_self hr
      obtain ⟨c', heq, hnonneg, hcount⟩ := ih hmore (hc.merge (clk k))
      refine ⟨c', by rw [if_pos hr, hk]; exact heq, hnonneg, fun u i => ?_⟩
      rw [hcount, Clock.count_merge hc]
      simp only [List.mem_cons, exists_eq_or_imp, hr, true_and]
      rw [← or_assoc]
      refine or_congr_left ?_
      omega
    · obtain ⟨c', heq, hnonneg, hcount⟩ := ih hmore hc
      refine ⟨c', by rw [if_neg hr]; exact heq, hnonneg, fun u i => ?_⟩
      rw [hcount]
      simp [hr]

/-- Where the computation of clocks stands: the graph has other clocks, and those of the nodes done
tell their past. -/
structure Recomputes (g g' : Graph) (done : List Node) (clocks : Clocks) : Prop where
  reclocked : Reclocked g g'
  clock : ∀ n ∈ done, n.key ∈ g.order →
    clocks.lookup n.key = some (g'.clockOf n.key) ∧ g.Tells n.key (g'.clockOf n.key)
  fresh : ∀ e ∈ clocks, e.1 ∈ done.map (·.key)

theorem Dense.isInit_iff (hd : g.Dense) (hk : k ∈ g.order) : k.isInit = true ↔ k = .init := by
  rcases hd.key hk with rfl | ⟨t, i, rfl, -⟩
  · exact iff_of_true rfl rfl
  · exact iff_of_false (by simp) (Key.place_ne_init t i)

/-- The clock of a node whose predecessors are done. -/
theorem Recomputes.clockFrom (hf : g.Formed) (hd : g.Dense) {g' : Graph}
    {done more : List Node} {m : Node} {clocks : Clocks} (hv : Visited g (done ++ m :: more))
    (h : Recomputes g g' done clocks)
    (hm : m.key ∈ g.order) : ∃ c, Graph.clockFrom clocks m = .ok (some c) ∧ g.Tells m.key c := by
  have hmem : m ∈ done ++ m :: more := List.mem_append_right _ List.mem_cons_self
  have hfind := hv.table m hmem
  have hclock : ∀ {r a}, r.ordersTime = true → g.In r a m.key →
      clocks.lookup a = some (g'.clockOf a) ∧ g.Tells a (g'.clockOf a) := by
    intro r a hr ha
    obtain ⟨n, hn, rfl⟩ := List.mem_map.mp (hv.mem_done ha)
    exact h.clock n hn (hd.source_mem hm ⟨r, hr, ha⟩)
  unfold Graph.clockFrom
  rcases hd.key hm with hinit | ⟨t, i, hkey, -⟩
  · rw [if_pos ((hd.isInit_iff hm).mpr hinit), hinit]
    exact ⟨.empty, rfl, tells_init hd⟩
  · have hkind : m.kind.isBlocking = false := by
      have hevent := (hf.isEvent_iff hfind).mpr hm
      simpa [isEvent] using hevent
    have hprior : g.In .programOrder (.prior t i) m.key := by
      rw [hkey]
      exact (hd.programOrder (hkey ▸ hm)).mpr rfl
    have hpo : ∀ a ∈ m.predecessors .programOrder, a = .prior t i := by
      intro a ha
      have ha := (mem_predecessors hfind).mp ha
      rw [hkey] at ha
      exact (hd.programOrder (hkey ▸ hm)).mp ha
    -- the clock starts from the one event before it in its task
    obtain ⟨rest, hrest⟩ : ∃ rest, m.predecessors .programOrder = .prior t i :: rest := by
      have hne := (mem_predecessors hfind).mpr hprior
      cases hlist : m.predecessors .programOrder with
      | nil =>
        rw [hlist] at hne
        exact absurd hne List.not_mem_nil
      | cons a rest =>
        rw [hpo a (by rw [hlist]; exact List.mem_cons_self)]
        exact ⟨rest, rfl⟩
    have htask : m.key.task.toNat = t := by
      rw [hkey]
      rfl
    obtain ⟨hlookup, htells⟩ := hclock rfl hprior
    have hplace : Key.place t i ∈ g.order := hkey ▸ hm
    have hpreds : ∀ e ∈ m.pred, e.1.ordersTime = true → clocks.lookup e.2 = some (g'.clockOf e.2) :=
      fun e he hr => (hclock hr ((Graph.in_iff hfind).mpr he)).1
    obtain ⟨c, hmerge, hnonneg, hcount⟩ :=
      mergePredecessors_spec hpreds (htells.nonneg_successor hd hplace)
    rw [if_neg (by rw [hkey]; simp), if_neg (by simp [hkind]), hrest]
    dsimp only
    rw [hlookup, htask]
    dsimp only
    rw [hmerge]
    refine ⟨c, rfl, ?_⟩
    rw [hkey]
    refine tells_of_preds hd (f := g'.clockOf) hplace ?_ hnonneg fun u i' => ?_
    · rintro a ⟨r, hr, ha⟩
      exact (hclock hr (by rw [hkey]; exact ha)).2
    · rw [hcount]
      refine or_congr_right ?_
      constructor
      · rintro ⟨e, he, hr, hlt⟩
        exact ⟨e.2, ⟨e.1, hr, by rw [← hkey]; exact (Graph.in_iff hfind).mpr he⟩, hlt⟩
      · rintro ⟨a, ⟨r, hr, ha⟩, hlt⟩
        rw [← hkey] at ha
        exact ⟨(r, a), (Graph.in_iff hfind).mp ha, hr, hlt⟩

/-- The clocks of all nodes that are left follow one by one. -/
theorem Recomputes.run (hf : g.Formed) (hd : g.Dense) {g' : Graph} {done more : List Node}
    {clocks : Clocks} (hv : Visited g (done ++ more)) (h : Recomputes g g' done clocks) :
    ∃ g'' clocks', recomputeFrom clocks more g' = .ok () g'' ∧
      Recomputes g g'' (done ++ more) clocks' := by
  induction more generalizing done clocks g' with
  | nil => exact ⟨g', clocks, rfl, by rw [List.append_nil]; exact h⟩
  | cons m more ih =>
    have hmem : m ∈ done ++ m :: more := List.mem_append_right _ List.mem_cons_self
    have hfind := hv.table m hmem
    have hlist : done ++ m :: more = done ++ [m] ++ more := by simp
    have hnew : m.key ∉ done.map (·.key) := by
      have hnodup := hv.nodup
      rw [List.map_append, List.map_cons] at hnodup
      exact fun hin => (List.nodup_append.mp hnodup).2.2 _ hin _ List.mem_cons_self rfl
    by_cases hm : m.key ∈ g.order
    · obtain ⟨c, hc, htells⟩ := h.clockFrom hf hd hv hm
      have hclock : ∀ b, (g'.modifyNode m.key fun n => { n with clock := c }).clockOf b =
          if b = m.key then c else g'.clockOf b :=
        fun b => clockOf_setClock (h.reclocked.has_iff.mpr (has_of_find? hfind))
      -- no node is visited twice, so this one has no entry yet
      have hnone : clocks.lookup m.key = none := by
        rw [List.lookup_eq_none_iff]
        intro e he
        rw [bne_iff_ne]
        rintro heq
        exact hnew (heq ▸ h.fresh e he)
      have hnext : Recomputes g (g'.modifyNode m.key fun n => { n with clock := c }) (done ++ [m])
          (clocks ++ [(m.key, c)]) := by
        refine ⟨h.reclocked.trans (.setClock _ _ _), fun n hn hk => ?_, fun e he => ?_⟩
        · rw [hclock, List.lookup_append]
          rcases List.mem_append.mp hn with hn | hn
          · have hne : n.key ≠ m.key := fun heq => hnew (heq ▸ List.mem_map_of_mem hn)
            obtain ⟨hlookup, ht⟩ := h.clock n hn hk
            rw [if_neg hne, hlookup]
            exact ⟨rfl, ht⟩
          · rw [List.mem_singleton.mp hn, if_pos rfl, hnone]
            exact ⟨by simp, htells⟩
        · rw [List.map_append, List.mem_append]
          rcases List.mem_append.mp he with he | he
          · exact Or.inl (h.fresh e he)
          · rw [List.mem_singleton.mp he]
            exact Or.inr (by simp)
      obtain ⟨g'', clocks', hrun, hend⟩ :=
        ih (show Visited g (done ++ [m] ++ more) from hlist ▸ hv) hnext
      refine ⟨g'', clocks', ?_, hlist ▸ hend⟩
      rw [recomputeFrom, hc]
      exact hrun
    -- a label gets no clock
    · have hblock : m.kind.isBlocking = true := by
        have hevent := (hf.isEvent_iff hfind).not.mpr hm
        simpa [isEvent] using hevent
      have hinit : m.key.isInit = false := by
        have hlast := ((hf.has_iff.mp (has_of_find? hfind)).resolve_left hm).2
        refine decide_eq_false fun hneg => hm ?_
        have hnil : g.taskKeys m.key.task = [] := if_neg (by omega)
        rw [← hlast, lastOf, hnil]
        exact hf.init_mem
      have hc : Graph.clockFrom clocks m = .ok none := by
        unfold Graph.clockFrom
        rw [if_neg (by simp [hinit]), if_pos hblock]
      have hnext : Recomputes g g' (done ++ [m]) clocks := by
        refine ⟨h.reclocked, fun n hn hk => ?_, fun e he => ?_⟩
        · rcases List.mem_append.mp hn with hn | hn
          · exact h.clock n hn hk
          · rw [List.mem_singleton.mp hn] at hk
            exact absurd hk hm
        · rw [List.map_append, List.mem_append]
          exact Or.inl (h.fresh e he)
      obtain ⟨g'', clocks', hrun, hend⟩ :=
        ih (show Visited g (done ++ [m] ++ more) from hlist ▸ hv) hnext
      refine ⟨g'', clocks', ?_, hlist ▸ hend⟩
      rw [recomputeFrom, hc]
      exact hrun

/-- Computing clocks anew after a walk that has visited all events makes them tell the past. -/
theorem recomputeClocks_of_visit (hf : g.Formed) (hd : g.Dense) {W : List Node} (hv : Visited g W)
    (hvisit : g.visit = (W, none)) (hall : ∀ k ∈ g.order, k ∈ W.map (·.key)) :
    ∃ g', recomputeClocks g = .ok () g' ∧ Reclocked g g' ∧ g'.Timed := by
  have hstart : Recomputes g g [] [] := ⟨.refl g, by simp, by simp⟩
  obtain ⟨g', clocks, hrun, hend⟩ := hstart.run hf hd (show Visited g ([] ++ W) from hv)
  refine ⟨g', ?_, hend.reclocked, fun k hk => ?_⟩
  · simp only [recomputeClocks, bind, EStateM.bind, get, getThe, MonadStateOf.get, EStateM.get,
      hvisit, hrun]
    rfl
  · rw [hend.reclocked.order] at hk
    rw [hend.reclocked.tells_iff]
    obtain ⟨n, hn, rfl⟩ := List.mem_map.mp (hall k hk)
    exact (hend.clock n hn hk).2

/-- **Computing clocks anew makes them tell the past**, unless the edges run in a cycle. -/
theorem recomputeClocks_spec (hf : g.Formed) (hd : g.Dense) (hm : g.Mirrored) {rank : Key → Nat}
    (hrank : g.Ranked rank) : ∃ g', recomputeClocks g = .ok () g' ∧ Reclocked g g' ∧ g'.Timed := by
  obtain ⟨W, hv, hvisit, hall⟩ := hf.visit_of_ranked hm hrank
  exact recomputeClocks_of_visit hf hd hv hvisit fun k hk => hall k (hf.has_iff.mpr (Or.inl hk))

/-- A walk that has visited all events shows that time does not run in a cycle. -/
theorem Visited.dense (hf : g.Formed) {W : List Node} (hv : Visited g W)
    (hall : ∀ k ∈ g.order, k ∈ W.map (·.key))
    (hkey : ∀ {k}, k ∈ g.order → k = .init ∨ ∃ t i : Nat, k = .place t i ∧ i + 1 < 2 ^ 63)
    (hpo : ∀ {t i : Nat} {a}, .place t i ∈ g.order →
      (g.In .programOrder a (.place t i) ↔ a = .prior t i)) :
    g.Dense := by
  have hmem : ∀ {a b c : Key}, g.Earlier a b → g.Earlier b c → b ∈ g.order := by
    rintro a b c ⟨r, -, hab⟩ ⟨r', -, hbc⟩
    exact (hf.has_iff.mp (has_of_in hab)).resolve_right fun hlabel => hf.label_succ hlabel.1 hbc
  have hlt : ∀ {a b : Key}, b ∈ g.order → g.Earlier a b →
      (W.map (·.key)).idxOf a < (W.map (·.key)).idxOf b := by
    rintro a b hb ⟨r, -, hab⟩
    exact (hv.forward (hall b hb) hab).1.2
  refine ⟨hkey, ?_, hpo, ?_, ?_⟩
  · rintro a b hb ⟨r, -, hab⟩
    refine (hf.has_iff.mp (has_of_out (hv.forward (hall b hb) hab).2)).resolve_right
      fun hlabel => ?_
    exact hf.label_succ hlabel.1 hab
  · rintro a ⟨r, -, hab⟩
    exact hf.no_cause hab
  · intro a ha
    -- an event on a cycle has an edge into it and one out of it, so it is no label
    have hpath : ∀ {b c}, g.Past a b → g.Earlier b c →
        (W.map (·.key)).idxOf a < (W.map (·.key)).idxOf b := by
      intro b c hp
      induction hp generalizing c with
      | single hab => exact fun hbc => hlt (hmem hab hbc) hab
      | tail _ hbc ih => exact fun hcd => (ih hbc).trans (hlt (hmem hbc hcd) hbc)
    obtain ⟨d, had, -⟩ := Relation.TransGen.head'_iff.mp ha
    exact Nat.lt_irrefl _ (hpath ha had)

/-- Clocks can be computed anew only if all events were visited. -/
theorem visit_of_recomputeClocks {g' : Graph} (h : recomputeClocks g = .ok () g') :
    ∃ W, g.visit = (W, none) := by
  rcases hvisit : g.visit with ⟨W, failure⟩
  cases failure with
  | none => exact ⟨W, rfl⟩
  | some e =>
    simp only [recomputeClocks, bind, EStateM.bind, get, getThe, MonadStateOf.get, EStateM.get,
      hvisit] at h
    split at h
    · cases h
    · cases h

/-- **Clocks that could be computed anew tell the past.** -/
theorem timed_of_recomputeClocks {g' : Graph} (hf : g.Formed)
    (hkey : ∀ {k}, k ∈ g.order → k = .init ∨ ∃ t i : Nat, k = .place t i ∧ i + 1 < 2 ^ 63)
    (hpo : ∀ {t i : Nat} {a}, .place t i ∈ g.order →
      (g.In .programOrder a (.place t i) ↔ a = .prior t i))
    (h : recomputeClocks g = .ok () g') :
    Reclocked g g' ∧ g'.Timed ∧ g.Dense ∧ ∀ {r a b}, b ∈ g.order → g.In r a b → g.Out r a b := by
  obtain ⟨W, hvisit⟩ := visit_of_recomputeClocks h
  obtain ⟨hv, hall⟩ := hf.visited_of_visit hvisit
  have hd := hv.dense hf hall hkey hpo
  obtain ⟨g'', hrun, hreclocked, htimed⟩ := recomputeClocks_of_visit hf hd hv hvisit hall
  rw [h] at hrun
  cases hrun
  exact ⟨hreclocked, htimed, hd, fun hb hab => (hv.forward (hall _ hb) hab).2⟩

/-! ### Adding an edge -/

/-- An edge to an event that nothing comes after changes the past of that event only. -/
theorem past_link (hb : g.Has b) (hlast : ∀ d, ¬g.Earlier b d) {r : Relation}
    (hr : r.ordersTime = true) (hne : a ≠ b) {x y : Key} :
    (g.link a b r).Past x y ↔ g.Past x y ∨ y = b ∧ (x = a ∨ g.Past x a) := by
  have hedge : ∀ {x y}, (g.link a b r).Earlier x y ↔ g.Earlier x y ∨ x = a ∧ y = b := by
    intro x y
    constructor
    · rintro ⟨r', hr', h⟩
      rcases (in_link hb).mp h with h | ⟨-, h⟩
      · exact Or.inl ⟨r', hr', h⟩
      · exact Or.inr h
    · rintro (⟨r', hr', h⟩ | h)
      · exact ⟨r', hr', (in_link hb).mpr (Or.inl h)⟩
      · exact ⟨r, hr, (in_link hb).mpr (Or.inr ⟨rfl, h⟩)⟩
  constructor
  · intro h
    induction h with
    | single h =>
      rcases hedge.mp h with h | ⟨rfl, rfl⟩
      · exact Or.inl (.single h)
      · exact Or.inr ⟨rfl, Or.inl rfl⟩
    | @tail y z _ h ih =>
      rcases hedge.mp h with h' | ⟨rfl, rfl⟩
      · rcases ih with ih | ⟨rfl, -⟩
        · exact Or.inl (.tail ih h')
        · exact absurd h' (hlast z)
      · rcases ih with ih | ⟨heq, -⟩
        · exact Or.inr ⟨rfl, Or.inr ih⟩
        · exact absurd heq hne
  · have hmono : ∀ {x y}, g.Past x y → (g.link a b r).Past x y :=
      fun h => Relation.TransGen.mono (fun _ _ h => hedge.mpr (Or.inl h)) _ _ h
    rintro (h | ⟨rfl, rfl | h⟩)
    · exact hmono h
    · exact .single (hedge.mpr (Or.inr ⟨rfl, rfl⟩))
    · exact .tail (hmono h) (hedge.mpr (Or.inr ⟨rfl, rfl⟩))

/-- **An edge to an event that nothing comes after keeps clocks right.** -/
theorem Timed.link (ht : g.Timed) (ha : a ∈ g.order) (hb : b ∈ g.order) (hhas : g.Has b)
    (hlast : ∀ d, ¬g.Earlier b d) {r : Relation} (hr : r.ordersTime = true) (hne : a ≠ b) :
    (g.link a b r).Timed := by
  intro k hk
  rw [link_order] at hk
  have htk := ht k hk
  rw [clockOf_link hhas]
  by_cases hkb : k = b
  · subst hkb
    rw [if_pos ⟨rfl, hr⟩]
    refine ⟨htk.nonneg.merge _, fun t i => ?_⟩
    rw [Clock.count_merge htk.nonneg, past_link hhas hlast hr hne]
    have h₁ := htk.count t i
    have h₂ := (ht a ha).count t i
    rw [show (i : Int) < max ((g.clockOf k).count t) ((g.clockOf a).count t) ↔
      (i : Int) < (g.clockOf k).count t ∨ (i : Int) < (g.clockOf a).count t by omega, h₁, h₂]
    tauto
  · rw [if_neg fun h => hkb h.1]
    refine ⟨htk.nonneg, fun t i => ?_⟩
    rw [htk.count, past_link hhas hlast hr hne]
    tauto

/-- Edges that do not order time leave the clocks right. -/
theorem Timed.link_coherency (ht : g.Timed) (hb : g.Has b) : (g.link a b .coherency).Timed := by
  have hearlier : (g.link a b .coherency).Earlier = g.Earlier := by
    funext x y
    refine propext ⟨?_, ?_⟩
    · rintro ⟨r, hr, h⟩
      rcases (in_link hb).mp h with h | ⟨rfl, -⟩
      · exact ⟨r, hr, h⟩
      · exact absurd hr (by decide)
    · rintro ⟨r, hr, h⟩
      exact ⟨r, hr, (in_link hb).mpr (Or.inl h)⟩
  intro k hk
  have htk := ht k (by rw [link_order] at hk; exact hk)
  rw [clockOf_link hb, if_neg fun h => absurd h.2 (by decide)]
  refine ⟨htk.nonneg, fun t i => ?_⟩
  rw [htk.count, Past, Past, hearlier]

end Graph

end Interleaving
