import Interleaving.Proofs.Graph.Chains

/-!
# Recording an event keeps a graph sound

An event is recorded at the end of its task and of the total order, with edges from earlier events
to it and from no event after it (`Interleaving.Graph.Adds`). So whatever explained the graph
explains it with the new event behind all others, provided a read sees the last write to its
location (`Interleaving.Graph.Adds.sound`).
-/

namespace Interleaving.Graph

variable {g g' : Graph} {a b k : Key} {r : Relation} {e : Event} {t n : Nat} {loc : Location}
  {l : List Key} {cause : Relation → Key → Prop}

/-- One more event of a task, with edges into it; no chain but that of the life of threads has
changed. -/
structure Adds (g g' : Graph) (e : Event) (t n : Nat) (cause : Relation → Key → Prop) : Prop where
  shaped : g'.Shaped
  order : g'.order = g.order ++ [.place t n]
  event : ∀ k, g'.event? k = if k = .place t n then some e else g.event? k
  edges : ∀ r a b, (g'.In r a b ↔ g.In r a b ∨ b = .place t n ∧ cause r a) ∧
    (g'.Out r a b ↔ g.Out r a b ∨ b = .place t n ∧ cause r a)
  locations : (g.chains.map (·.1)).Nodup → (g'.chains.map (·.1)).Nodup
  chains : ∀ {c}, c.1 ≠ .thread → (c ∈ g'.chains ↔ c ∈ g.chains)
  chain : ∀ {loc}, loc ≠ .thread → g'.chain loc = g.chain loc
  /-- No location loses its chain. -/
  chained : ∀ {loc}, (g.chain? loc).isSome = true → (g'.chain? loc).isSome = true
  clock : ∀ k ∈ g.order, g'.clockOf k = g.clockOf k

/-- The edges into a new event are those of an execution: from the event before it in its task, to a
read from the last write to its location, and from other events, but for coherency. -/
structure Caused (g : Graph) (e : Event) (t n : Nat) (cause : Relation → Key → Prop) : Prop where
  fills : g.Fills t n
  absent : ¬g.Has (.place t n)
  kind : e.kind ≠ .block
  mem : ∀ {r a}, cause r a → a ∈ g.order
  programOrder : ∀ {a}, cause .programOrder a ↔ a = .prior t n
  coherency : ∀ {a}, ¬cause .coherency a
  fromRead : ∀ {a}, ¬cause .fromRead a
  readsFrom : ∀ {a}, cause .readsFrom a ↔ e.kind.isRead = true ∧ a = g.lastWrite e.location
  read : e.kind.isRead = true → e.location ≠ .thread ∧ g.chain e.location ≠ []

namespace Adds

variable (ha : Adds g g' e t n cause)
include ha

theorem does_iff (habsent : ¬g.Has (.place t n)) {p : Kind → Bool} :
    (∃ e', g'.event? k = some e' ∧ p e'.kind = true ∧ e'.location = loc) ↔
      (∃ e', g.event? k = some e' ∧ p e'.kind = true ∧ e'.location = loc) ∨
        k = .place t n ∧ p e.kind = true ∧ e.location = loc := by
  rw [ha.event]
  by_cases hk : k = .place t n
  · subst hk
    rw [if_pos rfl]
    constructor
    · rintro ⟨e', he', hdoes⟩
      cases he'
      exact Or.inr ⟨rfl, hdoes⟩
    · rintro (⟨e', he', -⟩ | ⟨-, hdoes⟩)
      · exact absurd (has_iff_event?.mpr (by rw [he']; rfl)) habsent
      · exact ⟨e, rfl, hdoes⟩
  · rw [if_neg hk]
    exact (or_iff_left fun heq => hk heq.1).symm

theorem writesTo_iff (habsent : ¬g.Has (.place t n)) :
    g'.WritesTo k loc ↔ g.WritesTo k loc ∨ k = .place t n ∧ e.kind.isWrite = true ∧
    e.location = loc :=
  ha.does_iff habsent

theorem readsAt_iff (habsent : ¬g.Has (.place t n)) :
    g'.ReadsAt k loc ↔ g.ReadsAt k loc ∨ k = .place t n ∧ e.kind.isRead = true ∧ e.location = loc :=
  ha.does_iff habsent

theorem locksAt_iff (habsent : ¬g.Has (.place t n)) :
    g'.LocksAt k loc ↔ g.LocksAt k loc ∨ k = .place t n ∧ e.kind.isExclusiveRead = true ∧
    e.location = loc :=
  ha.does_iff habsent

theorem isLabel_iff (hc : Caused g e t n cause) : g'.isLabel k = true ↔ g.isLabel k = true := by
  rw [isLabel_iff_event?, isLabel_iff_event?, ha.event]
  by_cases hk : k = .place t n
  · subst hk
    rw [if_pos rfl]
    constructor
    · rintro ⟨e', he', hblock⟩
      cases he'
      exact absurd hblock hc.kind
    · rintro ⟨e', he', -⟩
      exact absurd (has_iff_event?.mpr (by rw [he']; rfl)) hc.absent
  · rw [if_neg hk]

/-- **A new event keeps a graph wired.** -/
theorem wired (h : g.Wired) (hc : Caused g e t n cause) : g'.Wired where
  toShaped := ha.shaped
  mirrored := by
    intro r a b hin
    exact (ha.edges r a b).2.mpr (((ha.edges r a b).1.mp hin).imp_left (h.mirrored r a b))
  initial := by
    intro e' he'
    rw [ha.event, if_neg (Key.init_ne_place t n)] at he'
    exact h.initial he'
  linked := by
    intro u i hhas
    rw [(ha.edges ..).1]
    by_cases heq : Key.place u i = .place t n
    · obtain ⟨rfl, rfl⟩ := Key.place_inj.mp heq
      exact Or.inr ⟨rfl, hc.programOrder.mpr rfl⟩
    · rw [has_iff_event?, ha.event, if_neg heq, ← has_iff_event?] at hhas
      exact Or.inl (h.linked hhas)
  label_end := by
    intro r a b hlabel hin
    rw [ha.isLabel_iff hc] at hlabel
    rcases (ha.edges r a b).1.mp hin with hin | ⟨-, hcause⟩
    · exact h.label_end hlabel hin
    -- the new edges start at events
    · rw [h.isLabel_of_mem (hc.mem hcause)] at hlabel
      cases hlabel
  no_fromRead := by
    intro a b hin
    rcases (ha.edges ..).1.mp hin with hin | ⟨-, hcause⟩
    · exact h.no_fromRead hin
    · exact hc.fromRead hcause
  locations := ha.locations h.locations
  chain_eq := by
    intro c hmem hthread
    obtain ⟨ws, heq, hnodup, hws⟩ := h.chain_eq ((ha.chains hthread).mp hmem) hthread
    exact ⟨ws, heq, hnodup, fun w hw => (ha.writesTo_iff hc.absent).mpr (Or.inl (hws w hw))⟩
  coherency := by
    intro a b
    rw [(ha.edges ..).1, h.coherency, or_iff_left fun hcause => hc.coherency hcause.2]
    exact exists_congr fun loc => and_congr_right fun hloc => by rw [ha.chain hloc]
  source := by
    intro k loc hread
    rcases (ha.readsAt_iff hc.absent).mp hread with hread | ⟨rfl, hkind, rfl⟩
    · obtain ⟨hloc, w, hw, hsource⟩ := h.source hread
      refine ⟨hloc, w, by rw [ha.chain hloc]; exact hw, fun a => ?_⟩
      have hne := hc.fills.ne_of_mem (h.mem_of_readsAt hread)
      rw [(ha.edges ..).1, hsource, or_iff_left fun hcause => hne hcause.1]
    -- a new read sees the last write
    · obtain ⟨hloc, hchain⟩ := hc.read hkind
      refine ⟨hloc, g.lastWrite e.location, by rw [ha.chain hloc]; exact lastWrite_mem hchain,
        fun a => ?_⟩
      have hnot : ¬g.In .readsFrom a (.place t n) := fun hin => hc.absent (has_of_in hin)
      rw [(ha.edges ..).1, or_iff_right hnot, hc.readsFrom]
      simp [hkind]
  reads := by
    intro a b hin
    rcases (ha.edges ..).1.mp hin with hin | ⟨rfl, hcause⟩
    · obtain ⟨loc, hread⟩ := h.reads hin
      exact ⟨loc, (ha.readsAt_iff hc.absent).mpr (Or.inl hread)⟩
    · exact ⟨e.location,
        (ha.readsAt_iff hc.absent).mpr (Or.inr ⟨rfl, (hc.readsFrom.mp hcause).1, rfl⟩)⟩

/-- An order in which all edges go forward, with the new event behind all others. -/
theorem linear (hl : g.Linear l) (hn : g.Fills t n) (habsent : ¬g.Has (.place t n))
    (hmem : ∀ {r a}, cause r a → a ∈ g.order) : g'.Linear (l ++ [.place t n]) where
  perm := by
    rw [ha.order]
    exact hl.perm.append_right _
  edge := by
    intro r a b hb hin
    rcases (ha.edges ..).1.mp hin with hin | ⟨rfl, hcause⟩
    · rw [ha.order, List.mem_append, List.mem_singleton] at hb
      have hb := hb.resolve_right fun heq => habsent (heq ▸ has_of_in hin)
      exact (before_append_of_mem (hl.perm.mem_iff.mpr hb)).mpr (hl.edge hb hin)
    · refine before_append.mpr
        (Or.inr ⟨fun hb => ?_, Or.inl ⟨hl.perm.mem_iff.mpr (hmem hcause), by simp⟩⟩)
      exact hn.ne_of_mem (hl.perm.mem_iff.mp hb) rfl

/-- **What explained a graph explains it with one more event**: a read sees the last write to its
location. -/
theorem explains (h : g.Wired) (hl : g.Explains l) (hc : Caused g e t n cause)
    (hwritten : e.kind.isRead = true → ∀ {k}, g.WritesTo k e.location → k ∈ g.chain e.location)
    (hpending : ∀ {r v loc}, g.LocksAt r loc → g.WritesTo v loc → r.next = .place t n →
      ¬Before l r v) :
    g'.Explains (l ++ [.place t n]) := by
  have hlinear := ha.linear (hl.linear h) hc.fills hc.absent hc.mem
  have hold : ∀ {a k}, k ∈ g.order → (Before (l ++ [.place t n]) a k ↔ Before l a k) := fun hk =>
    before_append_of_mem (hl.perm.mem_iff.mpr hk)
  -- nothing comes after the new event
  have hlast : ∀ {k}, ¬Before (l ++ [.place t n]) (.place t n) k := by
    intro k hk
    rcases before_append.mp hk with hk | ⟨-, ⟨hin, -⟩ | ⟨-, hk⟩⟩
    · exact hc.fills.ne_of_mem (hl.perm.mem_iff.mp hk.left_mem) rfl
    · exact hc.fills.ne_of_mem (hl.perm.mem_iff.mp hin) rfl
    · have heq := List.mem_singleton.mp hk.right_mem
      exact Before.irrefl _ _ (heq ▸ hk)
  refine ⟨hlinear.perm, fun _ hb hin => hlinear.edge hb hin, fun {loc} hloc => ?_,
    fun {r w loc} hread hin => ?_,
    fun {r v loc} hlock hv hrv => ?_⟩
  · rw [ha.chain hloc]
    refine (hl.coherent hloc).imp_of_mem fun _ hb hab => (hold ?_).mpr hab
    rcases h.mem_chain hloc hb with rfl | hwrite
    · exact h.init_mem
    · exact h.mem_of_writesTo hwrite
  · have hr : r ∈ g'.order := ha.shaped.mem_of_readsAt hread
    refine ⟨hlinear.edge hr hin, fun v hv hvr => ?_⟩
    rcases (ha.readsAt_iff hc.absent).mp hread with hread | ⟨rfl, hkind, rfl⟩
    · have hmem := h.mem_of_readsAt hread
      have hin := ((ha.edges ..).1.mp hin).resolve_right fun hcause =>
        hc.fills.ne_of_mem hmem hcause.1
      have hv := ((ha.writesTo_iff hc.absent).mp hv).resolve_right fun hself =>
        hlast (hself.1 ▸ hvr)
      have hw : w ∈ g.order := h.source_mem hin
      exact ((hl.latest hread hin).2 v hv ((hold hmem).mp hvr)).imp_right (hold hw).mpr
    · -- the new read sees the end of the chain, where the latest write stands
      have hin := ((ha.edges ..).1.mp hin).resolve_left fun hin => hc.absent (has_of_in hin)
      obtain ⟨-, rfl⟩ := hc.readsFrom.mp hin.2
      have hv := ((ha.writesTo_iff hc.absent).mp hv).resolve_right fun hself =>
        hlast (hself.1 ▸ hvr)
      obtain ⟨hloc, hchain⟩ := hc.read hkind
      rcases before_lastWrite (h.nodup_chain hloc) (hwritten hkind hv) with heq | hbefore
      · exact Or.inl heq
      · exact Or.inr ((hold (hc.mem hin.2)).mpr (rel_of_before (hl.coherent hloc) hbefore))
  · rcases (ha.locksAt_iff hc.absent).mp hlock with hlock | ⟨rfl, -⟩
    · intro hvn
      have hv := ((ha.writesTo_iff hc.absent).mp hv).resolve_right fun hself =>
        hlast (hself.1 ▸ hvn)
      have hrv := (hold (h.mem_of_writesTo hv)).mp hrv
      rcases List.mem_append.mp hvn.right_mem with hnext | hnext
      · exact hl.undivided hlock hv hrv ((hold (hl.perm.mem_iff.mp hnext)).mp hvn)
      · exact hpending hlock hv (List.mem_singleton.mp hnext) hrv
    · exact absurd hrv hlast

/-- An order of the events in which an edge goes forward still does with one more event behind. -/
theorem forward (h : g.Sound l) (hc : Caused g e t n cause) (hr : r.ordersThreads = true)
    (hb : b ∈ g'.order) (hin : g'.In r a b) : Before g'.order a b := by
  rw [ha.order] at hb ⊢
  rcases (ha.edges r a b).1.mp hin with hin | ⟨rfl, hcause⟩
  · have hb := (List.mem_append.mp hb).resolve_right fun heq =>
      hc.absent (List.mem_singleton.mp heq ▸ has_of_in hin)
    exact (before_append_of_mem hb).mpr (h.forward hr hb hin)
  · exact before_append.mpr
      (Or.inr ⟨fun hb => hc.fills.ne_of_mem hb rfl, Or.inl ⟨hc.mem hcause, by simp⟩⟩)

/-- **A new event keeps a graph sound** when its clock is right and its location has a chain: no
write stands between an exclusive read and the event that comes next in its task. -/
theorem sound (h : g.Sound l) (hc : Caused g e t n cause) (ht : g'.Timed)
    (hlen : g.order.length + 1 < 2 ^ 62)
    (hchained : e.location ≠ .none → (g.chain? e.location).isSome = true)
    (hwritten : e.kind.isRead = true → ∀ {k}, g.WritesTo k e.location → k ∈ g.chain e.location)
    (hpending : ∀ {r v loc}, g.LocksAt r loc → g.WritesTo v loc → r.next = .place t n →
      ¬Before l r v) :
    g'.Sound (l ++ [.place t n]) where
  toWired := ha.wired h.toWired hc
  explained := ha.explains h.toWired h.explained hc hwritten hpending
  timed := ht
  forward := ha.forward h hc
  bounded := by
    rw [ha.order, List.length_append]
    exact hlen
  chained := by
    intro k e' hk he' hne
    rw [ha.event] at he'
    split at he'
    · cases he'
      exact ha.chained (hchained hne)
    · rename_i hold
      rw [ha.order, List.mem_append, List.mem_singleton] at hk
      exact ha.chained (h.chained (hk.resolve_right hold) he' hne)

/-- The clock of the new event stays right with one more edge. -/
theorem timed_link (h : g.Wired) (hn : g.Fills t n) (ht : g'.Timed)
    (hmem : ∀ {r a}, cause r a → a ∈ g.order) (ham : a ∈ g.order) (hr : r.ordersTime = true) :
    (g'.link a (.place t n) r).Timed := by
  have hself : .place t n ∈ g'.order := by
    rw [ha.order]
    simp
  have ham' : a ∈ g'.order := by
    rw [ha.order]
    exact List.mem_append_left _ ham
  refine ht.link ham' hself (ha.shaped.has hself) ?_ hr (hn.ne_of_mem ham)
  rintro d ⟨r', -, hin⟩
  rcases (ha.edges ..).1.mp hin with hin | ⟨-, hcause⟩
  · exact hn.ne_of_mem (h.source_mem hin) rfl
  · exact hn.ne_of_mem (hmem hcause) rfl

/-- One more edge into the new event. -/
theorem link (ham : a ∈ g.order) (hn : g.Fills t n) (hr : r ≠ .programOrder) :
    Adds g (g'.link a (.place t n) r) e t n fun r' a' => cause r' a' ∨ r' = r ∧ a' = a := by
  have hmem : .place t n ∈ g'.order := by
    rw [ha.order]
    simp
  have hhas := ha.shaped.has hmem
  have ham' : a ∈ g'.order := by
    rw [ha.order]
    exact List.mem_append_left _ ham
  refine ⟨ha.shaped.link (ha.shaped.has ham') hmem (Key.place_ne_init t n) fun heq => absurd heq hr,
    ?_, ?_, ?_, ?_, ?_, ?_, ?_, ?_⟩
  · rw [link_order, ha.order]
  · intro k
    rw [event?_link, ha.event]
  · intro r' c d
    rw [in_link hhas, out_link (ha.shaped.has ham'), (ha.edges ..).1, (ha.edges ..).2]
    constructor <;> tauto
  · rw [link_chains]
    exact ha.locations
  · intro c hc
    rw [link_chains]
    exact ha.chains hc
  · intro loc hloc
    rw [Graph.chain, chain?, link_chains]
    exact ha.chain hloc
  · intro loc hloc
    rw [chain?, link_chains]
    exact ha.chained hloc
  · intro k hk
    rw [clockOf_link hhas, if_neg fun heq => hn.ne_of_mem hk heq.1, ha.clock k hk]

/-- A chain of the life of threads is of no importance. -/
theorem setThreadChain (ks : List Key) : Adds g (g'.setChain .thread ks) e t n cause := by
  refine ⟨ha.shaped.setChain .thread ks, ha.order, ha.event, ha.edges,
    fun h => nodup_setChain (ha.locations h), ?_, ?_,
    fun hloc => isSome_chain?_setChain.mpr (Or.inr (ha.chained hloc)), ha.clock⟩
  · intro c hc
    rw [mem_setChain, ← ha.chains hc]
    constructor
    · rintro (rfl | ⟨-, hmem⟩)
      · exact absurd rfl hc
      · exact hmem
    · exact fun hmem => Or.inr ⟨hc, hmem⟩
  · intro loc hloc
    rw [chain_setChain, if_neg hloc, ha.chain hloc]

end Adds

/-! ### The event alone -/

/-- The edges into a new event that come with it: from the event before it in its task, and from the
starts of the threads that the task has spawned since. -/
def Follows (g : Graph) (t n : Nat) (r : Relation) (a : Key) : Prop :=
  r = .programOrder ∧ a = .prior t n ∨
    r = .threadCreation ∧ n ≠ 0 ∧ g.Out .threadStart (.prior t n) a

theorem Grows.adds (hg : Grows g e t n g') (hn : g.Fills t n) :
    Adds g g' (g.entered e) t n (g.Follows t n) where
  shaped := hg.shaped
  order := hg.order
  event := hg.event
  edges := fun r a b => ⟨hg.cause r a b, hg.out r a b⟩
  locations := by
    rw [hg.chains]
    exact id
  chains := by
    intro c _
    rw [hg.chains]
  chain := by
    intro loc _
    rw [chain, chain, chain?, chain?, hg.chains]
  chained := by
    intro loc
    rw [chain?, chain?, hg.chains]
    exact id
  clock := fun k hk => hg.clock k (hn.ne_of_mem hk)

theorem Shaped.mem_of_follows (h : g.Shaped) (hn : g.Fills t n) (hf : g.Follows t n r a) :
    a ∈ g.order := by
  rcases hf with ⟨-, rfl⟩ | ⟨-, -, hout⟩
  · exact h.prior_mem hn
  · exact h.target_mem hout (by decide)

/-- **The clock of a new event tells its past.** -/
theorem Sound.timed_grows (h : g.Sound l) (hg : Grows g e t n g') (hn : g.Fills t n)
    (habsent : ¬g.Has (.place t n)) (hlen : g.order.length + 1 < 2 ^ 62) : g'.Timed := by
  have ha := hg.adds hn
  have hmem : ∀ {r a}, g.Follows t n r a → a ∈ g.order := h.mem_of_follows hn
  have hlinear := ha.linear h.linear hn habsent hmem
  have hold : ∀ {k}, k ∈ g'.order ↔ k ∈ g.order ∨ k = .place t n := by
    intro k
    rw [hg.order, List.mem_append, List.mem_singleton]
  have hdense : g'.Dense := by
    refine hlinear.dense hg.shaped (by rw [hg.order, List.length_append]; exact hlen)
      (fun {u i} hk => ?_) fun hin => ?_
    · rcases hold.mp hk with hk | heq
      · exact (hg.cause ..).mpr (Or.inl (h.linked (h.has hk)))
      · obtain ⟨rfl, rfl⟩ := Key.place_inj.mp heq
        exact (hg.cause ..).mpr (Or.inr ⟨rfl, Or.inl ⟨rfl, rfl⟩⟩)
    · rcases (hg.cause ..).mp hin with hin | ⟨-, hcause⟩
      · exact hold.mpr (Or.inl (h.source_mem hin))
      · exact hold.mpr (Or.inl (hmem hcause))
  -- nothing comes before an old event that did not do so before
  have hpast : ∀ {a b}, b ∈ g.order → (g'.Past a b ↔ g.Past a b) := by
    refine past_congr (fun hb => ?_) fun _ hin => h.source_mem hin
    rw [hg.cause]
    exact or_iff_left fun heq => hn.ne_of_mem hb heq.1
  have htells : ∀ {k}, k ∈ g.order → g'.Tells k (g.clockOf k) := by
    intro k hk
    refine ⟨(h.timed k hk).nonneg, fun u i => ?_⟩
    rw [(h.timed k hk).count, hpast hk]
  intro k hk
  rcases hold.mp hk with hk | rfl
  · rw [hg.clock k (hn.ne_of_mem hk)]
    exact htells hk
  · have hnonneg := (htells (h.prior_mem hn)).nonneg_successor hdense hk
    -- the new event comes after the prior one and after what that one has started
    have hcause : ∀ {a}, g'.Earlier a (.place t n) ↔
        a = .prior t n ∨ n ≠ 0 ∧ g.Out .threadStart (.prior t n) a := by
      intro a
      have hin : ∀ {r}, g'.In r a (.place t n) ↔ g.Follows t n r a := by
        intro r
        rw [hg.cause, or_iff_right fun hin => habsent (has_of_in hin)]
        exact and_iff_right rfl
      constructor
      · rintro ⟨r, -, hr⟩
        exact (hin.mp hr).imp And.right And.right
      · rintro (ha | ha)
        · exact ⟨.programOrder, rfl, hin.mpr (Or.inl ⟨rfl, ha⟩)⟩
        · exact ⟨.threadCreation, rfl, hin.mpr (Or.inr ⟨rfl, ha⟩)⟩
    refine tells_of_preds hdense (f := g.clockOf) hk (fun a hearlier => htells ?_)
      (hg.nonneg hnonneg) fun u i => ?_
    · exact (hold.mp (hdense.source_mem hk hearlier)).resolve_right fun heq =>
        hdense.acyclic _ (.single (heq ▸ hearlier))
    · rw [hg.count hnonneg]
      simp only [hcause, or_and_right, exists_or, exists_eq_left, or_assoc, and_assoc]
theorem linkAll_withChains (g : Graph)
    (cs : List (Location × List Key)) (ks : List Key) (b : Key) (r : Relation) :
    ({ g with chains := cs } : Graph).linkAll ks b r = { g.linkAll ks b r with chains := cs } := by
  induction ks generalizing g with
  | nil => rfl
  | cons a ks ih =>
    have hlink : ({ g with chains := cs } : Graph).link a b r =
        { g.link a b r with chains := cs } := by
      unfold Graph.link
      dsimp only
      split <;> rfl
    rw [linkAll_cons, linkAll_cons, hlink, ih]

theorem withEvent_chains (g : Graph) (e : Event) : (g.withEvent e).chains = g.chains := by
  unfold withEvent
  rw [linkAll_chains, link_chains]
  rfl

theorem withEvent_setChain (g : Graph) (loc : Location) (ks : List Key) (e : Event) :
    (g.setChain loc ks).withEvent e = (g.withEvent e).setChain loc ks := by
  have hwith : ∀ cs, ({ g with chains := cs } : Graph).withEvent e =
      { g.withEvent e with chains := cs } := by
    intro cs
    unfold withEvent
    rw [← linkAll_withChains]
    congr 1
  refine (hwith _).trans ?_
  unfold setChain chain?
  rw [withEvent_chains]

/-- **Inserting an event** is opening its location and adding the event. -/
theorem insertEvent_eq_withEvent (g : Graph) (e : Event) :
    g.insertEvent e = (g.opened e.location).withEvent e := by
  rw [insertEvent_eq, opened, chain?, withEvent_chains, ← chain?, ← withEvent_setChain]
  unfold Event.hasLocation
  split <;> rfl

end Interleaving.Graph
