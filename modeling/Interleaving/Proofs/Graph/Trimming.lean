import Interleaving.Proofs.Graph.Rechaining

/-!
# Events that go

Events are taken out of all views at once, and a label goes with the event that it stands behind. A
graph stays regular when nothing is left behind an event that goes
(`Interleaving.Graph.Regular.prune`): places in tasks stay dense, a label stays at the end of its
task, and chains are linked anew where a write has gone.

What follows an event in the total order can go (`Interleaving.Graph.Regular.restrict`), as can any
set of events that is closed under program order (`Interleaving.Graph.Regular.restrictBySet`).
-/

namespace Interleaving.Graph

variable {g g' : Graph} {a b k w : Key} {r : Relation} {t n m : Nat} {loc : Location}
  {removed : List Key}

/-- Events that can be taken out: nothing stays behind them in their tasks. -/
structure Removable (g : Graph) (removed : List Key) : Prop where
  init : Key.init ∉ removed
  mem : ∀ {k}, k ∈ removed → k ∈ g.order
  closed : ∀ {t i j : Nat}, i < j → .place t i ∈ removed → .place t j ∈ g.order →
    .place t j ∈ removed

/-- Of `n` events of a task the first `m` stay. -/
structure Stay (removed : List Key) (t n m : Nat) : Prop where
  le : m ≤ n
  iff : ∀ {i : Nat}, i < n → (.place t i ∈ removed ↔ m ≤ i)

/-! ### What is left of a task -/

theorem Removable.exists_stay (h : g.Removable removed) (hn : ∀ i < n, .place t i ∈ g.order) :
    ∃ m, Stay removed t n m := by
  induction n with
  | zero => exact ⟨0, le_rfl, fun hi => absurd hi (Nat.not_lt_zero _)⟩
  | succ n ih =>
    obtain ⟨m, hle, hiff⟩ := ih fun i hi => hn i (Nat.lt_succ_of_lt hi)
    by_cases hlast : .place t n ∈ removed
    · refine ⟨m, by omega, fun {i} hi => ?_⟩
      rcases Nat.lt_succ_iff_lt_or_eq.mp hi with hi | rfl
      · exact hiff hi
      · exact iff_of_true hlast hle
    · have hm : m = n := by
        refine le_antisymm hle (Nat.not_lt.mp fun hlt => hlast ?_)
        exact h.closed hlt ((hiff hlt).mpr le_rfl) (hn n (Nat.lt_succ_self n))
      refine ⟨n + 1, le_rfl, fun {i} hi => ?_⟩
      rcases Nat.lt_succ_iff_lt_or_eq.mp hi with hi | rfl
      · rw [hiff hi]
        omega
      · exact iff_of_false hlast (by omega)

namespace Stay

theorem unique {m' : Nat} (h : Stay removed t n m) (h' : Stay removed t n m') : m = m' := by
  have hle := h.le
  have hle' := h'.le
  refine le_antisymm (Nat.not_lt.mp fun hlt => ?_) (Nat.not_lt.mp fun hlt => ?_)
  · have hm := (h'.iff (lt_of_lt_of_le hlt hle)).mpr le_rfl
    exact absurd ((h.iff (lt_of_lt_of_le hlt hle)).mp hm) (Nat.not_le.mpr hlt)
  · have hm := (h.iff (lt_of_lt_of_le hlt hle')).mpr le_rfl
    exact absurd ((h'.iff (lt_of_lt_of_le hlt hle')).mp hm) (Nat.not_le.mpr hlt)

theorem filter_places (h : Stay removed t n m) :
    (places t n).filter (fun k => !removed.contains k) = places t m := by
  induction n generalizing m with
  | zero =>
    obtain rfl := Nat.le_zero.mp h.le
    rfl
  | succ n ih =>
    rw [places_succ, List.filter_append]
    rcases Nat.lt_or_eq_of_le h.le with hlt | rfl
    · have hlast : .place t n ∈ removed := (h.iff (Nat.lt_succ_self n)).mpr (Nat.le_of_lt_succ hlt)
      rw [ih ⟨Nat.le_of_lt_succ hlt, fun hi => h.iff (Nat.lt_succ_of_lt hi)⟩]
      simp [hlast]
    · have hlast : .place t n ∉ removed :=
        fun hin => absurd ((h.iff (Nat.lt_succ_self n)).mp hin) (by omega)
      have hstay : Stay removed t n n :=
        ⟨le_rfl, fun {i} hi => by rw [h.iff (Nat.lt_succ_of_lt hi)]; omega⟩
      rw [ih hstay, places_succ]
      simp [hlast]

theorem keptTask_places (h : g.Shaped) (hn : g.Fills t n) (hs : Stay removed t n m) :
    g.keptTask removed (places t n) = (places t m, none) := by
  unfold keptTask
  dsimp only
  rw [hs.filter_places]
  cases m with
  | zero => rfl
  | succ m =>
    have hmem : .place t m ∈ g.order := (hn m).mpr hs.le
    rw [places_succ, List.getLast?_concat]
    dsimp only
    rw [h.isLabel_of_mem hmem]
    rfl

/-- **A label goes** with an event that it stands behind. -/
theorem keptTask_label (hlabel : g.isLabel (.place t n) = true) (hnot : .place t n ∉ removed)
    (hs : Stay removed t n m) :
    g.keptTask removed (places t (n + 1)) =
      if m = n then (places t (n + 1), none) else (places t m, some (.place t n)) := by
  have hkept : (places t (n + 1)).filter (fun k => !removed.contains k) = places t m ++
      [.place t n] := by
    rw [places_succ, List.filter_append, hs.filter_places]
    simp [hnot]
  have hseq : (Key.place t n).seq = n := rfl
  unfold keptTask
  dsimp only
  rw [hkept, List.getLast?_concat]
  dsimp only
  rw [hlabel, List.length_append, length_places, List.length_singleton, hseq, List.dropLast_concat,
    Bool.true_and]
  by_cases hm : m = n
  · subst hm
    rw [if_neg (by simp), if_pos rfl, places_succ]
  · rw [if_pos (by rw [bne_iff_ne]; omega), if_neg hm]

end Stay

/-! ### The graph without some events -/

/-- The labels that go with the events that they stand behind. -/
def stale (g : Graph) (removed : List Key) : List Key :=
  (g.tasks.map (g.keptTask removed)).filterMap (·.2)

/-- The graph without some events and the labels behind them; chains are not linked anew. -/
def stripped (g : Graph) (removed : List Key) : Graph :=
  { g.without (removed ++ g.stale removed) with
    tasks := (g.tasks.map (g.keptTask removed)).map (·.1)
    order := g.order.filter fun k => !removed.contains k
    chains := (g.without removed).chains }

theorem taskKeys_stripped :
    (g.stripped removed).taskKeys t = (g.keptTask removed (g.taskKeys t)).1 := by
  have hnil : (g.keptTask removed []).1 = [] := rfl
  unfold taskKeys stripped
  simp only [Int.natCast_nonneg, if_true, List.getElem?_map, Option.map_map]
  cases g.tasks[(t : Int).toNat]? with
  | none => exact hnil.symm
  | some ks => rfl

theorem map_fst_chains_stripped (g : Graph) (removed : List Key) :
    (g.stripped removed).chains.map (·.1) = g.chains.map (·.1) := by
  unfold stripped without
  rw [List.map_map]
  refine List.map_congr_left fun c _ => ?_
  rw [Function.comp_apply]
  split <;> rfl

theorem event?_stripped :
    (g.stripped removed).event? k = if k ∈ removed ++ g.stale removed then none else g.event? k :=
  event?_without ..

theorem in_stripped : (g.stripped removed).In r a b ↔
    g.In r a b ∧ a ∉ removed ++ g.stale removed ∧ b ∉ removed ++ g.stale removed :=
  in_without

theorem out_stripped : (g.stripped removed).Out r a b ↔
    g.Out r a b ∧ a ∉ removed ++ g.stale removed ∧ b ∉ removed ++ g.stale removed :=
  out_without

theorem isLabel_stripped : (g.stripped removed).isLabel k = true ↔
    g.isLabel k = true ∧ k ∉ removed ++ g.stale removed := by
  rw [isLabel_iff_event?, isLabel_iff_event?, event?_stripped]
  split
  · rename_i hgone
    simp [hgone]
  · rename_i hstay
    simp [hstay]

theorem mem_order_stripped : k ∈ (g.stripped removed).order ↔ k ∈ g.order ∧ k ∉ removed := by
  show k ∈ g.order.filter _ ↔ _
  rw [List.mem_filter]
  simp

theorem Stay.fills_stripped (hs : Stay removed t n m) (hn : g.Fills t n) :
    (g.stripped removed).Fills t m := by
  intro i
  rw [mem_order_stripped, hn i]
  constructor
  · rintro ⟨hi, hnot⟩
    exact Nat.not_le.mp fun hle => hnot ((hs.iff hi).mpr hle)
  · intro hi
    have hlt := lt_of_lt_of_le hi hs.le
    exact ⟨hlt, fun hin => absurd ((hs.iff hlt).mp hin) (Nat.not_le.mpr hi)⟩

namespace Shaped

variable (h : g.Shaped) (hr : g.Removable removed)
include h hr

theorem label_not_removed (hlabel : g.isLabel k = true) : k ∉ removed := fun hk => by
  rw [h.isLabel_of_mem (hr.mem hk)] at hlabel
  cases hlabel

/-- The labels that go are those of tasks that lose an event. -/
theorem mem_stale : k ∈ g.stale removed ↔ ∃ t n m : Nat, g.Fills t n ∧ Stay removed t n m ∧ m ≠ n ∧
    g.isLabel (.place t n) = true ∧ g.taskKeys t = places t (n + 1) ∧ k = .place t n := by
  unfold stale
  rw [List.filterMap_map, List.mem_filterMap]
  constructor
  · rintro ⟨ks, hks, hk⟩
    obtain ⟨t, n, hn, rfl | ⟨rfl, hlabel, hkeys⟩⟩ := h.task_cases hks
    · obtain ⟨m, hs⟩ := hr.exists_stay fun i => (hn i).mpr
      rw [Function.comp_apply, hs.keptTask_places h hn] at hk
      cases hk
    · obtain ⟨m, hs⟩ := hr.exists_stay fun i => (hn i).mpr
      rw [Function.comp_apply, hs.keptTask_label hlabel (h.label_not_removed hr hlabel)] at hk
      split at hk
      · cases hk
      · rename_i hm
        exact ⟨t, n, m, hn, hs, hm, hlabel, hkeys, (Option.some.inj hk).symm⟩
  · rintro ⟨t, n, m, hn, hs, hm, hlabel, hkeys, rfl⟩
    refine ⟨places t (n + 1), ?_, ?_⟩
    · have hlen : t < g.tasks.length := length_of_taskKeys (by rw [hkeys, places_succ]; simp)
      rw [← hkeys]
      simp [taskKeys, hlen]
    · rw [Function.comp_apply, hs.keptTask_label hlabel (h.label_not_removed hr hlabel), if_neg hm]

omit hr in
/-- Events do not go as labels do. -/
theorem not_stale_of_mem (hk : k ∈ g.order) : k ∉ g.stale removed := by
  intro hstale
  rw [stale, List.filterMap_map, List.mem_filterMap] at hstale
  obtain ⟨ks, -, hks⟩ := hstale
  rw [Function.comp_apply, keptTask] at hks
  split at hks
  · split at hks
    · rename_i last _ hlast
      cases hks
      rw [h.isLabel_of_mem hk] at hlast
      cases hlast
    · cases hks
  · cases hks

omit hr in
theorem not_gone_iff (hk : k ∈ g.order) : k ∉ removed ++ g.stale removed ↔ k ∉ removed := by
  rw [List.mem_append, not_or]
  exact and_iff_left (h.not_stale_of_mem hk)

/-- A label that stays stands behind an event that stays. -/
theorem label_stays (hlabel : g.isLabel k = true) (hk : k ∉ removed ++ g.stale removed) :
    ∃ t n : Nat, k = .place t n ∧ g.Fills t n ∧ g.taskKeys t = places t (n + 1) ∧
      Stay removed t n n := by
  obtain ⟨t, n, rfl, hkeys⟩ := h.label hlabel
  obtain ⟨n', hn', hcases⟩ := h.tasks t
  have hn : g.Fills t n := by
    rcases hcases with hkeys' | ⟨hkeys', -⟩
    · -- the label would be an event
      have hlen : n + 1 = n' := by simpa using congrArg List.length (hkeys.symm.trans hkeys')
      have hmem : .place t n ∈ g.order := (hn' n).mpr (by omega)
      rw [h.isLabel_of_mem hmem] at hlabel
      cases hlabel
    · have hlen : n + 1 = n' + 1 := by simpa using congrArg List.length (hkeys.symm.trans hkeys')
      rwa [Nat.succ.inj hlen]
  obtain ⟨m, hs⟩ := hr.exists_stay fun i => (hn i).mpr
  by_cases hm : m = n
  · exact ⟨t, n, rfl, hn, hkeys, hm ▸ hs⟩
  · exact absurd
      (List.mem_append_right _ ((h.mem_stale hr).mpr ⟨t, n, m, hn, hs, hm, hlabel, hkeys, rfl⟩)) hk

theorem shaped_stripped : (g.stripped removed).Shaped where
  tidy := tidy_of_nodes (g := g.without (removed ++ g.stale removed)) rfl (tidy_without h.tidy)
  nodup := h.nodup.filter _
  first := by
    obtain ⟨ks, hks⟩ := List.head?_eq_some_iff.mp h.first
    show (g.order.filter fun k => !removed.contains k).head? = some .init
    rw [hks, List.filter_cons_of_pos (by simpa using hr.init)]
    rfl
  has := by
    intro k hk
    obtain ⟨hk, hstay⟩ := mem_order_stripped.mp hk
    rw [has_iff_event?, event?_stripped, if_neg ((h.not_gone_iff hk).mpr hstay), ← has_iff_event?]
    exact h.has hk
  mem_iff := by
    intro k e he
    rw [event?_stripped] at he
    split at he
    · cases he
    · rename_i hstay
      rw [mem_order_stripped, ← h.mem_iff he]
      exact and_iff_left fun hk => hstay (List.mem_append_left _ hk)
  key := fun hk => h.key (mem_order_stripped.mp hk).1
  tasks := by
    intro t
    obtain ⟨n, hn, hkeys⟩ := h.tasks t
    obtain ⟨m, hs⟩ := hr.exists_stay fun i => (hn i).mpr
    refine ⟨m, hs.fills_stripped hn, ?_⟩
    rw [taskKeys_stripped]
    rcases hkeys with hkeys | ⟨hkeys, hlabel⟩
    · rw [hkeys, hs.keptTask_places h hn]
      exact Or.inl rfl
    · have hnot := h.label_not_removed hr hlabel
      rw [hkeys, hs.keptTask_label hlabel hnot]
      by_cases hm : m = n
      · subst hm
        rw [if_pos rfl]
        refine Or.inr ⟨rfl, isLabel_stripped.mpr ⟨hlabel, ?_⟩⟩
        rw [List.mem_append, not_or]
        refine ⟨hnot, fun hstale => ?_⟩
        obtain ⟨u, n', m', hn', hs', hm', -, -, heq⟩ := (h.mem_stale hr).mp hstale
        obtain ⟨rfl, rfl⟩ := Key.place_inj.mp heq
        exact hm' (hs'.unique hs)
      · rw [if_neg hm]
        exact Or.inl rfl
  label := by
    intro k hk
    obtain ⟨hlabel, hstay⟩ := isLabel_stripped.mp hk
    obtain ⟨t, n, rfl, hn, hkeys, hs⟩ := h.label_stays hr hlabel hstay
    refine ⟨t, n, rfl, ?_⟩
    rw [taskKeys_stripped, hkeys,
      hs.keptTask_label hlabel (h.label_not_removed hr hlabel), if_pos rfl]
  label_cause := fun hk hin => h.label_cause (isLabel_stripped.mp hk).1 (in_stripped.mp hin).1
  programOrder := fun hin => h.programOrder (in_stripped.mp hin).1
  no_cause := fun hin => h.no_cause (in_stripped.mp hin).1

end Shaped

/-! ### Chains that lose writes -/

namespace Framed

variable (h : g.Framed) (hr : g.Removable removed)
include h

/-- A write that goes from a chain is one of its location. -/
theorem mem_prunedLocations (hw : g.Joins w loc) (hgone : w ∈ removed) :
    loc ∈ g.prunedLocations removed ∧ (loc ≠ .thread → loc ∈ g.touchedLocations removed) := by
  have hmem := h.mem_of_joins hw
  obtain ⟨e, he, rfl, hkind⟩ := hw
  obtain ⟨m, hm, rfl⟩ := Option.map_eq_some_iff.mp he
  have hkey : removed.contains m.key = true := by rwa [key_of_find? hm, List.contains_iff_mem]
  have hevents : m ∈ g.events := List.mem_filterMap.mpr ⟨w, hmem, hm⟩
  have hlocated : m.event.hasLocation = true := by
    refine bne_iff_ne.mpr ?_
    split at hkind
    · rename_i hthread
      rw [hthread]
      decide
    · exact ne_none_of_pos ((h.placed hmem he).memory (Or.inr hkind))
  unfold prunedLocations touchedLocations
  simp only [List.mem_eraseDups, List.mem_map, List.mem_filter, Bool.and_eq_true]
  refine ⟨⟨m, ⟨hevents, hkey, hlocated⟩, rfl⟩, fun hthread => ⟨m, ⟨hevents, hkey, ?_⟩, rfl⟩⟩
  rwa [if_neg hthread] at hkind

/-- The locations whose chains are linked anew are those of writes. -/
theorem touched_ne_thread (hloc : loc ∈ g.touchedLocations removed) : loc ≠ .thread := by
  unfold touchedLocations at hloc
  simp only [List.mem_eraseDups, List.mem_map, List.mem_filter, Bool.and_eq_true] at hloc
  obtain ⟨m, ⟨hevents, -, hwrite⟩, rfl⟩ := hloc
  obtain ⟨k, hk, hm⟩ := List.mem_filterMap.mp hevents
  have he : g.event? k = some m.event := by rw [event?, hm]; rfl
  exact ne_thread_of_pos ((h.placed hk he).memory (Or.inr hwrite))

/-- A chain loses exactly the events that are taken out. -/
theorem chain_stripped (hinit : .init ∉ removed) (loc : Location) :
    (g.stripped removed).chain loc = (g.chain loc).filter fun k => !removed.contains k := by
  show (g.without removed).chain loc = _
  rw [chain_without]
  split
  · rfl
  · rename_i hloc
    refine (List.filter_eq_self.mpr fun w hw => ?_).symm
    rw [Bool.not_eq_true', ← Bool.not_eq_true, List.contains_iff_mem]
    intro hgone
    refine hloc ?_
    rcases h.mem_chain hw with rfl | hw
    · exact absurd hgone hinit
    · exact (h.mem_prunedLocations hw hgone).1

theorem mem_chain_stripped (hinit : .init ∉ removed) {loc : Location} :
    k ∈ (g.stripped removed).chain loc ↔ k ∈ g.chain loc ∧ k ∉ removed := by
  rw [h.chain_stripped hinit, List.mem_filter]
  simp

theorem has_of_mem_chain_stripped (hinit : .init ∉ removed) {loc : Location}
    (hk : k ∈ (g.stripped removed).chain loc) : (g.stripped removed).Has k := by
  obtain ⟨hmem, hstay⟩ := (h.mem_chain_stripped hinit).mp hk
  have hk := h.mem_order_of_chain hmem
  rw [has_iff_event?, event?_stripped, if_neg ((h.not_gone_iff hk).mpr hstay), ← has_iff_event?]
  exact h.has hk

/-- What comes after another key in what is left of a chain belongs there. -/
theorem joins_of_adjacent_stripped (hinit : .init ∉ removed) {loc : Location}
    (hab : [a, b] <:+: (g.stripped removed).chain loc) : g.Joins b loc := by
  rw [h.chain_stripped hinit] at hab
  rcases h.chain_cases loc with heq | ⟨ws, heq, -, hws⟩
  · rw [heq] at hab
    simpa using hab.length_le
  · rw [heq, List.filter_cons_of_pos (by simpa using hinit), infix_cons_iff] at hab
    rcases hab with ⟨-, hhead⟩ | hab
    · exact hws b (List.mem_of_mem_filter (List.mem_of_head? hhead))
    · exact hws b (List.mem_of_mem_filter (hab.subset (by simp)))

theorem joins_stripped (hw : g.Joins w loc) (hstay : w ∉ removed) :
    (g.stripped removed).Joins w loc := by
  refine hw.congr ?_
  rw [event?_stripped, if_neg ((h.not_gone_iff (h.mem_of_joins hw)).mpr hstay)]

include hr

/-- A chain that loses writes has the first event in front all the same. -/
theorem chain_stripped_cons {ws : List Key} (heq : g.chain loc = .init :: ws) :
    (g.stripped removed).chain loc = .init :: ws.filter fun k => !removed.contains k := by
  rw [h.chain_stripped hr.init, heq, List.filter_cons_of_pos (by simpa using hr.init)]

/-- **Without some events the views still agree.** -/
theorem stripped : (g.stripped removed).Framed where
  toShaped := h.shaped_stripped hr
  initial := by
    intro e he
    rw [event?_stripped] at he
    split at he
    · cases he
    · exact h.initial he
  sequence := by
    intro t i j hij hj
    obtain ⟨hj, hstay⟩ := mem_order_stripped.mp hj
    have hi : .place t i ∉ removed := fun hi => hstay (hr.closed hij hi hj)
    exact before_filter.mpr ⟨by simpa using hi, by simpa using hstay, h.sequence hij hj⟩
  mirrored := by
    intro r a b hin
    obtain ⟨hin, hstay⟩ := in_stripped.mp hin
    exact out_stripped.mpr ⟨h.mirrored r a b hin, hstay⟩
  linked := by
    intro t i hhas
    have hstay : .place t i ∉ removed ++ g.stale removed := by
      intro hgone
      rw [has_iff_event?, event?_stripped, if_pos hgone] at hhas
      cases hhas
    have hhas : g.Has (.place t i) := by
      rwa [has_iff_event?, event?_stripped, if_neg hstay, ← has_iff_event?] at hhas
    have hin := h.linked hhas
    refine in_stripped.mpr ⟨hin, (h.not_gone_iff (h.source_mem hin)).mpr fun hgone => ?_, hstay⟩
    -- a node that stays keeps its prior event, as what is taken back is closed under program order
    cases i with
    | zero => exact hr.init hgone
    | succ i =>
      rcases h.mem_or_label hhas with hk | hlabel
      · exact hstay (List.mem_append_left _ (hr.closed (Nat.lt_succ_self i) hgone hk))
      · obtain ⟨t', n, heq, hn, -, hs⟩ := h.label_stays hr hlabel hstay
        obtain ⟨rfl, rfl⟩ := Key.place_inj.mp heq
        exact absurd ((hs.iff (Nat.lt_succ_self i)).mp hgone) (by omega)
  label_end := fun hlabel hin => h.label_end (isLabel_stripped.mp hlabel).1 (in_stripped.mp hin).1
  no_fromRead := fun hin => h.no_fromRead (in_stripped.mp hin).1
  placed := by
    intro k e hk he
    rw [event?_stripped] at he
    split at he
    · cases he
    · exact h.placed (mem_order_stripped.mp hk).1 he
  touched := by
    intro k e hk he hne
    rw [event?_stripped] at he
    split at he
    · cases he
    · obtain ⟨ws, heq, -⟩ :=
        (h.chain_cases e.location).resolve_left (h.touched (mem_order_stripped.mp hk).1 he hne)
      rw [h.chain_stripped_cons hr heq]
      exact List.cons_ne_nil _ _
  locations := by
    rw [map_fst_chains_stripped]
    exact h.locations
  chain_eq := by
    intro c hc
    obtain ⟨d, hd, rfl⟩ := List.mem_map.mp hc
    obtain ⟨ws, heq, hnodup, hws⟩ := h.chain_eq hd
    split
    · refine ⟨ws.filter fun k => !removed.contains k, ?_, hnodup.filter _, fun w hw => ?_⟩
      · show d.2.filter _ = _
        rw [heq, List.filter_cons_of_pos (by simpa using hr.init)]
      · obtain ⟨hw, hstay⟩ := List.mem_filter.mp hw
        exact h.joins_stripped (hws w hw) (by simpa using hstay)
    · rename_i hloc
      refine ⟨ws, heq, hnodup, fun w hw => h.joins_stripped (hws w hw) fun hgone => hloc ?_⟩
      simpa using (h.mem_prunedLocations (hws w hw) hgone).1
  source := fun ha hb => h.source (in_stripped.mp ha).1 (in_stripped.mp hb).1
  waits := h.waits

/-- A chain without events that go has the same neighbours. -/
theorem infix_stripped (hloc : loc ∉ g.touchedLocations removed) (hthread : loc ≠ .thread) :
    [a, b] <:+: (g.stripped removed).chain loc ↔
    [a, b] <:+: g.chain loc ∧ a ∉ removed ∧ b ∉ removed := by
  have hstay : ∀ w ∈ g.chain loc, w ∉ removed := by
    intro w hw hgone
    rcases h.mem_chain hw with rfl | hw
    · exact hr.init hgone
    · exact hloc ((h.mem_prunedLocations hw hgone).2 hthread)
  have heq : (g.stripped removed).chain loc = g.chain loc := by
    rw [h.chain_stripped hr.init, List.filter_eq_self.mpr fun w hw => by simpa using hstay w hw]
  rw [heq]
  exact (and_iff_left_of_imp fun hab =>
    ⟨hstay a (hab.subset (by simp)), hstay b (hab.subset (by simp))⟩).symm

end Framed

/-! ### Linking chains anew one after the other -/

/-- A graph without some events, in which the chains of some locations are linked anew already. -/
structure Relinked (g : Graph) (removed : List Key) (done : List Location) (g' : Graph) : Prop where
  recoheres : Recoheres (g.stripped removed) g'
  tasks : g'.tasks = (g.stripped removed).tasks
  waiting : g'.waiting = (g.stripped removed).waiting
  coherency : ∀ {a b}, g'.In .coherency a b ↔ ∃ loc, loc ≠ .thread ∧
    if loc ∈ done then [a, b] <:+: (g.stripped removed).chain loc
    else [a, b] <:+: g.chain loc ∧ a ∉ removed ∧ b ∉ removed

section Relinking

variable {done locs : List Location} (h : g.Regular) (hinit : .init ∉ removed)
include h hinit

omit hinit in
theorem Relinked.start : Relinked g removed [] (g.stripped removed) where
  recoheres := .refl _
  tasks := rfl
  waiting := rfl
  coherency := by
    intro a b
    rw [in_stripped, h.coherency]
    constructor
    · rintro ⟨⟨loc, hloc, hab⟩, ha, hb⟩
      refine ⟨loc, hloc, ?_⟩
      rw [if_neg List.not_mem_nil]
      exact ⟨hab, fun hin => ha (List.mem_append_left _ hin),
        fun hin => hb (List.mem_append_left _ hin)⟩
    · rintro ⟨loc, hloc, hab⟩
      rw [if_neg List.not_mem_nil] at hab
      have hmem : ∀ k ∈ [a, b], k ∈ g.order := fun k hk => h.mem_order_of_chain (hab.1.subset hk)
      exact ⟨⟨loc, hloc, hab.1⟩, (h.not_gone_iff (hmem a (by simp))).mpr hab.2.1,
        (h.not_gone_iff (hmem b (by simp))).mpr hab.2.2⟩

/-- **One more chain is linked anew.** -/
theorem Relinked.step (hg' : Relinked g removed done g') (hloc : loc ≠ .thread) :
    Relinked g removed (loc :: done) (g.relinkAt g' loc) := by
  have hchain : g'.chain loc = (g.stripped removed).chain loc := by
    rw [chain, chain?, hg'.recoheres.chains, ← chain?, ← chain]
  have hother : ∀ {loc' a b}, loc' ≠ loc →
      ((if loc' ∈ loc :: done then [a, b] <:+: (g.stripped removed).chain loc'
        else [a, b] <:+: g.chain loc' ∧ a ∉ removed ∧ b ∉ removed) ↔
        if loc' ∈ done then [a, b] <:+: (g.stripped removed).chain loc'
        else [a, b] <:+: g.chain loc' ∧ a ∉ removed ∧ b ∉ removed) := by
    intro loc' a b hne
    simp only [List.mem_cons, hne, false_or]
  unfold relinkAt
  rw [hchain]
  split
  · rename_i hshort
    refine ⟨hg'.recoheres, hg'.tasks, hg'.waiting, fun {a b} => ?_⟩
    have hno : ¬[a, b] <:+: (g.stripped removed).chain loc := fun hab => by
      have hlen := hab.length_le
      simp only [List.length_cons, List.length_nil] at hlen
      omega
    have hno' : ¬([a, b] <:+: g.chain loc ∧ a ∉ removed ∧ b ∉ removed) := by
      rintro ⟨hab, ha, hb⟩
      have hne : a ≠ b := by simpa using hab.sublist.nodup (h.nodup_chain loc)
      have hmem : [a, b] ⊆ (g.stripped removed).chain loc := by
        intro k hk
        refine (h.mem_chain_stripped hinit).mpr ⟨hab.subset hk, ?_⟩
        rcases List.mem_cons.mp hk with rfl | hk
        · exact ha
        · rwa [List.mem_singleton.mp hk]
      have hlen := (List.subperm_of_subset (by simpa using hne) hmem).length_le
      simp only [List.length_cons, List.length_nil] at hlen
      omega
    rw [hg'.coherency]
    refine exists_congr fun loc' => and_congr_right fun _ => ?_
    by_cases hne : loc' = loc
    · subst hne
      rw [if_pos List.mem_cons_self]
      refine iff_of_false (fun hab => ?_) hno
      split at hab
      · exact hno hab
      · exact hno' hab
    · exact (hother hne).symm
  · obtain ⟨hu, -⟩ := unlinkChain_spec g' (g.chain loc)
    have hhas : ∀ k ∈ (g.stripped removed).chain loc, (g'.unlinkChain (g.chain loc)).Has k := by
      intro k hk
      rw [hu.has_iff, hg'.recoheres.has_iff]
      exact h.has_of_mem_chain_stripped hinit hk
    obtain ⟨hl, -⟩ := linkChain_spec _ _ hhas
    have hut := unlinkChain_tasks g' (g.chain loc)
    have hlt := linkChain_tasks (g'.unlinkChain (g.chain loc)) ((g.stripped removed).chain loc)
    refine ⟨hg'.recoheres.trans (hu.trans hl), (hlt.1.trans hut.1).trans hg'.tasks,
      (hlt.2.trans hut.2).trans hg'.waiting, fun {a b} => ?_⟩
    rw [in_linkChain _ _ hhas, in_unlinkChain, hg'.coherency]
    constructor
    · rintro (⟨⟨loc', hloc', hab⟩, hnot⟩ | hab)
      · refine ⟨loc', hloc', ?_⟩
        by_cases hne : loc' = loc
        · subst hne
          rw [if_pos List.mem_cons_self]
          split at hab
          · exact hab
          · exact absurd hab.1 hnot
        · exact (hother hne).mpr hab
      · exact ⟨loc, hloc, by rwa [if_pos List.mem_cons_self]⟩
    · rintro ⟨loc', hloc', hab⟩
      by_cases hne : loc' = loc
      · subst hne
        rw [if_pos List.mem_cons_self] at hab
        exact Or.inr hab
      · have hab := (hother hne).mp hab
        -- a write stands in one chain only
        have hb : g.Joins b loc' := by
          split at hab
          · exact h.joins_of_adjacent_stripped hinit hab
          · exact h.joins_of_adjacent hab.1
        exact Or.inl ⟨⟨loc', hloc', hab⟩, fun hab' => hne (hb.unique (h.joins_of_adjacent hab'))⟩

theorem Relinked.fold (hlocs : ∀ loc ∈ locs, loc ≠ .thread) (hg' : Relinked g removed done g') :
    Relinked g removed (locs.reverse ++ done) (locs.foldl g.relinkAt g') := by
  induction locs generalizing g' done with
  | nil => exact hg'
  | cons loc locs ih =>
    rw [List.reverse_cons, List.append_assoc, List.singleton_append, List.foldl_cons]
    exact ih (fun loc hl => hlocs loc (List.mem_cons_of_mem _ hl))
      (hg'.step h hinit (hlocs loc List.mem_cons_self))

/-- **All chains that have lost a write are linked anew**, in any order. -/
theorem relinked_foldl (hlocs : ∀ loc ∈ locs, loc ≠ .thread) :
    Relinked g removed locs.reverse (locs.foldl g.relinkAt (g.stripped removed)) := by
  have hfold := (Relinked.start h).fold h hinit hlocs
  rwa [List.append_nil] at hfold

end Relinking

namespace Regular

variable (h : g.Regular)
include h

/-- What stays is linked as it was, but for coherency. -/
theorem recoheres_prune (hr : g.Removable removed) :
    Recoheres (g.stripped removed) (g.prune removed) := by
  unfold Graph.prune
  split
  · rename_i hempty
    rw [List.isEmpty_iff] at hempty
    subst hempty
    have hstale : g.stale [] = [] := by
      refine List.eq_nil_iff_forall_not_mem.mpr fun k hk => ?_
      obtain ⟨t, n, m, -, hs, hne, -⟩ := (h.mem_stale hr).mp hk
      exact List.not_mem_nil ((hs.iff (lt_of_le_of_ne hs.le hne)).mpr le_rfl)
    refine ⟨?_, ?_, fun k => ?_, fun _ => h.tidy, fun _ => h.mirrored, fun _ => ?_⟩
    · exact (List.filter_eq_self.mpr fun _ _ => rfl).symm
    · show _ = g.chains.map _
      refine (List.map_id'' (fun c => ?_) g.chains).symm
      split
      · exact congrArg (Prod.mk c.1) (List.filter_eq_self.mpr fun _ _ => rfl)
      · rfl
    · rw [event?_stripped, hstale]
      rfl
    · rw [in_stripped, hstale]
      simp
  · exact (relinked_foldl h hr.init fun loc => h.touched_ne_thread).recoheres

theorem chain_prune (hr : g.Removable removed) (loc : Location) :
    (g.prune removed).chain loc = (g.chain loc).filter fun k => !removed.contains k := by
  rw [chain, chain?, (h.recoheres_prune hr).chains, ← chain?, ← chain, h.chain_stripped hr.init]

theorem mem_order_prune (hr : g.Removable removed) : k ∈ (g.prune removed).order ↔
    k ∈ g.order ∧ k ∉ removed := by
  rw [(h.recoheres_prune hr).order, mem_order_stripped]

theorem event?_prune (hr : g.Removable removed) (hk : k ∈ g.order) (hstay : k ∉ removed) :
    (g.prune removed).event? k = g.event? k := by
  rw [(h.recoheres_prune hr).event, event?_stripped, if_neg ((h.not_gone_iff hk).mpr hstay)]

/-- An edge between events that stay, other than coherency, stays, and no other one is left. -/
theorem in_prune (hr : g.Removable removed) (hne : r ≠ .coherency) (hb : b ∈ g.order) :
    (g.prune removed).In r a b ↔ g.In r a b ∧ a ∉ removed ∧ b ∉ removed := by
  rw [(h.recoheres_prune hr).other hne, in_stripped]
  exact and_congr_right fun hin => and_congr (h.not_gone_iff (h.source_mem hin)) (h.not_gone_iff hb)

/-- **Events are taken out.** -/
theorem prune (hr : g.Removable removed) : (g.prune removed).Regular := by
  unfold Graph.prune
  split
  · exact h
  · change ((g.touchedLocations removed).foldl g.relinkAt (g.stripped removed)).Regular
    have hg' : Relinked g removed (g.touchedLocations removed).reverse
        ((g.touchedLocations removed).foldl g.relinkAt (g.stripped removed)) :=
      relinked_foldl h hr.init fun loc => h.touched_ne_thread
    refine (h.toFramed.stripped hr).recohere hg'.recoheres hg'.tasks hg'.waiting fun {a b} => ?_
    rw [hg'.coherency]
    refine exists_congr fun loc => and_congr_right fun hloc => ?_
    split
    · rfl
    · rename_i hnot
      exact (h.infix_stripped hr (fun hin => hnot (List.mem_reverse.mpr hin)) hloc).symm

/-- What comes after a place in the total order can be taken out. -/
theorem removable_drop (i : Nat) : g.Removable (g.order.drop (i + 1)) := by
  have hsplit := List.take_append_drop (i + 1) g.order
  have hnodup := h.nodup
  rw [← hsplit] at hnodup
  have hdisj := (List.nodup_append.mp hnodup).2.2
  refine ⟨fun hin => ?_, fun hk => List.mem_of_mem_drop hk, fun {t j j'} hlt hj hj' => ?_⟩
  · obtain ⟨ks, hks⟩ := List.head?_eq_some_iff.mp h.first
    exact hdisj .init (by rw [hks, List.take_succ_cons]; exact List.mem_cons_self) .init hin rfl
  · have hbefore := h.sequence hlt hj'
    rw [← hsplit, before_append] at hbefore
    rcases hbefore with hbefore | ⟨hnot, -⟩
    · exact absurd rfl (hdisj _ hbefore.left_mem _ hj)
    · rw [← hsplit] at hj'
      exact (List.mem_append.mp hj').resolve_left hnot

/-- **What comes after an event** in the total order is taken out. -/
theorem restrict (hg' : g.restrict k = .ok g') : g'.Regular := by
  unfold Graph.restrict at hg'
  split at hg'
  · cases hg'
  · rename_i i hi
    obtain rfl := takeOut_ok hg'
    exact h.prune (h.removable_drop i)

/-- **A set of events that is closed under program order** is taken out. -/
theorem restrictBySet (hclosed : ∀ {t i j : Nat}, i < j → .place t i ∈ removed →
    .place t j ∈ g.order →
    .place t j ∈ removed) (hg' : g.restrictBySet removed = .ok g') : g'.Regular := by
  unfold Graph.restrictBySet at hg'
  split at hg'
  · cases hg'
  · rename_i hfind
    obtain rfl := takeOut_ok hg'
    have hall := List.find?_eq_none.mp hfind
    refine h.prune ⟨fun hin => hall _ hin (by rfl), fun {k} hk => isSome_indexOf?.mp ?_, hclosed⟩
    have hfound := hall k hk
    simp only [Bool.or_eq_true, not_or, Option.isNone_iff_eq_none] at hfound
    exact Option.isSome_iff_ne_none.mpr hfound.2

end Regular

end Interleaving.Graph
