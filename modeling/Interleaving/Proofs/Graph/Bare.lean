import Interleaving.Proofs.Graph.Clocks

/-!
# Graphs without labels

The graphs on which alternatives are worked out have no labels, and their events are numbered
through (`Interleaving.Graph.Bare`). On such a graph clocks can be computed anew, or the edges run
in a cycle and the complaint says so (`Interleaving.Graph.Bare.recomputeClocks_cases`).
-/

namespace Interleaving.Graph

variable {g : Graph} {a b k : Key} {r : Relation} {rank : Key → Nat}

/-- A graph without labels whose events are numbered through. -/
structure Bare (g : Graph) : Prop where
  tidy : g.Tidy
  mirrored : g.Mirrored
  nodup : g.order.Nodup
  first : g.order.head? = some .init
  has_iff : ∀ {k}, g.Has k ↔ k ∈ g.order
  label : ∀ k, g.isLabel k = false
  key : ∀ {k}, k ∈ g.order → k = .init ∨ ∃ t i : Nat, k = .place t i
  programOrder : ∀ {t i : Nat} {a}, .place t i ∈ g.order →
    (g.In .programOrder a (.place t i) ↔ a = .prior t i)
  no_cause : ∀ {r a}, ¬g.In r a .init

theorem mergePredecessors_ok {clocks : Clocks} {es : Edges}
    (h : ∀ e ∈ es, (clocks.lookup e.2).isSome = true) (c : Clock) :
    ∃ c', mergePredecessors clocks c es = .ok c' := by
  induction es generalizing c with
  | nil => exact ⟨c, rfl⟩
  | cons e es ih =>
    obtain ⟨r, k⟩ := e
    have hmore : ∀ e ∈ es, (clocks.lookup e.2).isSome = true :=
      fun e he => h e (List.mem_cons_of_mem _ he)
    obtain ⟨c₀, hc₀⟩ := Option.isSome_iff_exists.mp (h (r, k) List.mem_cons_self)
    dsimp only at hc₀
    rw [mergePredecessors]
    split
    · rw [hc₀]
      exact ih hmore _
    · exact ih hmore c

namespace Bare

variable (hb : g.Bare)
include hb

theorem formed : g.Formed where
  tidy := hb.tidy
  nodup := hb.nodup
  first := hb.first
  has_iff := by
    intro k
    rw [hb.has_iff, hb.label]
    simp
  not_label := fun _ => hb.label _
  label_pred := by
    intro k n _ hlab
    rw [hb.label] at hlab
    cases hlab
  label_succ := by
    intro r a b hlab
    rw [hb.label] at hlab
    cases hlab
  no_cause := hb.no_cause
  caused := by
    intro b hhas hne
    have hmem := hb.has_iff.mp hhas
    obtain ⟨t, i, rfl⟩ := (hb.key hmem).resolve_left hne
    exact ⟨.programOrder, .prior t i, (hb.programOrder hmem).mpr rfl⟩

theorem dense (hrank : g.Ranked rank)
    (hbound : ∀ t i : Nat, .place t i ∈ g.order → i + 1 < 2 ^ 63) : g.Dense where
  key := by
    intro k hk
    refine (hb.key hk).imp_right ?_
    rintro ⟨t, i, rfl⟩
    exact ⟨t, i, rfl, hbound t i hk⟩
  source_mem := by
    rintro a b - ⟨r, -, hin⟩
    exact hb.has_iff.mp (has_of_out (hb.mirrored _ _ _ hin))
  programOrder := hb.programOrder
  no_cause := fun ⟨_, _, hin⟩ => hb.no_cause hin
  acyclic := by
    have hlt : ∀ {a b}, g.Past a b → rank a < rank b := by
      intro a b hab
      induction hab with
      | single hab =>
        obtain ⟨r, -, hab⟩ := hab
        exact hrank _ _ _ hab
      | tail _ hbc ih =>
        obtain ⟨r, -, hbc⟩ := hbc
        exact ih.trans (hrank _ _ _ hbc)
    exact fun a ha => Nat.lt_irrefl _ (hlt ha)

/-- The clock of a node whose predecessors have one. -/
theorem clockFrom {done more : List Node} {m : Node} {clocks : Clocks}
    (hv : Visited g (done ++ m :: more))
    (hclocks : ∀ k ∈ done.map (·.key), (clocks.lookup k).isSome = true) :
    ∃ c, Graph.clockFrom clocks m = .ok (some c) := by
  have hfind := hv.table m (List.mem_append_right _ List.mem_cons_self)
  have hmem := hb.has_iff.mp (has_of_find? hfind)
  have hpred : ∀ e ∈ m.pred, (clocks.lookup e.2).isSome = true := fun e he =>
    hclocks _ (hv.mem_done ((in_iff (r := e.1) (a := e.2) hfind).mpr he))
  have hkind : m.kind.isBlocking = false := by
    have hlab := hb.label m.key
    rw [← Bool.not_eq_true, isLabel_iff hfind] at hlab
    simpa [Kind.isBlocking] using hlab
  unfold Graph.clockFrom
  split
  · exact ⟨.empty, rfl⟩
  · rename_i hinit
    obtain ⟨t, i, hkey⟩ := (hb.key hmem).resolve_left fun heq => hinit (heq ▸ rfl)
    have hprior : .prior t i ∈ m.predecessors .programOrder := by
      rw [mem_predecessors hfind, hkey]
      exact (hb.programOrder (hkey ▸ hmem)).mpr rfl
    rw [if_neg (by simp [hkind])]
    cases hlist : m.predecessors .programOrder with
    | nil =>
      rw [hlist] at hprior
      cases hprior
    | cons po rest =>
      have hpo : g.In .programOrder po m.key :=
        (mem_predecessors hfind).mp (by rw [hlist]; exact List.mem_cons_self)
      obtain ⟨c, hc⟩ := Option.isSome_iff_exists.mp (hclocks _ (hv.mem_done hpo))
      obtain ⟨c', hc'⟩ := mergePredecessors_ok hpred (c.successor m.key.task.toNat)
      refine ⟨c', ?_⟩
      dsimp only
      rw [hc]
      dsimp only
      rw [hc']
      rfl

/-- All nodes that a walk reaches get a clock. -/
theorem recomputeFrom (done more : List Node) (clocks : Clocks) (g' : Graph)
    (hv : Visited g (done ++ more))
    (hclocks : ∀ k ∈ done.map (·.key), (clocks.lookup k).isSome = true) :
    ∃ g'', Graph.recomputeFrom clocks more g' = .ok () g'' := by
  induction more generalizing done clocks g' with
  | nil => exact ⟨g', rfl⟩
  | cons m more ih =>
    obtain ⟨c, hc⟩ := hb.clockFrom hv hclocks
    have hlist : done ++ m :: more = done ++ [m] ++ more := by simp
    have hclocks' : ∀ k ∈ (done ++ [m]).map (·.key),
        ((clocks ++ [(m.key, c)]).lookup k).isSome = true := by
      intro k hk
      rw [List.map_append, List.mem_append] at hk
      rw [List.lookup_append, Option.isSome_or, Bool.or_eq_true]
      rcases hk with hk | hk
      · exact Or.inl (hclocks k hk)
      · rw [List.map_singleton, List.mem_singleton] at hk
        exact Or.inr (by simp [hk])
    obtain ⟨g'', hrun⟩ := ih (done ++ [m]) (clocks ++ [(m.key, c)])
      (g'.modifyNode m.key fun n => { n with clock := c }) (hlist ▸ hv) hclocks'
    refine ⟨g'', ?_⟩
    rw [Graph.recomputeFrom, hc]
    exact hrun

/-- **Clocks can be computed anew** when the edges go up in some numbering. They tell the past as
long as the places of events fit into them. -/
theorem recomputeClocks (hrank : g.Ranked rank) : ∃ g', Graph.recomputeClocks g = .ok () g' ∧
    ((∀ t i : Nat, .place t i ∈ g.order → i + 1 < 2 ^ 63) → g'.Timed) := by
  obtain ⟨W, hv, hvisit, -⟩ := hb.formed.visit_of_ranked hb.mirrored hrank
  obtain ⟨g', hrun⟩ := hb.recomputeFrom [] W [] g hv (by simp)
  have hok : Graph.recomputeClocks g = .ok () g' := by
    simp only [Graph.recomputeClocks, bind, EStateM.bind, get, getThe, MonadStateOf.get,
      EStateM.get, hvisit, hrun]
    rfl
  refine ⟨g', hok, fun hbound => ?_⟩
  obtain ⟨g'', hrun', -, htimed⟩ :=
    recomputeClocks_spec hb.formed (hb.dense hrank hbound) hb.mirrored hrank
  rw [hok] at hrun'
  cases hrun'
  exact htimed

/-- **Clocks can be computed anew, or the edges run in a cycle** and the complaint says so. -/
theorem recomputeClocks_cases :
    (∃ g', Graph.recomputeClocks g = .ok () g') ∨
    ∃ i j g', Graph.recomputeClocks g = .error (.cycle i j) g' := by
  obtain ⟨W, hv, hvisit⟩ := hb.formed.visit
  obtain ⟨g', hrun⟩ := hb.recomputeFrom [] W [] g hv (by simp)
  by_cases hsize : (W.filter isEvent).length = g.size
  · rw [if_pos hsize] at hvisit
    refine Or.inl ⟨g', ?_⟩
    simp only [Graph.recomputeClocks, bind, EStateM.bind, get, getThe, MonadStateOf.get,
      EStateM.get, hvisit, hrun]
    rfl
  · rw [if_neg hsize] at hvisit
    refine Or.inr ⟨(W.filter isEvent).length, g.size, g', ?_⟩
    simp only [Graph.recomputeClocks, bind, EStateM.bind, get, getThe, MonadStateOf.get,
      EStateM.get, hvisit, hrun]
    rfl

end Bare

end Interleaving.Graph
