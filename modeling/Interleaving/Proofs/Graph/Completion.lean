import Interleaving.Proofs.Graph.Consistency
import Interleaving.Proofs.Revisit.Apply

/-!
# Completed executions

The check of completed executions asks more than consistency: every task has come to its end, the
writes of every chain are linked one after the other, and every read has one source. The last two
hold of every well-formed graph (`Interleaving.Graph.WellFormed.checkCoherencyEdges`,
`Interleaving.Graph.WellFormed.checkReadsFromEdges`), so the check accepts a consistent graph all of
whose tasks have come to their ends (`Interleaving.Graph.WellFormed.checkExtensive`).
-/

namespace Interleaving.Graph

variable {g : Graph} {a b k : Key} {loc : Location} {t n : Nat} {ks : List Key}

/-- The last event of a task is its end: it has finished, or an assumption does not hold. -/
def Ends (g : Graph) (t n : Nat) : Prop :=
  ∃ e, g.event? (.prior t n) = some e ∧
    (e.kind = .threadFinish ∨ e.kind = .assume ∧ e.holds = false)

/-- A task that is blocked or at its end does not count as unfinished. -/
theorem Shaped.unfinished? (h : g.Shaped) (t : Nat)
    (hends : ∀ {n}, g.Fills t n → n ≠ 0 → g.Ends t n) : g.unfinished? t = none := by
  obtain ⟨n, hn, hkeys⟩ := h.tasks t
  unfold Graph.unfinished?
  split
  · rfl
  · rename_i hnodes
    rcases hkeys with hkeys | ⟨hkeys, hlabel⟩
    · have hn0 : n ≠ 0 := by
        rintro rfl
        exact hnodes (by rw [hasNodes, hkeys]; rfl)
      obtain ⟨e, he, hend⟩ := hends hn hn0
      rw [lastOf_eq hkeys]
      rw [Graph.event?, Option.map_eq_some_iff] at he
      obtain ⟨m, hm, rfl⟩ := he
      rw [hm]
      dsimp only
      rw [if_pos]
      rcases hend with hkind | ⟨hkind, hholds⟩
      · simp [Node.kind, hkind]
      · simp [Node.kind, hkind, hholds]
    · rw [lastOf_eq hkeys]
      obtain ⟨e, he, hblock⟩ := isLabel_iff_event?.mp hlabel
      rw [Graph.event?, Option.map_eq_some_iff] at he
      obtain ⟨m, hm, rfl⟩ := he
      rw [show Key.prior t (n + 1) = .place t n from rfl, hm]
      dsimp only
      rw [if_pos (by simp [Node.kind, hblock])]

namespace WellFormed

variable (h : g.WellFormed)
include h

/-- A write comes right before one other write at most. -/
theorem successors_coherency (hloc : loc ≠ .thread)
    (hab : [a, b] <:+: g.chain loc) (ha : a ≠ .init) {m : Node} (hm : g.find? a = some m) :
    m.successors .coherency = [b] := by
  have hwrite : g.WritesTo a loc :=
    (h.mem_chain hloc (hab.subset List.mem_cons_self)).resolve_left ha
  refine eq_singleton (Edges.nodup_keys (h.tidy.succ hm)) fun c => ?_
  rw [mem_successors hm]
  constructor
  · intro hout
    obtain ⟨loc', hloc', hac⟩ := h.coherency.mp (h.tidy.known hout)
    have hwrite' : g.WritesTo a loc' :=
      (h.mem_chain hloc' (hac.subset List.mem_cons_self)).resolve_left ha
    obtain rfl := hwrite.unique hwrite'
    exact eq_of_adjacent (h.nodup_chain hloc) hac hab
  · rintro rfl
    exact h.mirrored _ _ _ (h.coherency.mpr ⟨loc, hloc, hab⟩)

/-- The writes of a chain are linked from one of them on. -/
theorem chainFault? (hloc : loc ≠ .thread) (hks : ks <:+ g.chain loc) :
    g.chainFault? loc ks = none := by
  induction ks with
  | nil => rfl
  | cons a ks ih =>
    cases ks with
    | nil => rfl
    | cons b ks =>
      have hmore := ih ((List.suffix_cons a (b :: ks)).trans hks)
      have hab : [a, b] <:+: g.chain loc :=
        (show [a, b] <+: a :: b :: ks from ⟨ks, rfl⟩).isInfix.trans hks.isInfix
      rw [Graph.chainFault?]
      cases hm : g.find? a with
      | none => exact hmore
      | some m =>
        dsimp only
        have hedge : m.hasEdge .coherency b = true := by
          rw [Node.hasEdge, List.contains_iff_mem]
          exact (out_iff hm).mp (h.mirrored _ _ _ (h.coherency.mpr ⟨loc, hloc, hab⟩))
        rw [if_neg (by simp [hedge])]
        by_cases ha : a = .init
        · rw [if_neg (by rw [ha]; simp [Key.isInit, Key.init])]
          exact hmore
        · rw [h.successors_coherency hloc hab ha hm, if_neg (by simp)]
          exact hmore

/-- **The writes of every chain are linked.** -/
theorem checkCoherencyEdges : g.checkCoherencyEdges = .ok () := by
  have hnone : (g.chains.findSome? fun c => if c.1 = .thread then none else g.chainFault? c.1 c.2) =
      none := by
    refine List.findSome?_eq_none_iff.mpr fun c hc => ?_
    split
    · rfl
    · rename_i hloc
      exact h.chainFault? hloc (by rw [h.chain_of_mem hc])
  unfold Graph.checkCoherencyEdges
  rw [hnone]

/-- **Every read has one source.** -/
theorem checkReadsFromEdges : g.checkReadsFromEdges = .ok () := by
  have hnone : (g.events.find? fun n => n.kind.isRead &&
      (n.predecessors .readsFrom).length != 1) = none := by
    refine List.find?_eq_none.mpr fun n hn => ?_
    obtain ⟨k, -, hk⟩ := List.mem_filterMap.mp hn
    by_cases hread : n.kind.isRead = true
    · have hreads : g.ReadsAt k n.location := ⟨n.event, by rw [event?, hk]; rfl, hread, rfl⟩
      obtain ⟨w, -, hpreds⟩ := h.toWired.sources hreads hk
      simp [hpreds]
    · simp [hread]
  unfold Graph.checkReadsFromEdges
  rw [hnone]

/-- **The check of completed executions** accepts a consistent graph all of whose tasks have come to
their ends. -/
theorem checkExtensive (hconsistent : ∃ ns, g.consistentOrder = .ok (some ns))
    (hends : ∀ {t n : Nat}, g.Fills t n → n ≠ 0 → g.Ends t n) : g.checkExtensive = .ok () := by
  obtain ⟨ns, hns⟩ := hconsistent
  have hnone : (List.range g.tasks.length).findSome? g.unfinished? = none :=
    List.findSome?_eq_none_iff.mpr fun t _ => h.unfinished? t hends
  unfold Graph.checkExtensive
  rw [hns]
  simp only [bind, Except.bind]
  rw [hnone, h.checkCoherencyEdges]
  exact h.checkReadsFromEdges

end WellFormed

end Interleaving.Graph
