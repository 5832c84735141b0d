import Interleaving.Proofs.Graph.Checking
import Interleaving.Proofs.Graph.Relinking
import Interleaving.Revisit.Backward

/-!
# What is enumerated in any order

The relations of a node, the chains of a graph and the events that a revisit takes back are kept
without an order of their own, and whoever goes through them meets them in some order. **No order
makes a difference** (`Interleaving.BackwardRevisit.enumeration_irrelevant`): a graph gets the same
verdict with the same events to explain it, the same clocks or the same complaint, the same graph
without a set of events, and a revisit is accepted in one order just when it is in another.

Of the events that are taken back one is enough to reject a revisit, and the test ends there. They
are tested in the order of their keys, whatever order they are kept in, except for keys of negative
tasks, which all stand for the first event and compare as equal. Such a key is always judged without
an error, so that their order does not matter either
(`Interleaving.BackwardRevisit.allMaximal_sort`).
-/

namespace Interleaving

namespace BackwardRevisit

open Interleaving.Graph

variable {v v' : BackwardRevisit} {k : Key} {ks ls : List Key} {m n : Node}

/-! ### Views of shuffled graphs -/

section Shuffled

variable (hs : Shuffled v.graph v'.graph) (hwrite : v'.write = v.write)
include hs hwrite

theorem previous_shuffled (i : Int) (k : Key) : v'.previous i k = v.previous i k := by
  have hbefore : ∀ a b, v'.graph.happensBefore a b = v.graph.happensBefore a b := by
    intro a b
    unfold Graph.happensBefore
    cases hm : v.graph.find? a with
    | none => rw [hs.find?_eq_none hm]
    | some m =>
      obtain ⟨m', hm', hmm'⟩ := hs.find? hm
      rw [hm']
      cases hn : v.graph.find? b with
      | none => rw [hs.find?_eq_none hn]
      | some n =>
        obtain ⟨n', hn', hnn'⟩ := hs.find? hn
        rw [hn']
        dsimp only
        rw [Node.happensBefore, Node.happensBefore, hmm'.clock, hnn'.clock]
  have hnode := hs.node_cases k
  unfold Graph.node at hnode
  unfold previous
  cases hm : v.graph.node? k with
  | none =>
    rw [hm] at hnode
    rcases hnode with ⟨e, -, he⟩ | ⟨m, n, hm', -⟩
    · split at he
      · cases he
      · rename_i hnone
        rw [hnone]
    · cases hm'
  | some m =>
    obtain ⟨n, hn, hmn⟩ := hs.node? hm
    rw [hn]
    dsimp only
    rw [hs.indexOf?, hbefore, hwrite, hmn.key]

omit hwrite in
theorem sourceOf_shuffled (hmn : m.Shuffled n) :
    (∃ e, v.sourceOf m = .error e ∧ v'.sourceOf n = .error e) ∨
      ∃ x y, v.sourceOf m = .ok x ∧ v'.sourceOf n = .ok y ∧ x.Shuffled y := by
  unfold sourceOf
  rw [hmn.kind, hmn.predecessors, hmn.key]
  split
  · split
    · exact hs.node_cases _
    · exact Or.inl ⟨_, rfl, rfl⟩
  · exact Or.inr ⟨m, n, rfl, rfl, hmn⟩

/-- An event is judged in the same way. -/
theorem isMaximalAt_shuffled (hlocs : (v.graph.chains.map (·.1)).Nodup) (k : Key) :
    v'.isMaximalAt k = v.isMaximalAt k := by
  have hprevious : v'.previous = v.previous := by
    funext i k
    exact previous_shuffled hs hwrite i k
  unfold isMaximalAt
  rcases hs.node_cases k with ⟨e, hm, hn⟩ | ⟨m, n, hm, hn, hmn⟩
  · rw [hm, hn]
    rfl
  · rw [hm, hn]
    simp only [bind, Except.bind, hmn.kind, hmn.successors, hmn.location, hs.indexOf?, hprevious]
    rcases sourceOf_shuffled hs hmn with ⟨e, hx, hy⟩ | ⟨x, y, hx, hy, hxy⟩
    · rw [hx, hy]
    · rw [hx, hy]
      simp only [hxy.key, hxy.location, hs.chain hlocs]

end Shuffled

/-! ### The order of the events that are taken back -/

/-- Whether all of some keys are no reason against a revisit, when none of them is judged with an
error. -/
theorem allMaximal_append (hks : ∀ k ∈ ks, ∃ b, v.isMaximalAt k = .ok b) :
    v.allMaximal (ks ++ ls) =
      if ∀ k ∈ ks, v.isMaximalAt k = .ok true then v.allMaximal ls else .ok false := by
  induction ks with
  | nil => simp
  | cons k ks ih =>
    obtain ⟨b, hb⟩ := hks k List.mem_cons_self
    rw [List.cons_append, allMaximal, hb]
    cases b with
    | true =>
      simp only [bind, Except.bind, if_true, List.forall_mem_cons, hb, true_and]
      exact ih fun k hk => hks k (List.mem_cons_of_mem _ hk)
    | false => simp [bind, Except.bind, pure, Except.pure, hb]

/-- A key that stands for the first event is judged without an error. -/
theorem isMaximalAt_of_isInit (hg : v.graph.Regular) (hk : k.isInit = true) :
    ∃ b, v.isMaximalAt k = .ok b := by
  obtain ⟨n, hn⟩ := hg.find? hg.init_mem
  have hkind : n.kind = .init := hg.initial (by rw [Graph.event?, hn]; rfl)
  have hnode : v.graph.node k = .ok n := by
    unfold Graph.node Graph.node?
    rw [if_pos hk, hg.first, Option.bind_some, hn]
  unfold isMaximalAt sourceOf
  rw [hnode]
  simp only [bind, Except.bind, pure, Except.pure, hkind, show Kind.isMarker .init = false from rfl,
    show Kind.isRead .init = false from rfl, Bool.false_eq_true, if_false]
  split
  · exact ⟨_, rfl⟩
  · split
    · exact ⟨_, rfl⟩
    · exact ⟨_, rfl⟩

/-- In increasing order the keys that stand for the first event come first. -/
theorem eq_append_of_pairwise (h : ks.Pairwise fun a b => (a.compare b != .gt) = true) :
    ks = ks.filter (·.isInit) ++ ks.filter fun k => !k.isInit := by
  induction ks with
  | nil => rfl
  | cons k ks ih =>
    obtain ⟨hk, hks⟩ := List.pairwise_cons.mp h
    cases hinit : k.isInit with
    | true =>
      rw [List.filter_cons_of_pos hinit, List.filter_cons_of_neg (by simp [hinit]),
        List.cons_append, ← ih hks]
    | false =>
      -- nothing that stands for the first event comes later
      have hnone : ∀ l ∈ ks, l.isInit = false := by
        intro l hl
        have hle := Key.compare_ne_gt_iff.mp (hk l hl)
        simp only [Key.isInit, decide_eq_false_iff_not] at hinit ⊢
        omega
      have hfilter : ks.filter (·.isInit) = [] := List.filter_eq_nil_iff.mpr fun l hl => by
        simp [hnone l hl]
      have hall : (ks.filter fun k => !k.isInit) = ks := List.filter_eq_self.mpr fun l hl => by
        simp [hnone l hl]
      rw [List.filter_cons_of_neg (by simp [hinit]), List.filter_cons_of_pos (by simp [hinit]),
        hfilter, hall]
      rfl

/-- **The events that are taken back are judged alike in every order.** -/
theorem allMaximal_sort (hg : v.graph.Regular) (hperm : ls.Perm ks) (rest : List Key) :
    v.allMaximal (Key.sort ls ++ rest) = v.allMaximal (Key.sort ks ++ rest) := by
  have hsorted : (Key.sort ls).Perm (Key.sort ks) :=
    (Key.sort_perm ls).trans (hperm.trans (Key.sort_perm ks).symm)
  have hothers : ((Key.sort ls).filter fun k => !k.isInit) = (Key.sort ks).filter fun k =>
    !k.isInit := by
    refine Key.eq_of_sorted ((Key.pairwise_sort ls).filter _) ((Key.pairwise_sort ks).filter _)
      (hsorted.filter _) ?_
    intro k hk hinit
    simp [hinit] at hk
  have hjudged : ∀ l : List Key, ∀ k ∈ l.filter (·.isInit), ∃ b, v.isMaximalAt k = .ok b :=
    fun l k hk => isMaximalAt_of_isInit hg (List.mem_filter.mp hk).2
  rw [eq_append_of_pairwise (Key.pairwise_sort ls), eq_append_of_pairwise (Key.pairwise_sort ks),
    List.append_assoc, List.append_assoc, allMaximal_append (hjudged _),
    allMaximal_append (hjudged _), hothers]
  simp only [(hsorted.filter _).mem_iff]

/-- **A revisit is accepted in every order or in none.** -/
theorem isMaximal_shuffled (hg : v.graph.Regular) (hs : Shuffled v.graph v'.graph)
    (hremoved : v'.removed.Perm v.removed) (hread : v'.read = v.read)
    (hwrite : v'.write = v.write) : v'.isMaximal = v.isMaximal := by
  have hall : v'.allMaximal = v.allMaximal := by
    funext ks
    induction ks with
    | nil => rfl
    | cons k ks ih => rw [allMaximal, allMaximal, isMaximalAt_shuffled hs hwrite hg.locations, ih]
  have hcontains : v'.removed.contains v.read = v.removed.contains v.read := by
    simp only [List.contains_eq_mem, hremoved.mem_iff]
  unfold isMaximal removedKeys
  rw [hall, hread, hcontains, allMaximal_sort hg hremoved]

/-- **No order of enumeration makes a difference** for a regular graph, however its chains and the
relations of its nodes are gone through. It gets the same verdict, with the same events to explain
it; its clocks are computed to the same end; any set of events is refused, or leaves the same total
order, the same chains and the same edges, also when the chains that lose a write are linked anew in
another order; and a revisit is accepted or rejected alike. -/
theorem enumeration_irrelevant {g h : Graph} (hg : g.Regular) (hs : Shuffled g h) :
    (∃ o o', g.consistentOrder = .ok o ∧ h.consistentOrder = .ok o' ∧
      o'.map (·.map (·.event)) = o.map (·.map (·.event))) ∧
    SameOutcome (recomputeClocks g) (recomputeClocks h) ∧
    (∀ removed removed' : List Key, removed'.Perm removed →
      (∃ k ∈ removed, ∃ k' ∈ removed', g.restrictBySet removed = .error (.noSuchEvent k) ∧
        h.restrictBySet removed' = .error (.noSuchEvent k')) ∨
      ∃ g' h', g.restrictBySet removed = .ok g' ∧ h.restrictBySet removed' = .ok h' ∧
        SameUpToListing g' h' ∧
        ∀ locs, locs.Perm (h.touchedLocations removed') →
          SameUpToListing g' (h.pruneAlong removed' locs)) ∧
    ∀ v v' : BackwardRevisit, v.graph = g → v'.graph = h → v'.removed.Perm v.removed →
      v'.read = v.read → v'.write = v.write → v'.isMaximal = v.isMaximal := by
  refine ⟨hg.consistentOrder_shuffled hs, hg.recomputeClocks_shuffled hs,
    fun removed removed' hperm => hg.restrictBySet_shuffled hs fun k => hperm.mem_iff, ?_⟩
  rintro v v' rfl rfl hremoved hread hwrite
  exact isMaximal_shuffled hg hs hremoved hread hwrite

/-! ### An order turned around -/

/-- A read that sees a write of another task, and a write of that task to a location of its own. -/
def busyGraph : Graph :=
  ((observedGraph.ensureTask 0).insertEvent (.new 0 .write 2)).trackCoherency (.place 0 1)

/-- The same graph with its chains, and the relations that lead to every node, in the opposite
order. -/
def turnedGraph : Graph :=
  { busyGraph with
    nodes := busyGraph.nodes.map fun n => { n with pred := n.pred.reverse }
    chains := busyGraph.chains.reverse }

theorem regular_busyGraph : busyGraph.Regular := by
  have hadd : Edits observedGraph ((observedGraph.ensureTask 0).insertEvent (.new 0 .write 2)) :=
    .addEvent (e := .new 0 .write 2) (k := .place 0 1) (by decide) (by decide)
      ⟨fun _ => by decide, fun hkind => absurd hkind (by decide)⟩ rfl
  have hwrite : ((observedGraph.ensureTask 0).insertEvent (.new 0 .write 2)).WritesTo
    (.place 0 1) 2 := ⟨_, rfl, rfl, rfl⟩
  exact regular_of_edits
    ((edits_observedGraph.tail hadd).tail (.trackCoherency hwrite (Or.inl (by decide))))

theorem shuffled_turnedGraph : Shuffled busyGraph turnedGraph := by
  have hkeys : ∀ n ∈ busyGraph.nodes, ∀ r ∈ Relation.all,
    Edges.keys n.pred.reverse r = n.pred.keys r := by decide
  refine ⟨?_, rfl, rfl, List.reverse_perm _, rfl⟩
  rw [show turnedGraph.nodes = busyGraph.nodes.map fun n =>
    { n with pred := n.pred.reverse } from rfl, List.forall₂_map_right_iff, List.forall₂_same]
  exact fun n hn => ⟨rfl, rfl, rfl, fun _ => rfl, fun r => hkeys n hn r (by cases r <;> decide)⟩

/-- The graph turned around is consistent like the other one, its clocks can be computed, and the
read and the last write can be taken out one way round and the other. -/
theorem enumeration_turnedGraph : busyGraph.Regular ∧ Shuffled busyGraph turnedGraph ∧
    turnedGraph.chains ≠ busyGraph.chains ∧ turnedGraph.nodes ≠ busyGraph.nodes ∧
    (∃ ns, turnedGraph.consistentOrder = .ok (some ns)) ∧
    SameOutcome (recomputeClocks busyGraph) (recomputeClocks turnedGraph) ∧
    ∃ g' h', busyGraph.restrictBySet [.place 1 0, .place 0 1] = .ok g' ∧
      turnedGraph.restrictBySet [.place 0 1, .place 1 0] = .ok h' ∧ SameUpToListing g' h' := by
  obtain ⟨⟨o, o', ho, ho', hevents⟩, hclocks, hrestrict, -⟩ :=
    enumeration_irrelevant regular_busyGraph shuffled_turnedGraph
  refine ⟨regular_busyGraph, shuffled_turnedGraph, by decide, by decide, ?_, hclocks, ?_⟩
  · cases o' with
    | some ns => exact ⟨ns, ho'⟩
    | none =>
      have hsome : (busyGraph.consistentOrder.toOption.join).isSome = true := by decide
      rw [ho] at hsome
      cases o with
      | none => cases hsome
      | some ns => cases hevents
  · rcases hrestrict [.place 1 0, .place 0 1] [.place 0 1, .place 1 0] (.swap ..) with
      ⟨k, -, -, -, hrefused, -⟩ | ⟨g', h', hg', hh', hsame, -⟩
    · have hgood : ∀ k ∈ [Key.place 1 0, Key.place 0 1],
        k ∈ busyGraph.order ∧ k.isInit = false := by decide
      rw [restrictBySet_eq regular_busyGraph.chained hgood] at hrefused
      cases hrefused
    · exact ⟨g', h', hg', hh', hsame⟩

end BackwardRevisit

end Interleaving
