import Interleaving.Proofs.Graph.Recorded

/-!
# Questions about alternatives

When a write is recorded, the graph is asked before which writes it could take effect and which
earlier reads could see it. On a recorded graph the questions have answers
(`Interleaving.Graph.Writing.coherentPlacings`, `Interleaving.Graph.Writing.potentialReads`,
`Interleaving.Graph.Writing.alternativeLockReads`): reads of the location that do not happen before
the write.
-/

namespace Interleaving.Graph

variable {g : Graph} {k w : Key} {loc : Location} {l ks : List Key}

/-- A list is mapped when each of its elements can be. -/
theorem mapM_ok {α β ε : Type} {f : α → Except ε β} {P : α → β → Prop} (xs : List α)
    (h : ∀ x ∈ xs, ∃ y, f x = .ok y ∧ P x y) : ∃ ys, xs.mapM f = .ok ys ∧ ∀ y ∈ ys,
    ∃ x ∈ xs, P x y := by
  induction xs with
  | nil => exact ⟨[], rfl, by simp⟩
  | cons x xs ih =>
    obtain ⟨y, hy, hP⟩ := h x List.mem_cons_self
    obtain ⟨ys, hys, hall⟩ := ih fun x hx => h x (List.mem_cons_of_mem _ hx)
    refine ⟨y :: ys, ?_, fun y' hy' => ?_⟩
    · rw [List.mapM_cons, hy]
      simp only [bind, Except.bind, hys, pure, Except.pure]
    · rcases List.mem_cons.mp hy' with rfl | hy'
      · exact ⟨x, List.mem_cons_self, hP⟩
      · obtain ⟨x', hx', hP'⟩ := hall y' hy'
        exact ⟨x', List.mem_cons_of_mem _ hx', hP'⟩

/-- The way back is never empty. -/
theorem upToBefore_ne_nil {target : Key} (h : ks ≠ []) : g.upToBefore target ks ≠ [] := by
  cases ks with
  | nil => exact absurd rfl h
  | cons k ks =>
    unfold upToBefore
    split <;> simp

/-- The way back lists writes of the chain. -/
theorem mem_of_mem_upToBefore {target : Key} (h : k ∈ g.upToBefore target ks) : k ∈ ks := by
  induction ks with
  | nil => exact h
  | cons x ks ih =>
    unfold upToBefore at h
    split at h
    · rw [List.mem_singleton.mp h]
      exact List.mem_cons_self
    · rcases List.mem_cons.mp h with rfl | h
      · exact List.mem_cons_self
      · exact List.mem_cons_of_mem _ (ih h)

theorem mem_of_mem_splitBefore {target : Key} (h : k ∈ g.splitBefore target ks) : k ∈ ks :=
  List.mem_reverse.mp (mem_of_mem_upToBefore h)

theorem splitBefore_ne_nil {target : Key} (h : ks ≠ []) : g.splitBefore target ks ≠ [] :=
  upToBefore_ne_nil (by simpa using h)

/-- Nothing is older than a last write that happens before the target. -/
theorem splitBefore_of_last {target : Key} (h : g.happensBefore k target = true) :
    g.splitBefore target (ks ++ [k]) = [k] := by
  unfold splitBefore
  rw [List.reverse_append, List.reverse_singleton, List.singleton_append, upToBefore, if_pos h]

namespace Writing

variable (h : g.Writing l w loc)
include h

theorem filter_chain : ((g.chain loc).filter fun k => k != w) = g.chain loc := by
  rw [List.filter_eq_self]
  intro k hk
  rw [bne_iff_ne]
  rintro rfl
  exact h.absent hk

theorem mem_of_mem_chain (hk : k ∈ g.chain loc) : k ∈ g.order := by
  rcases h.mem_chain h.location hk with rfl | hwrite
  · exact h.init_mem
  · exact h.mem_of_writesTo hwrite

/-- **The placings of a write** are known. -/
theorem coherentPlacings : ∃ ks, g.coherentPlacings w = .ok ks := by
  unfold Graph.coherentPlacings
  split
  · exact ⟨[], rfl⟩
  · rw [locationOf_eq h.write, h.filter_chain]
    dsimp only
    rw [if_neg (by simpa using splitBefore_ne_nil h.touched)]
    exact ⟨_, rfl⟩

/-- The readers of a write are known. -/
theorem readersOf (hk : k ∈ g.order) :
    ∃ ns, g.readersOf k = .ok ns ∧ ∀ n ∈ ns, g.In .readsFrom k n.key ∧ g.find? n.key = some n := by
  obtain ⟨m, hm⟩ := h.find? hk
  unfold Graph.readersOf
  rw [hm, Option.map_some, Option.getD_some]
  obtain ⟨ns, hns, hall⟩ := mapM_ok (m.successors .readsFrom) (f := g.node)
    (P := fun r n => r = n.key ∧ g.find? r = some n) (fun r hr => by
      have hr := (mem_successors hm).mp hr
      have hmem := h.target_mem hr (by decide)
      obtain ⟨n, hn⟩ := h.find? hmem
      exact ⟨n, h.node hmem hn, (key_of_find? hn).symm, hn⟩)
  refine ⟨ns, hns, fun n hn => ?_⟩
  obtain ⟨r, hr, rfl, hfind⟩ := hall n hn
  exact ⟨h.tidy.known ((mem_successors hm).mp hr), hfind⟩

/-- Whether a write has free readers can be told. -/
theorem hasFreeReaders (hk : k ∈ g.order) : ∃ b, g.hasFreeReaders k = .ok b := by
  obtain ⟨ns, hns, -⟩ := h.readersOf hk
  unfold Graph.hasFreeReaders
  split
  · unfold exclusiveReaders
    rw [hns]
    exact ⟨_, rfl⟩
  · exact ⟨true, rfl⟩

/-- The reads that could see a write instead of some others: they do not happen before it. -/
theorem concurrentReaders {sources : List Key} (hsources : ∀ s ∈ sources, s ∈ g.order)
    (wanted : Node → Bool) :
    ∃ rs, g.concurrentReaders w loc sources wanted = .ok rs ∧ ∀ r ∈ rs,
      g.ReadsAt r loc ∧ g.happensBefore r w = false ∧ ∃ s ∈ sources, g.In .readsFrom s r := by
  obtain ⟨nss, hnss, hall⟩ := mapM_ok sources (f := g.readersOf)
    (P := fun s ns => ∀ n ∈ ns, g.In .readsFrom s n.key ∧ g.find? n.key = some n)
    (fun s hs => h.readersOf (hsources s hs))
  refine ⟨(nss.flatten.filter fun r => wanted r && r.location == loc &&
    !g.happensBefore r.key w).map (·.key), ?_,
    fun r hr => ?_⟩
  · unfold Graph.concurrentReaders
    simp only [bind, Except.bind, hnss, pure, Except.pure]
  obtain ⟨n, hn, rfl⟩ := List.mem_map.mp hr
  obtain ⟨hmem, htest⟩ := List.mem_filter.mp hn
  simp only [Bool.and_eq_true, beq_iff_eq, Bool.not_eq_true'] at htest
  obtain ⟨ns, hns, hn⟩ := List.mem_flatten.mp hmem
  obtain ⟨s, hs, hP⟩ := hall ns hns
  obtain ⟨hin, hfind⟩ := hP n hn
  obtain ⟨loc', e, he, hread, -⟩ := h.reads hin
  have heq : e = n.event := by
    rw [event?, hfind] at he
    exact (Option.some.inj he).symm
  exact ⟨⟨e, he, hread, by rw [heq]; exact htest.1.2⟩, htest.2, s, hs, hin⟩

/-- **The reads that could see a write** are known. -/
theorem potentialReads : ∃ rs, g.potentialReads w = .ok rs ∧ ∀ r ∈ rs,
    g.ReadsAt r loc ∧ g.happensBefore r w = false ∧ ∃ s ∈ g.splitBefore w (g.chain loc),
    g.In .readsFrom s r := by
  have hchain : ∀ s ∈ g.splitBefore w (g.chain loc), s ∈ g.order := fun s hs =>
    h.mem_of_mem_chain (mem_of_mem_splitBefore hs)
  obtain ⟨free, hfree, hall⟩ := mapM_ok (g.splitBefore w (g.chain loc))
    (f := fun k => (g.hasFreeReaders k).map fun b => (k, b)) (P := fun k p => p.1 = k)
    (fun s hs => by
      obtain ⟨b, hb⟩ := h.hasFreeReaders (hchain s hs)
      exact ⟨(s, b), by rw [hb]; rfl, rfl⟩)
  have hsub : ∀ s ∈ (free.filter (·.2)).map (·.1), s ∈ g.splitBefore w (g.chain loc) := by
    intro s hs
    obtain ⟨p, hp, rfl⟩ := List.mem_map.mp hs
    obtain ⟨x, hx, hpx⟩ := hall p (List.mem_of_mem_filter hp)
    rw [hpx]
    exact hx
  obtain ⟨rs, hrs, hreads⟩ := h.concurrentReaders (fun s hs => hchain s (hsub s hs)) fun _ => true
  refine ⟨rs, ?_, fun r hr => ?_⟩
  · unfold Graph.potentialReads
    dsimp only
    rw [locationOf_eq h.write, h.filter_chain, if_neg (by simpa using splitBefore_ne_nil h.touched)]
    simp only [bind, Except.bind, hfree]
    exact hrs
  · obtain ⟨hread, hnot, s, hs, hin⟩ := hreads r hr
    exact ⟨hread, hnot, s, hsub s hs, hin⟩

/-- **The lock reads that could see an acquisition** are known. -/
theorem alternativeLockReads : ∃ rs, g.alternativeLockReads w = .ok rs ∧ ∀ r ∈ rs,
    g.ReadsAt r loc ∧ g.happensBefore r w = false := by
  have hsources : ∀ s ∈ g.splitBefore w
      ((((g.chain loc).reverse.takeWhile fun k => !g.isFinalLockWrite k).reverse).filter
        fun k => k != w),
      s ∈ g.order := by
    intro s hs
    refine h.mem_of_mem_chain ?_
    have hs := List.mem_of_mem_filter (mem_of_mem_splitBefore hs)
    exact List.mem_reverse.mp ((List.takeWhile_sublist _).mem (List.mem_reverse.mp hs))
  obtain ⟨rs, hrs, hreads⟩ := h.concurrentReaders hsources fun r => r.kind = .lockAcquireRead
  refine ⟨rs, ?_, fun r hr => ⟨(hreads r hr).1, (hreads r hr).2.1⟩⟩
  unfold Graph.alternativeLockReads
  rw [locationOf_eq h.write]
  exact hrs

/-- **No exclusive read could see the write of an atomic update** that is recorded: the one that it
completes saw the last write before it. -/
theorem not_exclusive (hp : g.Paired) {own r : Key} (hown : g.In .programOrder own w)
    (hsource : g.In .readsFrom (g.lastWrite loc) own) (hread : g.ReadsAt r loc)
    (hnot : g.happensBefore r w = false)
    (hr : ∃ s ∈ g.splitBefore w (g.chain loc), g.In .readsFrom s r) : ¬g.LocksAt r loc := by
  have hw := h.mem_of_writesTo h.write
  have hmem : own ∈ g.order := h.source_mem hown
  have hlast : g.happensBefore (g.lastWrite loc) w = true :=
    (h.happensBefore_iff (h.source_mem hsource) hw).mpr
      (.tail (.single ⟨.readsFrom, rfl, hsource⟩) ⟨.programOrder, rfl, hown⟩)
  -- the last write happens before the update, so no other source comes in question
  obtain ⟨s, hs, hin⟩ := hr
  rw [chain_eq_concat h.touched, splitBefore_of_last hlast] at hs
  obtain rfl := List.mem_singleton.mp hs
  rintro ⟨e, he, hex, hloc⟩
  obtain ⟨e', he', hpair, hloc'⟩ := hp.completed he hex
  have hwrites : g.WritesTo r.next loc := by
    refine ⟨e', he', ?_, hloc'.trans hloc⟩
    revert hpair
    generalize e.kind = kind
    generalize e'.kind = kind'
    cases kind <;> cases kind' <;> decide
  have hnext := h.mem_of_writesTo hwrites
  have hpo : g.In .programOrder r r.next := by
    obtain ⟨t, i, hplace⟩ := (h.key hnext).resolve_left (h.ne_init_of_writesTo hwrites)
    have hprior := h.linked (hplace ▸ h.has hnext)
    rw [hplace]
    cases i with
    | zero =>
      exfalso
      obtain ⟨u, j, rfl⟩ :=
        (h.key (h.mem_of_readsAt hread)).resolve_left (h.ne_init_of_readsAt hread)
      have hseq := congrArg Key.seq hplace
      simp only [Key.next, Key.place] at hseq
      omega
    | succ i =>
      have heq : Key.place t i = r := Key.next_injective (hplace.symm ▸ rfl)
      rw [← heq]
      exact hprior
  -- the write of such a read is the new one, or it is newer than the last write
  by_cases hnw : r.next = w
  · have hpast : g.Past r w := .single ⟨.programOrder, rfl, hnw ▸ hpo⟩
    rw [(h.happensBefore_iff (h.mem_of_readsAt hread) hw).mpr hpast] at hnot
    cases hnot
  · have hchain := (h.written hwrites hnw).2
    have hrl := h.linear.edge (h.mem_of_readsAt hread) hin
    have hnr := h.linear.edge hnext hpo
    rcases before_lastWrite (h.nodup_chain h.location) hchain with heq | hbefore
    · exact (hrl.trans hnr).ne heq.symm
    · exact ((rel_of_before (h.explained.coherent h.location) hbefore).trans hrl).asymm hnr

end Writing

end Interleaving.Graph
