import Interleaving.Proofs.Graph.Discarded
import Interleaving.Proofs.Revisit.Maximal

/-!
# Revisits in a steady graph

The latest write of a live graph may be seen by earlier reads that do not happen before it
(`Interleaving.Graph.Overtakes`). A backward revisit to such a read takes back what is closed under
program order, whether the graph is regular or not, since clocks rise along every task
(`Interleaving.Graph.Steady.removable_displaced`). So the revisit can be applied without leaving
anything behind in a task (`Interleaving.Graph.Offer.restrict`), and an event that it adds again is
one that it has taken back, so there is room for it.
-/

namespace Interleaving

namespace Graph

variable {g g' : Graph} {k w read s : Key} {e : Event} {t n : Nat} {loc : Location}
  {removed rs : List Key} {N M : Nat} {v : BackwardRevisit}

/-! ### Reads that could see a new write -/

/-- An earlier event that does not happen before a new write. -/
structure Overtakes (g : Graph) (w read : Key) : Prop where
  mem : read ∈ g.order
  ne : read ≠ w
  ne_init : read ≠ .init
  not : g.happensBefore read w = false

theorem Overtakes.resembles (h : g.Overtakes w read) (hw : w ∈ g.order) (hg : g.Shaped)
    (hg' : g'.Shaped) (hr : Resembles g g') : g'.Overtakes w read :=
  ⟨hr.order ▸ h.mem, h.ne, h.ne_init, (hr.happensBefore hg hg' h.mem hw).trans h.not⟩

/-- The readers of a write are events that see it. -/
theorem Shaped.in_of_mem_readersOf (h : g.Shaped) {ns : List Node}
    (hns : g.readersOf s = .ok ns) {m : Node} (hm : m ∈ ns) :
    m.key ∈ g.order ∧ g.In .readsFrom s m.key := by
  unfold readersOf at hns
  cases hs : g.find? s with
  | none =>
    rw [hs] at hns
    cases hns
    cases hm
  | some ms =>
    rw [hs, Option.map_some, Option.getD_some] at hns
    obtain ⟨r, hr, hnode⟩ := (mem_of_mapM_ok hns).mp hm
    have hr := (mem_successors hs).mp hr
    have hmem := h.target_mem hr (by decide)
    obtain rfl := key_of_find? (h.node_eq hmem hnode)
    exact ⟨hmem, h.tidy.known hr⟩

section Readers

variable (h : g.Live N) (hw : g.Newcomer w e)
include h hw

theorem Live.overtakes_of_concurrentReaders {sources : List Key} {wanted : Node → Bool}
    (hrs : g.concurrentReaders w loc sources wanted = .ok rs) : ∀ r ∈ rs, g.Overtakes w r := by
  intro r hr
  unfold concurrentReaders at hrs
  cases hnss : sources.mapM g.readersOf with
  | error cause =>
    rw [hnss] at hrs
    cases hrs
  | ok nss =>
    rw [hnss] at hrs
    obtain rfl := Except.ok.inj hrs
    obtain ⟨m, hm, rfl⟩ := List.mem_map.mp hr
    obtain ⟨hm, htest⟩ := List.mem_filter.mp hm
    obtain ⟨ns, hns, hm⟩ := List.mem_flatten.mp hm
    obtain ⟨s, -, hreaders⟩ := (mem_of_mapM_ok hnss).mp hns
    obtain ⟨hmem, hin⟩ := h.toShaped.in_of_mem_readersOf hreaders hm
    simp only [Bool.and_eq_true, Bool.not_eq_true'] at htest
    exact ⟨hmem, fun heq => hw.unseeing s (heq ▸ hin), fun heq => h.no_cause (heq ▸ hin), htest.2⟩

/-- **The reads that are asked** do not happen before the write. -/
theorem Live.overtakes_of_potentialReads (hrs : g.potentialReads w = .ok rs) :
    ∀ r ∈ rs, g.Overtakes w r := by
  unfold potentialReads at hrs
  dsimp only at hrs
  split at hrs
  · cases hrs
  · cases hfree : (g.splitBefore w ((g.chain (g.locationOf w)).filter fun k => k != w)).mapM
      fun k => (g.hasFreeReaders k).map fun b => (k, b) with
    | error cause =>
      simp only [hfree] at hrs
      cases hrs
    | ok free =>
      simp only [hfree] at hrs
      exact h.overtakes_of_concurrentReaders hw hrs

theorem Live.overtakes_of_alternativeLockReads (hrs : g.alternativeLockReads w = .ok rs) :
    ∀ r ∈ rs, g.Overtakes w r :=
  h.overtakes_of_concurrentReaders hw hrs

end Readers

/-! ### What a revisit takes back -/

/-- **What a revisit takes back is closed under program order**, with the read or without it. -/
theorem Steady.removable_displaced (h : g.Steady N)
    (hlatest : ∃ o, g.order = o ++ [w]) (hread : g.Overtakes w read) {i : Nat}
    (hindex : g.indexOf? read = some i) {more : List Key} (hmore : ∀ k ∈ more, k = read) :
    g.Removable (BackwardRevisit.displaced g w i ++ more) ∧
    w ∉ BackwardRevisit.displaced g w i ++ more := by
  obtain ⟨o₁, o₂, ho, hindex'⟩ := exists_split hlatest hread.mem hread.ne
  obtain rfl : i = o₁.length := Option.some.inj (hindex.symm.trans hindex')
  have hnodup := h.nodup
  have hbehind : ∀ {k}, k ∈ o₂ → k ≠ w := by
    rintro k hk rfl
    rw [ho] at hnodup
    have hdisj := (List.nodup_cons.mp (List.nodup_append.mp hnodup).2.1).2
    exact (List.nodup_append.mp hdisj).2.2 k hk k (List.mem_singleton_self k) rfl
  -- nothing that goes happens before the write, and it stands behind the read or is the read
  have hgone : ∀ {k}, k ∈ BackwardRevisit.displaced g w o₁.length ++ more →
      (k = read ∨ k ∈ o₂) ∧ g.happensBefore k w = false := by
    intro k hk
    rcases List.mem_append.mp hk with hk | hk
    · obtain ⟨hk, hnot⟩ := (mem_displaced ho).mp hk
      exact ⟨Or.inr hk, hnot⟩
    · rw [hmore k hk]
      exact ⟨Or.inl rfl, hread.not⟩
  have hmem : ∀ {k}, k ∈ BackwardRevisit.displaced g w o₁.length ++ more →
      k ∈ g.order ∧ k ≠ .init := by
    intro k hk
    rcases (hgone hk).1 with rfl | hk
    · exact ⟨hread.mem, hread.ne_init⟩
    · exact mem_of_mem_behind ho h.toShaped hread.ne_init hk
  refine ⟨⟨fun hin => (hmem hin).2 rfl, fun hk => (hmem hk).1, fun {t j j'} hlt hj hj' => ?_⟩,
    fun hin => ?_⟩
  · obtain ⟨hplace, hnot⟩ := hgone hj
    have hnot' : g.happensBefore (.place t j') w = false := by
      refine Bool.eq_false_iff.mpr fun hbefore => ?_
      rw [h.happensBefore_of_lt h.toShaped hlt hj' hbefore] at hnot
      cases hnot
    have hne : Key.place t j' ≠ w := by
      rintro rfl
      rw [h.happensBefore_of_place h.toShaped hlt hj'] at hnot
      cases hnot
    have hafter := (behind_of_before ho hnodup hplace (h.sequence hlt hj')).resolve_right hne
    exact List.mem_append_left _ ((mem_displaced ho).mpr ⟨hafter, hnot'⟩)
  · rcases (hgone hin).1 with heq | hk
    · exact hread.ne heq.symm
    · exact hbehind hk rfl

/-! ### Proposals -/

/-- **A proposal that leaves nothing behind in a task** when it is applied. -/
structure Offer (v : BackwardRevisit) (e : Event) (N : Nat) : Prop where
  live : v.graph.Live N
  unlabelled : ∀ k, v.graph.isLabel k = false
  newcomer : v.graph.Newcomer v.write e
  place : ∃ t n : Nat, v.read = .place t n
  removable : v.graph.Removable v.removed
  stays : v.write ∉ v.removed
  /-- What is added again is taken back. -/
  again : ∀ e' ∈ v.additional, ∃ t n : Nat, .place t n ∈ v.removed ∧
    v.graph.event? (.place t n) = some e'

/-- **A proposal for an earlier read** leaves nothing behind. -/
theorem Live.offer (h : g.Live N) (hw : g.Newcomer w e) (hread : g.Overtakes w read)
    (hv : BackwardRevisit.new g w read = .ok v) : Offer v e N ∧ v.write = w := by
  have hcopy := h.toSteady.copy
  have hlive : g.copy.Live N := h.resembles hcopy
  have hs := hcopy.1.toShaped
  have hr := hcopy.2
  have hnew : g.copy.Newcomer w e := hw.resembles hs hr
  have hplace : ∃ t n : Nat, read = .place t n := (h.key hread.mem).resolve_left hread.ne_init
  obtain ⟨i, hi⟩ := Option.isSome_iff_exists.mp (isSome_indexOf?.mpr hread.mem)
  obtain ⟨mr, hmr⟩ := hs.find? (hr.order ▸ hread.mem)
  obtain ⟨mw, hmw⟩ := hs.find? (hr.order ▸ hw.mem)
  have hevent : ∀ {k}, k ∈ g.order → g.copy.event? k = g.event? k := fun {k} hk => by
    rw [h.toShaped.event?_copy, if_pos hk]
  have hremovable : ∀ more : List Key, (∀ k ∈ more, k = read) →
      g.copy.Removable (BackwardRevisit.displaced g w i ++ more) ∧
        w ∉ BackwardRevisit.displaced g w i ++ more :=
    fun more hmore => (h.toSteady.removable_displaced hw.latest hread hi hmore).imp_left fun hrem =>
      hrem.of_order hr.order
  have hplain := hremovable [] (by simp)
  rw [List.append_nil] at hplain
  obtain ⟨er, her⟩ := h.event? hread.mem
  have hfound : (g.find? read).map (·.event) = some er := her
  unfold BackwardRevisit.new at hv
  rw [hi] at hv
  dsimp only at hv
  rw [hs.node (hr.order ▸ hread.mem) hmr, hs.node (hr.order ▸ hw.mem) hmw, hfound] at hv
  dsimp only at hv
  have hkey := key_of_find? hmr
  have hkeyw := key_of_find? hmw
  have hoffer : ∀ {removed : List Key} {more : Option Event},
      g.copy.Removable removed ∧ w ∉ removed →
      (∀ e' ∈ more, ∃ t n : Nat, .place t n ∈ removed ∧ g.copy.event? (.place t n) = some e') →
      Offer
        { graph := g.copy, removed, read := mr.key, write := mw.key, additional := more,
          restricted := false } e N ∧ mw.key = w := by
    intro removed more hrem hmore
    rw [hkey, hkeyw]
    exact ⟨⟨hlive, h.toShaped.isLabel_copy, hnew, hplace, hrem.1, hrem.2, hmore⟩, rfl⟩
  -- an acquisition is added again, an exclusive read brings its write back if that was taken, and
  -- others bring nothing
  split at hv
  · obtain rfl := Except.ok.inj hv
    refine hoffer (hremovable [read] (by simp)) fun e' he' => ?_
    obtain rfl := Option.some.inj he'
    obtain ⟨t, n, rfl⟩ := hplace
    exact ⟨t, n, by simp, (hevent hread.mem).trans her⟩
  · split at hv
    · split at hv
      · rename_i hpair
        have hpair := List.contains_iff_mem.mp hpair
        obtain ⟨mp, hmp⟩ := hs.find? (hplain.1.mem hpair)
        rw [hs.node (hplain.1.mem hpair) hmp] at hv
        obtain rfl := Except.ok.inj hv
        refine hoffer hplain fun e' he' => ?_
        obtain ⟨t, n, rfl⟩ := hplace
        refine ⟨t, n + 1, hpair, ?_⟩
        split at he'
        · obtain rfl := Option.some.inj he'
          show (g.copy.find? _).map _ = _
          rw [show Key.place t (n + 1) = ⟨(Key.place t n).task, (Key.place t n).seq + 1⟩ from rfl,
            hmp]
          rfl
        · cases he'
      · obtain rfl := Except.ok.inj hv
        exact hoffer hplain (by simp)
    · obtain rfl := Except.ok.inj hv
      exact hoffer hplain (by simp)

namespace Offer

/-- The mark of an acquisition changes nothing about it. -/
theorem markFinal (h : Offer v e N) : Offer v.markFinal e N where
  live := h.live.resembles (h.live.toSteady.markFinalLockWrite v.write)
  unlabelled := fun k => by
    show (v.graph.markFinalLockWrite v.write).isLabel k = false
    rw [isLabel, kindOf?_markFinalLockWrite, ← isLabel, h.unlabelled]
  newcomer := by
    obtain ⟨hs, hr⟩ := h.live.toSteady.markFinalLockWrite v.write
    exact h.newcomer.resembles hs.toShaped hr
  place := h.place
  removable := h.removable.of_order rfl
  stays := h.stays
  again := by
    intro e' he'
    obtain ⟨t, n, hgone, hevent⟩ := h.again e' he'
    have hne : Key.place t n ≠ v.write := fun heq => h.stays (heq ▸ hgone)
    refine ⟨t, n, hgone, ?_⟩
    show (v.graph.markFinalLockWrite v.write).event? (.place t n) = some e'
    rw [event?_markFinalLockWrite, hevent, Option.map_some, if_neg hne]

/-- **A proposal is applied.** What is added again fits into its task. -/
theorem restrict (h : Offer v e N) (hg' : v.restrict.2 = .ok g') :
    g'.Fresh N ∧ Resumes v.graph g' v.write v.removed ∧ ∀ e' ∈ v.additional, g'.Admits e' N := by
  obtain ⟨t, n, hplace, -⟩ := h.newcomer.place
  have hrun : (BackwardRevisit.apply v.read v.write v.removed).run v.graph = .ok () g' := by
    unfold BackwardRevisit.restrict at hg'
    split at hg'
    · cases hg'
    · split at hg'
      · rename_i g'' hrun
        obtain rfl := Except.ok.inj hg'
        exact hrun
      · cases hg'
  rw [hplace] at hrun
  obtain ⟨hfresh, hresumes⟩ :=
    h.live.toLaid.apply h.unlabelled h.live.toSteady.roomy h.live.resolved
    (hplace ▸ h.newcomer.mem) (hplace ▸ h.newcomer.untracked _) h.removable (hplace ▸ h.stays) hrun
  refine ⟨hfresh, hplace ▸ hresumes, fun e' he' => ?_⟩
  obtain ⟨t', i, hgone, hevent⟩ := h.again e' he'
  have hmem := h.removable.mem hgone
  have htask : e'.task = t' := by
    obtain ⟨node, hnode, rfl⟩ := Option.map_eq_some_iff.mp hevent
    have hkey : node.event.key = .place t' i := key_of_find? hnode
    rw [Event.task, hkey]
    rfl
  -- the task ends before the event that is gone
  have hfills : ∀ {u m : Nat}, e'.task = u → g'.Fills u m → u = t' ∧ m ≤ i := by
    intro u m hu hm
    obtain rfl : t' = u := Int.ofNat_inj.mp (htask.symm.trans hu)
    refine ⟨rfl, Nat.not_lt.mp fun hlt => ?_⟩
    have hin := (hm i).mpr hlt
    rw [hresumes.order, List.mem_filter] at hin
    simp [hgone] at hin
  refine ⟨htask ▸ Int.natCast_nonneg t', (h.live.mem_iff hevent).mp hmem, h.live.located hevent,
    fun htask hm => ?_, fun htask hm hex => ?_⟩
  · obtain ⟨rfl, hle⟩ := hfills htask hm
    exact (Nat.succ_le_succ hle).trans (h.live.place_le h.live.toShaped hmem)
  · obtain ⟨rfl, hle⟩ := hfills htask hm
    exact (Nat.add_le_add_right hle 2).trans (h.live.ample hevent hex)

end Offer

end Graph

end Interleaving
