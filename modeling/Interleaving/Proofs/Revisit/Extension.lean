import Interleaving.Proofs.Graph.Acyclic
import Interleaving.Proofs.Revisit.Maximal

/-!
# What an accepted revisit leaves

A graph ends in a write that waits to take effect (`Interleaving.Graph.EndsIn`), and a backward
revisit lets an earlier read see it. Since former revisits moved reads behind the writes that they
see, a read may stand in front of its source in the total order, and taking events out of the total
order could leave such a read without one. It does not when the revisit is accepted: what is taken
back is closed under whatever comes after it in time
(`Interleaving.Graph.EndsIn.displaced_of_earlier`), because

* program order and the edges of threads go forward, and the new write comes after whatever happens
  before something that happens before it;
* no event that stands in front of a displaced write, or that happens before the new write, sees the
  displaced write.

So the read that is left has nothing behind it, and in what is left all edges go up in a numbering
in which the new write and then the read are last (`Interleaving.Graph.Discards.ranked`).

The new write must not be seen by a read before it takes effect. A read that saw it would come after
it, and when the read comes before another write to the location, the new write cannot be the last
one to take effect.
-/

namespace Interleaving

namespace Graph

variable {g g' : Graph} {a b k w read : Key} {r : Relation} {loc : Location} {removed : List Key}

/-- **A graph that ends in a write which waits to take effect.** Its views agree, its clocks tell
the past and its edges do not run in a cycle. All other writes are in their chains, every read sees
a write or the first event, and edges but those of reads and of chains keep the total order. -/
structure EndsIn (g : Graph) (w : Key) (loc : Location) : Prop extends g.Regular where
  timed : g.Timed
  acyclic : g.Acyclic
  write : g.WritesTo w loc
  latest : ∃ o, g.order = o ++ [w]
  absent : w ∉ g.chain loc
  written : ∀ {k loc'}, g.WritesTo k loc' → k ≠ w → k ∈ g.chain loc'
  sees : ∀ {k loc'}, g.ReadsAt k loc' →
    ∃ s, (s = .init ∨ ∃ loc'', g.WritesTo s loc'') ∧ g.In .readsFrom s k
  reads : ∀ {a b}, g.In .readsFrom a b → ∃ loc', g.ReadsAt b loc'
  forward : ∀ {r a b}, r ≠ .readsFrom → r ≠ .coherency → b ∈ g.order → g.In r a b →
    Before g.order a b

theorem Framed.ne_init_of_readsAt (h : g.Framed) (hk : g.ReadsAt k loc) : k ≠ .init := by
  rintro rfl
  obtain ⟨e, he, hread, -⟩ := hk
  rw [h.initial he] at hread
  cases hread

theorem Framed.ne_init_of_writesTo (h : g.Framed) (hk : g.WritesTo k loc) : k ≠ .init := by
  rintro rfl
  obtain ⟨e, he, hwrite, -⟩ := hk
  rw [h.initial he] at hwrite
  cases hwrite

theorem indexOf?_eq (hk : k ∈ g.order) : g.indexOf? k = some (g.order.idxOf k) := by
  unfold indexOf?
  rw [List.findIdx?_eq_some_iff_findIdx_eq]
  exact ⟨List.idxOf_lt_length_of_mem hk, rfl⟩

namespace EndsIn

variable (h : g.EndsIn w loc)
include h

theorem mem : w ∈ g.order := h.mem_of_writesTo h.write

theorem not_past_self (k : Key) : ¬g.Past k k := fun hp => h.acyclic k hp.path

/-- What a read sees is a write or the first event. -/
theorem writesTo_of_seen (hin : g.In .readsFrom a b) : a = .init ∨ ∃ loc', g.WritesTo a loc' := by
  obtain ⟨loc', hread⟩ := h.reads hin
  obtain ⟨s, hs, hsin⟩ := h.sees hread
  rwa [h.source hin hsin]

theorem not_mem_chain_of_reads {loc' : Location} (hread : g.ReadsAt read loc)
    (hloc' : loc' ≠ .thread) : read ∉ g.chain loc' := by
  intro hk
  rcases h.mem_chain hk with heq | hjoins
  · exact h.ne_init_of_readsAt hread heq
  · exact hread.not_writesTo (hjoins.writesTo hloc')

/-- Nobody sees a read, and no chain has one. -/
theorem not_source (hread : g.ReadsAt read loc) :
    ¬g.In .readsFrom read b ∧ ¬g.In .coherency read b := by
  refine ⟨fun hin => ?_, fun hin => ?_⟩
  · rcases h.writesTo_of_seen hin with heq | ⟨loc', hwrite⟩
    · exact h.ne_init_of_readsAt hread heq
    · exact hread.not_writesTo hwrite
  · obtain ⟨loc', hloc', hab⟩ := h.coherency.mp hin
    exact h.not_mem_chain_of_reads hread hloc' (hab.subset List.mem_cons_self)

theorem not_mem_chain {loc' : Location} (hloc' : loc' ≠ .thread) : w ∉ g.chain loc' := by
  intro hk
  rcases h.mem_chain hk with heq | hjoins
  · exact h.ne_init_of_writesTo h.write heq
  · exact h.absent (h.write.unique (hjoins.writesTo hloc') ▸ hk)

/-- A path leads along a chain. -/
theorem path_of_chain {loc' : Location} (hloc' : loc' ≠ .thread) (hab : Before (g.chain loc') a b) :
    Relation.TransGen g.Leads a b := by
  have hchain : (g.chain loc').Pairwise (Relation.TransGen g.Leads) :=
    pairwise_of_adjacent (fun hab hbc => hab.trans hbc) fun a b hadj =>
      .single ⟨.coherency, h.coherency.mpr ⟨loc', hloc', hadj⟩⟩
  exact rel_of_before hchain hab

/-- Nothing comes after the new write, unless a read sees it. -/
theorem idle (hunseen : ∀ k, ¬g.In .readsFrom w k) (hr : r ≠ .coherency) (hb : b ∈ g.order) :
    ¬g.In r w b := by
  intro hin
  by_cases hrf : r = .readsFrom
  · exact hunseen b (hrf ▸ hin)
  · have hbefore := h.forward hrf hr hb hin
    have hnodup := h.nodup
    obtain ⟨o, ho⟩ := h.latest
    rw [ho] at hbefore hnodup
    have hw : w ∉ o := fun hmem => (List.nodup_append.mp hnodup).2.2 w hmem w List.mem_cons_self rfl
    rcases before_append.mp hbefore with hbefore | ⟨-, ⟨hmem, -⟩ | ⟨-, hbefore⟩⟩
    · exact hw hbefore.left_mem
    · exact hw hmem
    · exact (before_cons.mp hbefore).1 (List.mem_singleton.mp hbefore.right_mem)

/-- A copy has no labels, and is the same otherwise. -/
theorem copy : g.copy.EndsIn w loc := by
  have hr := h.toShaped.resembles_copy
  have hc := h.toShaped.copy
  have hin : ∀ {r a b}, g.copy.In r a b → b ∈ g.order ∧ g.In r a b := h.toShaped.in_copy.mp
  refine ⟨h.toRegular.copy, hr.timed h.source_mem h.timed, fun k hk => h.acyclic k ?_,
    (hr.writesTo_iff h.toShaped hc).mpr h.write, h.latest, h.absent, fun hk => ?_, fun hk => ?_,
    fun hab => ?_,
    fun hrf hco hb hab => h.forward hrf hco (hin hab).1 (hin hab).2⟩
  · exact Relation.TransGen.mono (fun _ _ hab => hab.imp fun _ hab => (hin hab).2) _ _ hk
  · exact h.written ((hr.writesTo_iff h.toShaped hc).mp hk)
  · have hk := (hr.readsAt_iff h.toShaped hc).mp hk
    obtain ⟨s, hs, hsin⟩ := h.sees hk
    refine ⟨s, hs.imp_right fun hw => hw.imp fun _ hw => (hr.writesTo_iff h.toShaped hc).mpr hw, ?_⟩
    exact h.toShaped.in_copy.mpr ⟨h.mem_of_readsAt hk, hsin⟩
  · obtain ⟨loc', hread⟩ := h.reads (hin hab).2
    exact ⟨loc', (hr.readsAt_iff h.toShaped hc).mpr hread⟩

/-! ### What is taken back -/

section Displaced

variable (hread : g.ReadsAt read loc) (hnot : g.happensBefore read w = false) {o₁ o₂ : List Key}
  (ho : g.order = o₁ ++ read :: (o₂ ++ [w]))
  (hunread : ∀ {a b}, a ∈ BackwardRevisit.displaced g w o₁.length → g.In .readsFrom a b →
    Before g.order a b)
include hread hnot ho hunread

/-- **What comes after the read or a displaced event in time is displaced.** -/
theorem displaced_of_earlier (ha : a = read ∨ a ∈ BackwardRevisit.displaced g w o₁.length)
    (hedge : g.Earlier a b) (hb : b ∈ g.order) : b ∈ BackwardRevisit.displaced g w o₁.length := by
  have hbefore : Before g.order a b := by
    obtain ⟨r, hr, hin⟩ := hedge
    by_cases hrf : r = .readsFrom
    · subst hrf
      rcases ha with rfl | ha
      · exact absurd hin (h.not_source hread).1
      · exact hunread ha hin
    · exact h.forward hrf (fun heq => by rw [heq] at hr; cases hr) hb hin
  have haw : g.happensBefore a w = false := by
    rcases ha with rfl | ha
    · exact hnot
    · exact ((mem_displaced ho).mp ha).2
  have ha' : a = read ∨ a ∈ o₂ := ha.imp_right fun ha => ((mem_displaced ho).mp ha).1
  obtain ⟨hne, hbw⟩ :=
    h.toShaped.not_happensBefore_of_earlier h.timed h.not_past_self hbefore.left_mem h.mem
      haw hedge hb
  exact (mem_displaced ho).mpr ⟨(behind_of_before ho h.nodup ha' hbefore).resolve_right hne, hbw⟩

end Displaced

end EndsIn

/-- **Events that a new write takes back** from a read: what comes after them in time is among them,
and so is what comes after the read. -/
structure Discards (g : Graph) (w read : Key) (removed : List Key) : Prop where
  mem : ∀ {k}, k ∈ removed → k ∈ g.order ∧ k ≠ .init
  stays : w ∉ removed
  closed : ∀ {a b}, a ∈ removed → g.Earlier a b → b ∈ g.order → b ∈ removed
  after : ∀ {r b}, g.In r read b → b ∈ g.order → b ∈ removed

/-- A read of a graph is the one that is left with a new source, and events that come before what is
left are left. -/
theorem Discards.past (hd : Discards g w read removed) (h : g.Framed) (hp : g.Past a b)
    (hb : b ∈ g.order) (hstay : b ∉ removed) : a ∉ removed := by
  induction hp with
  | single hab => exact fun ha => hstay (hd.closed ha hab hb)
  | tail _ hbc ih =>
    obtain ⟨r, hr, hin⟩ := hbc
    have hmem := h.source_mem hin
    exact ih hmem fun ha => hstay (hd.closed ha ⟨r, hr, hin⟩ hb)

theorem EndsIn.discards (h : g.EndsIn w loc) (hread : g.ReadsAt read loc)
    (hnot : g.happensBefore read w = false) {o₁ o₂ : List Key}
    (ho : g.order = o₁ ++ read :: (o₂ ++ [w]))
    (hunread : ∀ {a b}, a ∈ BackwardRevisit.displaced g w o₁.length → g.In .readsFrom a b →
      Before g.order a b)
    {more : List Key} (hmore : ∀ k ∈ more, k = read) :
    Discards g w read (BackwardRevisit.displaced g w o₁.length ++ more) where
  mem := by
    intro k hk
    have hne := h.ne_init_of_readsAt hread
    rcases List.mem_append.mp hk with hk | hk
    · exact mem_of_mem_behind ho h.toShaped hne ((mem_displaced ho).mp hk).1
    · rw [hmore k hk]
      exact ⟨h.mem_of_readsAt hread, hne⟩
  stays := by
    intro hk
    rcases List.mem_append.mp hk with hk | hk
    · have hnodup := h.nodup
      rw [ho, List.nodup_append, List.nodup_cons, List.nodup_append] at hnodup
      exact hnodup.2.1.2.2.2 w ((mem_displaced ho).mp hk).1 w List.mem_cons_self rfl
    · exact hread.not_writesTo (hmore w hk ▸ h.write)
  closed := by
    intro a b ha hedge hb
    refine List.mem_append_left _ (h.displaced_of_earlier hread hnot ho hunread ?_ hedge hb)
    exact (List.mem_append.mp ha).symm.imp_left (hmore a)
  after := by
    intro r b hin hb
    refine List.mem_append_left _
      (h.displaced_of_earlier hread hnot ho hunread (Or.inl rfl) ⟨r, ?_, hin⟩ hb)
    refine bne_iff_ne.mpr ?_
    rintro rfl
    exact (h.not_source hread).2 hin

/-! ### What is left -/

/-- **A graph after a revisit.** The new write is at the end of its chain, the read sees it, and
some events have gone. -/
structure Revisited (g g' : Graph) (w read : Key) (loc : Location) (removed : List Key) : Prop where
  regular : g'.Regular
  label : ∀ k, g'.isLabel k = false
  order : g'.order = g.order.filter fun k => !removed.contains k
  event : ∀ {k}, k ∈ g'.order → g'.event? k = g.event? k
  edge : ∀ {r a b}, r ≠ .coherency → b ∈ g'.order → (g'.In r a b ↔
    a ∉ removed ∧ (g.In r a b ∧ ¬(r = .readsFrom ∧ b = read) ∨ r = .readsFrom ∧ a = w ∧ b = read))
  chain : ∀ loc', g'.chain loc' =
    (if loc' = loc then g.chain loc ++ [w] else g.chain loc').filter fun k => !removed.contains k

theorem Revisited.of_reclocked {c : Graph} (h : Revisited g c w read loc removed)
    (hr : Reclocked c g') : Revisited g g' w read loc removed where
  regular := h.regular.of_reclocked hr
  label := fun k => by rw [isLabel, kindOf?_congr hr.event?, ← isLabel, h.label]
  order := hr.order.trans h.order
  event := fun hk => hr.event?.trans (h.event (hr.order ▸ hk))
  edge := fun hne hb => hr.in_iff.trans (h.edge hne (hr.order ▸ hb))
  chain := fun loc' => by rw [Graph.chain, chain?, hr.chains, ← chain?, ← Graph.chain, h.chain]

/-- A revisit of a copy is one of the graph. -/
theorem Revisited.of_copy (h : Revisited g.copy g' w read loc removed) (hg : g.Shaped) :
    Revisited g g' w read loc removed := by
  have hmem : ∀ {k}, k ∈ g'.order → k ∈ g.order := fun hk => by
    rw [h.order] at hk
    exact List.mem_of_mem_filter hk
  refine ⟨h.regular, h.label, h.order, fun hk => (h.event hk).trans ?_,
    fun hne hb => (h.edge hne hb).trans ?_, h.chain⟩
  · rw [hg.event?_copy, if_pos (hmem hk)]
  · rw [hg.in_copy, and_iff_right (hmem hb)]

namespace Revisited

variable (h : Revisited g g' w read loc removed) (hg : g.EndsIn w loc)
  (hd : Discards g w read removed)
include h

theorem mem_order : k ∈ g'.order ↔ k ∈ g.order ∧ k ∉ removed := by
  rw [h.order, List.mem_filter]
  simp

theorem readsAt {loc' : Location} (hk : g'.ReadsAt k loc') : g.ReadsAt k loc' := by
  have hmem := h.regular.mem_of_readsAt hk
  simpa only [ReadsAt, h.event hmem] using hk

theorem mem_of_in (hin : g'.In r a b) : b ∈ g'.order :=
  (h.regular.mem_or_label (has_of_in hin)).resolve_right (by rw [h.label]; exact Bool.false_ne_true)

/-- Neighbours in a chain stood in this order before, or the second one is the new write. -/
theorem before_of_coherency (hin : g'.In .coherency a b) : ∃ loc', loc' ≠ .thread ∧
    (Before (g.chain loc') a b ∨ a ∈ g.chain loc' ∧ b = w) := by
  obtain ⟨loc', hloc', hab⟩ := h.regular.coherency.mp hin
  have hbefore := before_of_adjacent (h.regular.nodup_chain loc') hab
  rw [h.chain, before_filter] at hbefore
  obtain ⟨-, -, hbefore⟩ := hbefore
  refine ⟨loc', hloc', ?_⟩
  split at hbefore
  · rename_i hloc
    subst hloc
    rcases before_append.mp hbefore with hbefore | ⟨-, ⟨ha, hb⟩ | ⟨-, hb⟩⟩
    · exact Or.inl hbefore
    · exact Or.inr ⟨ha, List.mem_singleton.mp hb⟩
    · exact absurd (List.mem_singleton.mp hb.right_mem) (before_cons.mp hb).1
  · exact Or.inl hbefore

include hg hd

theorem write_mem : w ∈ g'.order := h.mem_order.mpr ⟨hg.mem, hd.stays⟩

/-- **Every read that is left sees what it saw**, but for the one that sees the new write. -/
theorem source {loc' : Location} (hk : g'.ReadsAt k loc') :
    ∃ s ∈ g'.order, (∀ a, g'.In .readsFrom a k ↔ a = s) ∧
      if k = read then s = w else g.In .readsFrom s k := by
  have hmem := h.regular.mem_of_readsAt hk
  obtain ⟨s, -, hs⟩ := hg.sees (h.readsAt hk)
  have hone : ∀ {s}, g'.In .readsFrom s k → ∀ a, g'.In .readsFrom a k ↔ a = s := fun hin a =>
    ⟨fun ha => h.regular.source ha hin, fun heq => heq ▸ hin⟩
  by_cases hkr : k = read
  · subst hkr
    have hin : g'.In .readsFrom w k :=
      (h.edge (by decide) hmem).mpr ⟨hd.stays, Or.inr ⟨rfl, rfl, rfl⟩⟩
    exact ⟨w, h.write_mem hg hd, hone hin, by rw [if_pos rfl]⟩
  · obtain ⟨hkept, hstay⟩ := h.mem_order.mp hmem
    have hs' : s ∉ removed := fun hgone => hstay (hd.closed hgone ⟨_, rfl, hs⟩ hkept)
    have hin : g'.In .readsFrom s k :=
      (h.edge (by decide) hmem).mpr ⟨hs', Or.inl ⟨hs, fun heq => hkr heq.2⟩⟩
    refine ⟨s, h.regular.source_mem hin, hone hin, ?_⟩
    rw [if_neg hkr]
    exact hs

omit hd in
/-- All writes that are left are in their chains. -/
theorem written {loc' : Location} (hk : g'.WritesTo k loc') : k ∈ g'.chain loc' := by
  obtain ⟨hmem, hstay⟩ := h.mem_order.mp (h.regular.mem_of_writesTo hk)
  have hk : g.WritesTo k loc' := by
    simpa only [WritesTo, h.event (h.mem_order.mpr ⟨hmem, hstay⟩)] using hk
  rw [h.chain, List.mem_filter]
  refine ⟨?_, by simpa using hstay⟩
  by_cases hkw : k = w
  · subst hkw
    rw [if_pos (hk.unique hg.write)]
    exact List.mem_append_right _ List.mem_cons_self
  · have hold := hg.written hk hkw
    split
    · rename_i hloc
      exact List.mem_append_left _ (hloc ▸ hold)
    · exact hold

omit hd in
/-- Edges but those of reads and of chains keep the total order. -/
theorem forward (hrf : r ≠ .readsFrom) (hco : r ≠ .coherency) (hin : g'.In r a b) :
    Before g'.order a b := by
  have hb := h.mem_of_in hin
  obtain ⟨hstay, hedge⟩ := (h.edge hco hb).mp hin
  obtain ⟨hkept, hstay'⟩ := h.mem_order.mp hb
  have hin := (hedge.resolve_right fun heq => hrf heq.1).1
  rw [h.order]
  exact before_filter.mpr ⟨by simpa using hstay, by simpa using hstay',
    hg.forward hrf hco hkept hin⟩

/-- **Nothing comes after the read.** -/
theorem not_out (hread : g.ReadsAt read loc) (b : Key) : ¬g'.Out r read b := by
  intro hout
  have hin := h.regular.tidy.known hout
  by_cases hco : r = .coherency
  · subst hco
    obtain ⟨loc', hloc', hbefore⟩ := h.before_of_coherency hin
    exact hg.not_mem_chain_of_reads hread hloc' (hbefore.elim Before.left_mem And.left)
  · have hb := h.mem_of_in hin
    obtain ⟨hkept, hstay⟩ := h.mem_order.mp hb
    rcases ((h.edge hco hb).mp hin).2 with ⟨hin, -⟩ | ⟨-, heq, -⟩
    · exact hstay (hd.after hin hkept)
    · exact hread.not_writesTo (heq ▸ hg.write)

/-- **All edges go up** when the new write and then the read are last. -/
theorem ranked (hread : g.ReadsAt read loc) (hunseen : ∀ k, ¬g.In .readsFrom w k) :
    g'.Ranked (lastly g.depth g.order.length w read) := by
  intro r a b hin
  have hb := h.mem_of_in hin
  by_cases hco : r = .coherency
  · subst hco
    obtain ⟨loc', hloc', hbefore⟩ := h.before_of_coherency hin
    have ha : a ∈ g.chain loc' := hbefore.elim Before.left_mem And.left
    refine lastly_lt (fun hne => ?_)
      (hg.depth_lt_length hg.acyclic (hg.mem_order_of_chain ha)) ?_ ?_
    · exact depth_lt hg.source_mem hg.acyclic
        (hg.path_of_chain hloc' (hbefore.resolve_right fun heq => hne heq.2))
    · exact fun heq => hg.not_mem_chain_of_reads hread hloc' (heq ▸ ha)
    · exact fun heq => hg.not_mem_chain hloc' (heq ▸ ha)
  · obtain ⟨hkept, hstay⟩ := h.mem_order.mp hb
    rcases ((h.edge hco hb).mp hin).2 with ⟨hin, -⟩ | ⟨-, rfl, rfl⟩
    · refine lastly_lt (fun _ => depth_lt hg.source_mem hg.acyclic (.single ⟨r, hin⟩)) ?_ ?_ ?_
      · exact hg.depth_lt_length hg.acyclic (hg.source_mem hin)
      · exact fun heq => hstay (hd.after (heq ▸ hin) hkept)
      · exact fun heq => hg.idle hunseen hco hkept (heq ▸ hin)
    · exact lastly_lt_read fun heq => hread.not_writesTo (heq ▸ hg.write)

end Revisited

/-- Events that are closed under program order can be taken out. -/
theorem Discards.removable (hd : Discards g w read removed) (h : g.Framed) :
    g.Removable removed where
  init := fun hk => (hd.mem hk).2 rfl
  mem := fun hk => (hd.mem hk).1
  closed := by
    intro t i j hij hi hj
    induction j with
    | zero => omega
    | succ j ih =>
      have hedge : g.Earlier (.place t j) (.place t (j + 1)) :=
        ⟨.programOrder, rfl, h.linked (h.has hj)⟩
      have hprior : Key.place t j ∈ g.order := h.mem_of_lt hj (Nat.lt_succ_self j)
      refine hd.closed ?_ hedge hj
      rcases Nat.lt_or_eq_of_le (Nat.le_of_lt_succ hij) with hlt | rfl
      · exact ih hlt hprior
      · exact hi

/-- A copy has the same events and no more edges. -/
theorem Discards.copy (hd : Discards g w read removed) (h : g.Shaped) :
    Discards g.copy w read removed where
  mem := hd.mem
  stays := hd.stays
  closed := by
    rintro a b ha ⟨r, hr, hin⟩ hb
    exact hd.closed ha ⟨r, hr, (h.in_copy.mp hin).2⟩ hb
  after := fun hin hb => hd.after (h.in_copy.mp hin).2 hb

/-- **A revisit is applied** to a graph without labels. -/
theorem EndsIn.apply (h : g.EndsIn w loc) (hlabel : ∀ k, g.isLabel k = false)
    (hunseen : ∀ k, ¬g.In .readsFrom w k) (hread : g.ReadsAt read loc)
    (hd : Discards g w read removed) :
    ∃ g', (BackwardRevisit.apply read w removed).run g = .ok () g' ∧
      Revisited g g' w read loc removed ∧ g'.Acyclic ∧ (g.order.length < 2 ^ 62 → g'.Timed) := by
  have hw := h.toRegular.writes h.write h.absent
  have htracked := h.toRegular.trackCoherency h.write (Or.inl h.absent)
  have hmem := h.mem_of_readsAt hread
  have hreadT : read ∈ (g.trackCoherency w).order := hw.order_trackCoherency.symm ▸ hmem
  have hwT : w ∈ (g.trackCoherency w).order := hw.order_trackCoherency.symm ▸ h.mem
  -- the read sees the new write
  obtain ⟨s, -, hs⟩ := h.sees hread
  have hinT : ∀ {r a b}, r ≠ .coherency → ((g.trackCoherency w).In r a b ↔ g.In r a b) := fun hne =>
    (hw.in_trackCoherency h.toShaped).trans (or_iff_left fun heq => hne heq.1)
  have hsource : ∀ a, (g.trackCoherency w).In .readsFrom a read ↔ a = s := fun a =>
    (hinT (by decide)).trans ⟨fun ha => h.source ha hs, fun heq => heq ▸ hs⟩
  obtain ⟨c, hchange, horder, hchains, hevent, -, -, hin⟩ :=
    htracked.toShaped.changeReadsFrom htracked.mirrored hreadT
    (hw.order_trackCoherency.symm ▸ h.source_mem hs) hsource (htracked.has hwT)
  have hchanged := htracked.changeReadsFrom hreadT hwT hchange
  have horder : c.order = g.order := horder.trans hw.order_trackCoherency
  have hevent : ∀ k, c.event? k = g.event? k := fun k => (hevent k).trans hw.event?_trackCoherency
  have hin : ∀ {r a b}, r ≠ .coherency → (c.In r a b ↔
      g.In r a b ∧ ¬(r = .readsFrom ∧ b = read) ∨ r = .readsFrom ∧ a = w ∧ b = read) :=
        fun hne => by rw [hin, hinT hne]
  -- events are taken out
  have hremovable : c.Removable removed := by
    obtain ⟨hinit, hmem, hclosed⟩ := hd.removable h.toFramed
    exact ⟨hinit, fun hk => horder ▸ hmem hk, fun hij hi hj => hclosed hij hi (horder ▸ hj)⟩
  have hpruned : Revisited g (c.prune removed) w read loc removed := by
    have hkept : ∀ {k}, k ∈ (c.prune removed).order → k ∈ c.order ∧ k ∉ removed :=
      (hchanged.mem_order_prune hremovable).mp
    exact
      { regular := hchanged.prune hremovable
        label := fun k => by
          rw [← Bool.not_eq_true, isLabel_iff_event?, (hchanged.recoheres_prune hremovable).event,
            event?_stripped, hevent]
          rintro ⟨e, he, hkind⟩
          split at he
          · cases he
          · have hlab := isLabel_iff_event?.mpr ⟨e, he, hkind⟩
            rw [hlabel] at hlab
            cases hlab
        order := by
          rw [(hchanged.recoheres_prune hremovable).order]
          exact congrArg (List.filter fun k => !removed.contains k) horder
        event := fun hk => by
          rw [hchanged.event?_prune hremovable (hkept hk).1 (hkept hk).2, hevent]
        edge := fun hne hb => by
          rw [hchanged.in_prune hremovable hne (hkept hb).1, hin hne,
            and_iff_left (hkept hb).2, and_comm]
        chain := fun loc' => by
          rw [hchanged.chain_prune hremovable, chain, chain?, hchains, ← chain?, ← chain,
            hw.chain_trackCoherency] }
  -- clocks are computed anew
  have hranked := hpruned.ranked h hd hread hunseen
  obtain ⟨g', hrun, htimed⟩ := (hpruned.regular.toFramed.bare hpruned.label).recomputeClocks hranked
  have hr := reclocked_of_recomputeClocks hrun
  have hset : c.restrictBySet removed = .ok (c.prune removed) :=
    restrictBySet_eq hchanged.chained fun k hk =>
    ⟨horder ▸ (hd.mem hk).1, h.isInit_of_ne (hd.mem hk).1 (hd.mem hk).2⟩
  refine ⟨g', apply_eq hchange hset hrun, hpruned.of_reclocked hr, ?_,
    fun hlen => htimed fun t i hk => ?_⟩
  · exact Ranked.acyclic fun r a b hab => hranked r a b (hr.in_iff.mp hab)
  · have hlt := h.place_lt (hpruned.mem_order.mp hk).1
    omega

end Graph

namespace BackwardRevisit

open Interleaving.Graph

variable {v : BackwardRevisit} {a b : Key} {loc : Location}

/-- **A displaced write is not seen by anything in front of it** when the proposal is accepted. -/
theorem before_of_isMaximal (h : v.graph.EndsIn v.write loc) (hmax : v.isMaximal = .ok true)
    (ha : a ∈ v.removed) (hinit : a ≠ .init) (hin : v.graph.In .readsFrom a b) :
    Before v.graph.order a b := by
  obtain ⟨loc', e, he, hwrite, -⟩ := (h.writesTo_of_seen hin).resolve_left hinit
  have hamem := h.source_mem hin
  have hbmem := h.mem_of_in hin (by decide)
  obtain ⟨n, hn⟩ := h.find? hamem
  have hevent : n.event = e := by
    rw [event?, hn] at he
    exact Option.some.inj he
  have hkind : n.kind.isWrite = true := by
    rw [Node.kind, hevent]
    exact hwrite
  have hmarker : n.kind.isMarker = false := by
    revert hkind
    generalize n.kind = kind
    cases kind <;> decide
  have hat :=
    maximalAt_of_isMaximalAt (isMaximalAt_of_isMaximal hmax (Or.inl ha)) (h.node hamem hn) hmarker
  have hprevious := hat.unread hkind b ((mem_successors hn).mpr (h.mirrored _ _ _ hin))
  obtain ⟨m, hm⟩ := h.find? hbmem
  unfold previous placeOf at hprevious
  rw [h.node? hbmem, hm, indexOf?_eq hamem, indexOf?_eq hbmem] at hprevious
  simp only [Option.map_some, Option.getD_some, Bool.or_eq_false_iff, decide_eq_false_iff_not,
    Int.ofNat_eq_natCast] at hprevious
  refine ⟨hbmem, ?_⟩
  omega

end BackwardRevisit

namespace Graph

variable {g : Graph} {w read : Key} {loc : Location}

/-- **An accepted backward revisit leaves a graph in order.** What it takes back is closed under
what comes after it, and applying it does not fail. In what is left every read sees what it saw, but
for the one that sees the new write, all writes are in their chains with the new one at the end,
nothing comes after the read, and the edges do not run in a cycle. -/
theorem EndsIn.accepted_revisit (h : g.EndsIn w loc) (hunseen : ∀ k, ¬g.In .readsFrom w k)
    (hread : g.ReadsAt read loc) (hnot : g.happensBefore read w = false) :
    ∃ v, BackwardRevisit.new g w read = .ok v ∧ (v.isMaximal = .ok true →
      (∀ a b, a ∈ v.removed → g.In .programOrder a b → b ∈ g.order → b ∈ v.removed) ∧
      (∀ a b, b ∈ g.order → b ∉ v.removed → g.Past a b → a ∉ v.removed) ∧
      ∃ g', v.restrict.2 = .ok g' ∧ Revisited g g' w read loc v.removed ∧
        (∀ k loc', g'.ReadsAt k loc' → ∃ s ∈ g'.order, (∀ a, g'.In .readsFrom a k ↔ a = s) ∧
          if k = read then s = w else g.In .readsFrom s k) ∧
        (∀ k loc', g'.WritesTo k loc' → k ∈ g'.chain loc') ∧ g'.order.getLast? = some w ∧
        g'.lastWrite loc = w ∧ (∀ r b, ¬g'.Out r read b) ∧
        (∀ r a b, r ≠ .readsFrom → r ≠ .coherency → g'.In r a b →
          Before g'.order a b) ∧ g'.Acyclic ∧
        (g.order.length < 2 ^ 62 → g'.Timed)) := by
  have hne : read ≠ w := fun heq => hread.not_writesTo (heq ▸ h.write)
  obtain ⟨o₁, o₂, ho, hindex⟩ := exists_split h.latest (h.mem_of_readsAt hread) hne
  obtain ⟨v, hv, hgraph, hread', hwrite, hfresh, hremoved⟩ := h.toShaped.new hread h.mem hindex
  refine ⟨v, hv, fun hmax => ?_⟩
  -- by the check, an event that is taken back is seen by later events only
  have hunread : ∀ {a b}, a ∈ BackwardRevisit.displaced g w o₁.length → g.In .readsFrom a b →
      Before g.order a b := by
    intro a b ha hin
    have hview : v.graph.EndsIn v.write loc := by
      rw [hgraph, hwrite]
      exact h.copy
    have hbefore := BackwardRevisit.before_of_isMaximal hview hmax (a := a) (b := b)
      (by rw [hremoved]; simp [ha])
      (mem_of_mem_behind ho h.toShaped (h.ne_init_of_readsAt hread) ((mem_displaced ho).mp ha).1).2
      (by rw [hgraph]; exact h.toShaped.in_copy.mpr ⟨h.mem_of_in hin (by decide), hin⟩)
    rwa [hgraph] at hbefore
  -- so what is taken back is closed under everything that comes after it
  have hd : Discards g w read v.removed := by
    rw [hremoved]
    refine h.discards hread hnot ho hunread fun k hk => ?_
    split at hk
    · exact List.mem_singleton.mp hk
    · cases hk
  obtain ⟨g', hrun, hcopied, hacyclic, htimed⟩ := h.copy.apply h.toShaped.isLabel_copy
    (fun k hin => hunseen k (h.toShaped.in_copy.mp hin).2)
    ((h.toShaped.resembles_copy.readsAt_iff h.toShaped h.toShaped.copy).mpr hread)
    (hd.copy h.toShaped)
  have hrevisited := hcopied.of_copy h.toShaped
  refine ⟨fun a b ha hin hb => hd.closed ha ⟨_, rfl, hin⟩ hb,
    fun a b hb hstay hp => hd.past h.toFramed hp hb hstay, g', ?_, hrevisited,
    fun k loc' => hrevisited.source h hd,
    fun k loc' => hrevisited.written h, ?_, ?_,
    fun r b => hrevisited.not_out h hd hread b, fun r a b => hrevisited.forward h, hacyclic, htimed⟩
  · unfold BackwardRevisit.restrict
    rw [if_neg (by simp [hfresh]), hgraph, hread', hwrite, hrun]
  · obtain ⟨o, ho⟩ := h.latest
    rw [hrevisited.order, ho, List.filter_append, List.filter_singleton]
    simp [hd.stays]
  · rw [lastWrite, hrevisited.chain, if_pos rfl, List.filter_append, List.filter_singleton]
    simp [hd.stays]

/-! ### Two graphs -/

/-- The graph with clocks computed anew. -/
def reclocked (g : Graph) : Graph :=
  match recomputeClocks g with
  | .ok _ g' => g'
  | .error _ g' => g'

/-- What has to be looked up to see that a graph ends in a write. -/
theorem endsIn_of_nodes (rank : Key → Nat) (hregular : g.Regular) (hclocks : g.reclocked = g)
    (hlen : g.order.length < 2 ^ 62) (hwrite : g.WritesTo w loc)
    (hlatest : g.order.getLast? = some w) (habsent : w ∉ g.chain loc)
    (hnodes : ∀ n ∈ g.nodes, n.event.kind ≠ .block ∧
      (n.event.kind.isWrite = true → n.key ≠ w → n.key ∈ g.chain n.event.location) ∧
      (n.event.kind.isRead = true → ∃ p ∈ n.pred, p.1 = .readsFrom ∧
        (p.2 = .init ∨ ((g.kindOf? p.2).map (·.isWrite)).getD false = true)) ∧
      ∀ p ∈ n.pred, rank p.2 < rank n.key ∧ (p.1 = .readsFrom → n.event.kind.isRead = true) ∧
        (p.1 ≠ .readsFrom → p.1 ≠ .coherency → g.order.idxOf p.2 < g.order.idxOf n.key)) :
        g.EndsIn w loc := by
  have hpred : ∀ {r a b}, g.In r a b →
      ∃ n ∈ g.nodes, g.find? b = some n ∧ n.key = b ∧ (r, a) ∈ n.pred := by
    rintro r a b ⟨n, hn, hin⟩
    exact ⟨n, List.mem_of_find?_eq_some hn, hn, key_of_find? hn, hin⟩
  have hlabel : ∀ k, g.isLabel k = false := by
    intro k
    rw [← Bool.not_eq_true, isLabel_iff_event?]
    rintro ⟨e, he, hblock⟩
    obtain ⟨n, hn, -, rfl⟩ := exists_node_of_event? he
    exact (hnodes n hn).1 hblock
  have hranked : g.Ranked rank := by
    intro r a b hin
    obtain ⟨n, hn, -, rfl, hmem⟩ := hpred hin
    exact ((hnodes n hn).2.2.2 _ hmem).1
  have htimed : g.Timed := by
    obtain ⟨g', hrun, htimed⟩ := (hregular.toFramed.bare hlabel).recomputeClocks hranked
    obtain rfl : g = g' := by
      rw [← hclocks, reclocked, hrun]
    refine htimed fun t i hk => ?_
    have hlt := hregular.place_lt hk
    omega
  exact
    { toRegular := hregular
      timed := htimed
      acyclic := hranked.acyclic
      write := hwrite
      latest := by
        obtain ⟨o, ho⟩ := List.getLast?_eq_some_iff.mp hlatest
        exact ⟨o, ho⟩
      absent := habsent
      written := by
        rintro k loc' ⟨e, he, hkind, rfl⟩ hne
        obtain ⟨n, hn, rfl, rfl⟩ := exists_node_of_event? he
        exact (hnodes n hn).2.1 hkind hne
      sees := by
        rintro k loc' ⟨e, he, hkind, rfl⟩
        obtain ⟨n, hn, rfl⟩ := Option.map_eq_some_iff.mp he
        obtain ⟨p, hp, hrf, hsource⟩ := (hnodes n (List.mem_of_find?_eq_some hn)).2.2.1 hkind
        refine ⟨p.2, hsource.imp_right fun hs => ?_, n, hn, hrf ▸ hp⟩
        cases hp : g.event? p.2 with
        | none => rw [kindOf?_eq_map, hp] at hs; cases hs
        | some e =>
          rw [kindOf?_eq_map, hp] at hs
          exact ⟨e.location, e, hp, hs, rfl⟩
      reads := by
        intro a b hin
        obtain ⟨n, hn, hfind, rfl, hmem⟩ := hpred hin
        exact ⟨n.event.location, n.event, by rw [event?, hfind]; rfl,
          ((hnodes n hn).2.2.2 _ hmem).2.1 rfl, rfl⟩
      forward := by
        intro r a b hrf hco hb hin
        obtain ⟨n, hn, -, rfl, hmem⟩ := hpred hin
        exact ⟨hb, ((hnodes n hn).2.2.2 _ hmem).2.2 hrf hco⟩ }

/-- A read that sees the first event. -/
def readGraph : Graph :=
  ((Graph.initial.ensureTask 0).insertEvent (.new 0 .read 1)).setReadsFrom (.place 0 0) .init

/-- A write to another location behind the read, and a write of another task that waits to take
effect. -/
def overtakenGraph : Graph :=
  (((((readGraph.ensureTask 0).insertEvent (.new 0 .write 2)).trackCoherency
    (.place 0 1)).ensureTask 1).insertEvent (.new 1 .write 1))

theorem edits_readGraph : Relation.ReflTransGen Edits .initial readGraph := by
  have hadd := edits_insertEvent (e := .new 0 .read 1) (k := .place 0 0) .refl
    (by decide) (by decide) (placed_new (Or.inl rfl) (by decide)) rfl
  exact hadd.tail (.setReadsFrom ⟨_, rfl, rfl, rfl⟩ (by decide) fun _ =>
    not_in_of_predecessors (by decide))

theorem edits_overtakenGraph : Relation.ReflTransGen Edits .initial overtakenGraph := by
  have hadd := edits_insertEvent (e := .new 0 .write 2) (k := .place 0 1) edits_readGraph
    (by decide) (by decide) (placed_new (Or.inr rfl) (by decide)) rfl
  have hwrite : ((readGraph.ensureTask 0).insertEvent (.new 0 .write 2)).WritesTo (.place 0 1) 2 :=
    ⟨_, rfl, rfl, rfl⟩
  exact edits_insertEvent (e := .new 1 .write 1) (k := .place 1 0)
    (hadd.tail (.trackCoherency hwrite (Or.inl (by decide)))) (by decide) (by decide)
    (placed_new (Or.inr rfl) (by decide)) rfl

/-- The write behind the read is taken back, and the read sees the other write. -/
theorem accepted_revisit_overtakenGraph :
    ∃ v, BackwardRevisit.new overtakenGraph (.place 1 0) (.place 0 0) = .ok v ∧
      v.isMaximal = .ok true ∧ v.removed = [.place 0 1] ∧
      ∃ g', v.restrict.2 = .ok g' ∧ g'.In .readsFrom (.place 1 0) (.place 0 0) ∧ g'.Acyclic := by
  have hends : overtakenGraph.EndsIn (.place 1 0) 1 :=
    endsIn_of_nodes overtakenGraph.order.idxOf (regular_of_edits edits_overtakenGraph)
      (by decide +kernel) (by decide) ⟨_, rfl, rfl, rfl⟩ (by decide) (by decide) (by decide)
  have hread : overtakenGraph.ReadsAt (.place 0 0) 1 := ⟨_, rfl, rfl, rfl⟩
  obtain ⟨v, hv, haccepted⟩ :=
    hends.accepted_revisit (fun _ => not_in_of_nodes (by decide)) hread (by decide)
  have hjudged : (BackwardRevisit.new overtakenGraph (.place 1 0) (.place 0 0)).map
      (fun v => (v.isMaximal, v.removed)) = .ok (.ok true, [.place 0 1]) := rfl
  rw [hv] at hjudged
  obtain ⟨hmax, hremoved⟩ := Prod.mk.inj (Except.ok.inj hjudged)
  obtain ⟨-, -, g', hg', hrevisited, hsource, -, -, -, -, -, hacyclic, -⟩ := haccepted hmax
  refine ⟨v, hv, hmax, hremoved, g', hg', ?_, hacyclic⟩
  obtain ⟨s, -, hs, heq⟩ := hsource (.place 0 0) 1 (by
    have hkept : Key.place 0 0 ∈ g'.order :=
      hrevisited.mem_order.mpr ⟨by decide, by rw [hremoved]; decide⟩
    simpa only [ReadsAt, hrevisited.event hkept] using hread)
  rw [if_pos rfl] at heq
  exact (hs _).mpr heq.symm

/-! ### A write that is seen too early -/

/-- A read and a write behind it, and a read of another task that sees the write. -/
def followedGraph : Graph :=
  (((((((Graph.initial.ensureTask 0).insertEvent (.new 0 .read 1)).ensureTask 0).insertEvent
    (.new 0 .write 1)).trackCoherency (.place 0 1)).ensureTask 1).insertEvent
    (.new 1 .read 1)).setReadsFrom (.place 1 0) (.place 0 1)

/-- The first read sees a write of a third task before that takes effect. -/
def anticipatedGraph : Graph :=
  (((followedGraph.ensureTask 2).insertEvent (.new 2 .write 1)).setReadsFrom (.place 0 0)
    (.place 2 0)).reclocked

theorem edits_followedGraph : Relation.ReflTransGen Edits .initial followedGraph := by
  have hfirst := edits_insertEvent (e := .new 0 .read 1) (k := .place 0 0) .refl
    (by decide) (by decide) (placed_new (Or.inl rfl) (by decide)) rfl
  have hsecond := edits_insertEvent (e := .new 0 .write 1) (k := .place 0 1) hfirst
    (by decide) (by decide) (placed_new (Or.inr rfl) (by decide)) rfl
  have htracked :=
    hsecond.tail (.trackCoherency (w := .place 0 1) ⟨_, rfl, rfl, rfl⟩ (Or.inl (by decide)))
  have hthird := edits_insertEvent (e := .new 1 .read 1) (k := .place 1 0) htracked
    (by decide) (by decide) (placed_new (Or.inl rfl) (by decide)) rfl
  exact hthird.tail (.setReadsFrom ⟨_, rfl, rfl, rfl⟩ (by decide) fun _ =>
    not_in_of_predecessors (by decide))

theorem edits_anticipatedGraph : Relation.ReflTransGen Edits .initial anticipatedGraph := by
  have hadd := edits_insertEvent (e := .new 2 .write 1) (k := .place 2 0) edits_followedGraph
    (by decide) (by decide) (placed_new (Or.inr rfl) (by decide)) rfl
  have hsees := hadd.tail (.setReadsFrom (k := .place 0 0) (w := .place 2 0) ⟨_, rfl, rfl, rfl⟩
    (by decide) fun _ => not_in_of_predecessors (by decide))
  exact hsees.tail (.recomputeClocks rfl)

/-- **A write that is seen too early cannot take effect last.** -/
theorem accepted_revisit_fails :
    anticipatedGraph.EndsIn (.place 2 0) 1 ∧ anticipatedGraph.ReadsAt (.place 1 0) 1 ∧
      anticipatedGraph.happensBefore (.place 1 0) (.place 2 0) = false ∧
      ∃ v, BackwardRevisit.new anticipatedGraph (.place 2 0) (.place 1 0) = .ok v ∧
        v.isMaximal = .ok true ∧ v.restrict.2 = .error (.cycle 1 5) := by
  have hshows : ∀ k kind, (anticipatedGraph.event? k).map (fun e => (e.kind, e.location)) =
      some (kind, 1) →
      ∃ e, anticipatedGraph.event? k = some e ∧ e.kind = kind ∧ e.location = 1 := by
    intro k kind hk
    obtain ⟨e, he, hshown⟩ := Option.map_eq_some_iff.mp hk
    exact ⟨e, he, Prod.mk.inj hshown⟩
  have hwrite : anticipatedGraph.WritesTo (.place 2 0) 1 := by
    obtain ⟨e, he, hkind, hloc⟩ := hshows (.place 2 0) .write (by decide +kernel)
    exact ⟨e, he, by rw [hkind]; rfl, hloc⟩
  have hread : anticipatedGraph.ReadsAt (.place 1 0) 1 := by
    obtain ⟨e, he, hkind, hloc⟩ := hshows (.place 1 0) .read (by decide +kernel)
    exact ⟨e, he, by rw [hkind]; rfl, hloc⟩
  have hends : anticipatedGraph.EndsIn (.place 2 0) 1 :=
    endsIn_of_nodes (fun k => [.init, .place 2 0, .place 0 0, .place 0 1, .place 1 0].idxOf k)
      (regular_of_edits edits_anticipatedGraph) (by decide +kernel) (by decide +kernel) hwrite
      (by decide +kernel) (by decide +kernel) (by decide +kernel)
  have hnot : anticipatedGraph.happensBefore (.place 1 0) (.place 2 0) = false := by decide +kernel
  refine ⟨hends, hread, hnot, ?_⟩
  have hjudged : (BackwardRevisit.new anticipatedGraph (.place 2 0) (.place 1 0)).map
      (fun v => (v.isMaximal, v.restrict.2)) =
      .ok (.ok true, .error (.cycle 1 5)) := by decide +kernel
  cases hv : BackwardRevisit.new anticipatedGraph (.place 2 0) (.place 1 0) with
  | error cause =>
    rw [hv] at hjudged
    cases hjudged
  | ok v =>
    rw [hv] at hjudged
    obtain ⟨hmax, hfails⟩ := Prod.mk.inj (Except.ok.inj hjudged)
    exact ⟨v, rfl, hmax, hfails⟩

end Graph

end Interleaving
