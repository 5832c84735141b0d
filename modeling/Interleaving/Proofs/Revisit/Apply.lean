import Interleaving.Proofs.Graph.Bare
import Interleaving.Proofs.Graph.Prune
import Interleaving.Proofs.Graph.Recorded
import Interleaving.Revisit.Backward

/-!
# Applying a backward revisit

A backward revisit takes back whatever comes after the read in its execution, unless it happens
before the new write (`Interleaving.Graph.Revisable`). What is left has no edge from the read, so
the write and behind it the read may go to the end of the order that explains the graph: all edges
go forward in it. Therefore **applying the revisit does not fail**
(`Interleaving.Graph.Writing.apply`).
-/

namespace Interleaving.Graph

variable {g : Graph} {a b k w read : Key} {r : Relation} {loc : Location} {l removed : List Key}

/-- A read that a new write may satisfy, and the events that have to go. -/
structure Revisable (g : Graph) (w read : Key) (loc : Location) (removed : List Key) : Prop where
  reads : g.ReadsAt read loc
  mem : ∀ k ∈ removed, k ∈ g.order ∧ k ≠ .init
  /-- What comes after a removed event is removed, -/
  closed : ∀ {r a k}, r.ordersThreads = true → g.In r a k → k ∈ g.order → k ∉ removed → a ∉ removed
  /-- and so is what comes after the read. -/
  after : ∀ {r k}, g.In r read k → k ∈ g.order → k ∈ removed

/-- A read has one source. -/
theorem Wired.sources (h : g.Wired) (hread : g.ReadsAt read loc) {m : Node}
    (hm : g.find? read = some m) :
    ∃ v, v ∈ g.order ∧ (∀ a, g.In .readsFrom a read ↔ a = v) ∧ m.predecessors .readsFrom = [v] := by
  obtain ⟨-, v, -, hsource⟩ := h.source hread
  exact ⟨v, h.source_mem ((hsource v).mpr rfl), hsource, h.tidy.predecessors_eq hm hsource⟩

/-- The numbering in which the new write and then the read come after all that has a number below
`n`. -/
def lastly (rank : Key → Nat) (n : Nat) (w read k : Key) : Nat :=
  if k = read then n + 1 else if k = w then n else rank k

theorem lastly_lt {rank : Key → Nat} {n : Nat} (hab : b ≠ w → rank a < rank b) (hn : rank a < n)
    (har : a ≠ read) (haw : a ≠ w) : lastly rank n w read a < lastly rank n w read b := by
  unfold lastly
  rw [if_neg har, if_neg haw]
  split
  · exact Nat.lt_succ_of_lt hn
  · split
    · exact hn
    · exact hab ‹_›

theorem lastly_lt_read {rank : Key → Nat} {n : Nat} (hne : w ≠ read) :
    lastly rank n w read w < lastly rank n w read read := by
  unfold lastly
  rw [if_neg hne, if_pos rfl, if_pos rfl]
  exact Nat.lt_succ_self n

theorem lastly_lt_of_before (hab : Before l a b) (har : a ≠ read) (haw : a ≠ w) :
    lastly l.idxOf l.length w read a < lastly l.idxOf l.length w read b :=
  lastly_lt (fun _ => hab.2) (List.idxOf_lt_length_of_mem hab.left_mem) har haw

/-- **The source of a read is changed.** -/
theorem Shaped.changeReadsFrom (h : g.Shaped) (hm : g.Mirrored) (hread : read ∈ g.order) {v : Key}
    (hv : v ∈ g.order) (hsource : ∀ a, g.In .readsFrom a read ↔ a = v) (hw : g.Has w) :
    ∃ g', g.changeReadsFrom read w = .ok g' ∧ g'.order = g.order ∧ g'.chains = g.chains ∧
      (∀ k, g'.event? k = g.event? k) ∧ g'.Tidy ∧ g'.Mirrored ∧
      ∀ {r a b}, g'.In r a b ↔ g.In r a b ∧ ¬(r = .readsFrom ∧ b = read) ∨
        r = .readsFrom ∧ a = w ∧ b = read := by
  obtain ⟨m, hm'⟩ := h.find? hread
  obtain ⟨mv, hmv⟩ := h.find? hv
  have hpreds := h.tidy.predecessors_eq hm' hsource
  have hself : (g.unlink v read .readsFrom).Has read := by
    rw [has_iff_event?, event?_unlink, ← has_iff_event?]
    exact has_of_find? hm'
  have hw' : (g.unlink v read .readsFrom).Has w := by
    rw [has_iff_event?, event?_unlink, ← has_iff_event?]
    exact hw
  refine ⟨(g.unlink v read .readsFrom).link w read .readsFrom, ?_, ?_, ?_, fun k => ?_,
    h.tidy.unlink.link hw' hself, ?_, ?_⟩
  · unfold Graph.changeReadsFrom
    rw [hm', Option.map_some, Option.getD_some, hpreds]
    dsimp only
    rw [h.node hv hmv]
    show Except.ok ((g.unlink mv.key read .readsFrom).link w read .readsFrom) = _
    rw [key_of_find? hmv]
  · rw [link_order, unlink_order]
  · rw [link_chains]
    rfl
  · rw [event?_link, event?_unlink]
  · intro r a b hin
    rcases (in_link hself).mp hin with hin | hnew
    · obtain ⟨hin, hne⟩ := in_unlink.mp hin
      exact (out_link hw').mpr (Or.inl (out_unlink.mpr ⟨hm r a b hin, hne⟩))
    · exact (out_link hw').mpr (Or.inr hnew)
  · intro r a b
    rw [in_link hself, in_unlink]
    refine or_congr_left (and_congr_right fun hin => not_congr ⟨fun heq => ⟨heq.1, heq.2.2⟩,
      fun heq => ?_⟩)
    obtain ⟨rfl, rfl⟩ := heq
    exact ⟨rfl, (hsource a).mp hin, rfl⟩

theorem Wired.changeReadsFrom (h : g.Wired) (hread : g.ReadsAt read loc) (hw : g.Has w) :
    ∃ g', g.changeReadsFrom read w = .ok g' ∧ g'.order = g.order ∧ g'.chains = g.chains ∧
      (∀ k, g'.event? k = g.event? k) ∧ g'.Tidy ∧ g'.Mirrored ∧
      ∀ {r a b}, g'.In r a b ↔ g.In r a b ∧ ¬(r = .readsFrom ∧ b = read) ∨
        r = .readsFrom ∧ a = w ∧ b = read := by
  obtain ⟨-, v, -, hsource⟩ := h.source hread
  exact h.toShaped.changeReadsFrom h.mirrored (h.mem_of_readsAt hread)
    (h.source_mem ((hsource v).mpr rfl)) hsource hw

/-- Chains go forward, also with the write and the read at the end. -/
theorem Writing.lastly_lt_of_chain (h : g.Writing l w loc) {loc' : Location}
    (hread : g.ReadsAt read loc) (hloc' : loc' ≠ .thread)
    (hab : Before ((g.trackCoherency w).chain loc') a b) :
    lastly l.idxOf l.length w read a < lastly l.idxOf l.length w read b ∧ b ≠ .init := by
  have hrec := h.recorded
  have hbefore := rel_of_before (hrec.explained.coherent hloc') hab
  have hwrites : ∀ {k}, k ∈ (g.trackCoherency w).chain loc' → k = .init ∨ g.WritesTo k loc' := by
    intro k hk
    refine (hrec.mem_chain hloc' hk).imp_right fun hwrite => ?_
    unfold WritesTo at hwrite
    rw [h.toWrites.event?_trackCoherency] at hwrite
    exact hwrite
  have hb : b ≠ .init := by
    rintro rfl
    rcases hrec.chain_cases hloc' with heq | ⟨ws, heq, -⟩
    · rw [heq] at hab
      exact List.not_mem_nil hab.right_mem
    · rw [heq] at hab
      exact (before_cons.mp hab).1 rfl
  refine ⟨lastly_lt_of_before hbefore (fun heq => ?_) (fun heq => ?_), hb⟩
  · rcases hwrites hab.left_mem with hinit | hwrite
    · exact h.ne_init_of_readsAt hread (heq ▸ hinit)
    · exact (heq ▸ hread).not_writesTo hwrite
  · have hmem := h.mem_of_writesTo ((hwrites hab.right_mem).resolve_left hb)
    exact (h.behind hmem fun hbw => hbefore.ne (heq.trans hbw.symm)).asymm (heq ▸ hbefore)

/-- Edges other than coherency go forward with the write and the read at the end, unless they start
at the read. -/
theorem Writing.lastly_lt_of_in (h : g.Writing l w loc) (hb : b ∈ g.order) (hin : g.In r a b)
    (har : a ≠ read) : lastly l.idxOf l.length w read a < lastly l.idxOf l.length w read b :=
  lastly_lt_of_before (h.linear.edge hb hin) har fun heq => h.idle hb (heq ▸ hin)

/-- A revisit that stands before the events that have to go are taken out: coherency has the new
write, and the read sees it. -/
structure Revisits (g c : Graph) (w read : Key) : Prop where
  order : c.order = g.order
  chain : ∀ loc, c.chain loc = (g.trackCoherency w).chain loc
  chained : c.Chained
  event : ∀ k, c.event? k = g.event? k
  tidy : c.Tidy
  mirrored : c.Mirrored
  edge : ∀ {r a b}, c.In r a b ↔
    (g.trackCoherency w).In r a b ∧ ¬(r = .readsFrom ∧ b = read) ∨ r = .readsFrom ∧ a = w ∧ b = read

theorem Writing.revisits (h : g.Writing l w loc) (hread : g.ReadsAt read loc) :
    ∃ c, (g.trackCoherency w).changeReadsFrom read w = .ok c ∧ Revisits g c w read := by
  have hw := h.toWrites
  have hread' : (g.trackCoherency w).ReadsAt read loc := by
    unfold ReadsAt
    rw [hw.event?_trackCoherency]
    exact hread
  have hwhas : (g.trackCoherency w).Has w := by
    rw [has_iff_event?, hw.event?_trackCoherency, ← has_iff_event?]
    exact h.has (h.mem_of_writesTo hw.write)
  obtain ⟨c, hchange, horder, hchains, hevent, htidy, hmirrored, hin⟩ :=
    h.recorded.toWired.changeReadsFrom hread' hwhas
  refine ⟨c, hchange, horder.trans hw.order_trackCoherency, fun loc' => ?_,
    Chained.congr h.recorded.chained horder hevent hchains,
    fun k => (hevent k).trans hw.event?_trackCoherency, htidy, hmirrored, hin⟩
  rw [chain, chain, chain?, chain?, hchains]

section Revisits

variable {c c' : Graph} (h : g.Writing l w loc) (hr : Revisable g w read loc removed)
  (hc : Revisits g c w read)
include h hr hc

/-- What coherency links, and what it will link when writes have gone, goes forward. -/
theorem Revisits.prunes (hlabel : ∀ k, g.isLabel k = false) :
    Prunes c (c.prune removed) removed fun a b =>
      lastly l.idxOf l.length w read a < lastly l.idxOf l.length w read b ∧ b ≠ .init := by
  have hw := h.toWrites
  have hrec := h.recorded
  refine prune_spec (fun k => ?_) hc.tidy hc.mirrored (fun {k e} he hwrite => ?_)
    (fun {loc' k} hloc' hk => ?_) (fun {a b} hab => ?_) fun {loc' a b} hloc' hab => ?_
  · rw [isLabel, kindOf?_congr (hc.event k), ← isLabel, hlabel]
  · have hwrites : g.WritesTo k e.location := ⟨e, hc.event k ▸ he, hwrite, rfl⟩
    refine ⟨?_, fun heq => ?_⟩
    · unfold Event.hasLocation
      simpa using h.located hwrites
    · by_cases hkw : k = w
      · subst hkw
        exact hw.location (hw.write.unique hwrites ▸ heq)
      · exact (h.written hwrites hkw).1 heq
  · rw [hc.chain] at hk
    rw [has_iff_event?, hc.event, ← hw.event?_trackCoherency, ← has_iff_event?]
    rcases hrec.mem_chain hloc' hk with rfl | hwrite
    · exact hrec.has hrec.init_mem
    · exact hrec.has (hrec.mem_of_writesTo hwrite)
  · have hab := ((hc.edge.mp hab).resolve_right fun heq => by simp at heq).1
    obtain ⟨loc', hloc', hadj⟩ := hrec.coherency.mp hab
    exact h.lastly_lt_of_chain hr.reads hloc' (before_of_adjacent (hrec.nodup_chain hloc') hadj)
  · rw [hc.chain] at hab
    have hbefore := before_of_adjacent ((hrec.nodup_chain hloc').filter _) hab
    rw [before_filter] at hbefore
    exact h.lastly_lt_of_chain hr.reads hloc' hbefore.2.2

omit hr in
/-- Edges other than coherency are those that there were, and the one that the read sees. -/
theorem Revisits.in_cases (hne : r ≠ .coherency) (hab : c.In r a b) :
    g.In r a b ∨ r = .readsFrom ∧ a = w ∧ b = read := by
  rcases hc.edge.mp hab with ⟨hab, -⟩ | hnew
  · exact Or.inl (((h.toWrites.in_trackCoherency h.toShaped).mp hab).resolve_right
      fun heq => hne heq.1)
  · exact Or.inr hnew

variable (hp : Prunes c c' removed fun a b => lastly l.idxOf l.length w read a <
  lastly l.idxOf l.length w read b ∧ b ≠ .init)
include hp

/-- **All edges that are left go forward** with the write and the read at the end. -/
theorem Revisits.ranked (hlabel : ∀ k, g.isLabel k = false) :
    c'.Ranked (lastly l.idxOf l.length w read) := by
  intro r a b hab
  by_cases hr' : r = .coherency
  · subst hr'
    exact (hp.coherency hab).1
  · obtain ⟨hab, -, hb⟩ := (hp.other hr').mp hab
    rcases hc.in_cases h hr' hab with hab | ⟨-, rfl, rfl⟩
    · have hmem : b ∈ g.order := (h.mem_or_label (has_of_in hab)).resolve_right fun hlab => by
        rw [hlabel] at hlab
        cases hlab
      exact h.lastly_lt_of_in hmem hab fun heq => hb (hr.after (heq ▸ hab) hmem)
    · have hne : a ≠ b := fun heq => hr.reads.not_writesTo (heq ▸ h.write)
      exact lastly_lt_read hne

theorem Revisits.bare (hlabel : ∀ k, g.isLabel k = false) : c'.Bare := by
  have hkept : ∀ {k}, k ∈ c'.order ↔ k ∈ g.order ∧ k ∉ removed := by
    intro k
    rw [hp.order, hc.order, List.mem_filter]
    simp
  have hevent : ∀ k, c'.event? k = if k ∈ removed then none else g.event? k := fun k => by
    rw [hp.event, hc.event]
  refine ⟨hp.tidy, hp.mirrored, ?_, ?_, fun {k} => ?_, fun k => ?_, fun hk => h.key (hkept.mp hk).1,
    fun {t i a} hk => ?_, fun {r a} hab => ?_⟩
  · rw [hp.order, hc.order]
    exact h.nodup.filter _
  · have hinit : Key.init ∉ removed := fun hk => (hr.mem _ hk).2 rfl
    obtain ⟨rest, hlist⟩ := List.head?_eq_some_iff.mp h.first
    rw [hp.order, hc.order, hlist, List.filter_cons_of_pos (by simpa using hinit)]
    rfl
  · rw [has_iff_event?, hevent, hkept]
    by_cases hk : k ∈ removed
    · simp [hk]
    · rw [if_neg hk, ← has_iff_event?, and_iff_left hk]
      refine ⟨fun hhas => (h.mem_or_label hhas).resolve_right fun hlab => ?_, h.has⟩
      rw [hlabel] at hlab
      cases hlab
  · rw [← Bool.not_eq_true, isLabel_iff_event?]
    rintro ⟨e, he, hblock⟩
    rw [hevent] at he
    split at he
    · cases he
    · have hlab := isLabel_iff_event?.mpr ⟨e, he, hblock⟩
      rw [hlabel] at hlab
      cases hlab
  · obtain ⟨hmem, hk⟩ := hkept.mp hk
    have hpo : c.In .programOrder a (.place t i) ↔ g.In .programOrder a (.place t i) := by
      rw [hc.edge, h.toWrites.in_trackCoherency h.toShaped]
      simp
    rw [hp.other (by decide), hpo]
    constructor
    · exact fun hab => h.programOrder hab.1
    · rintro rfl
      have hab := h.linked (h.has hmem)
      exact ⟨hab, hr.closed rfl hab hmem hk, hk⟩
  · by_cases hr' : r = .coherency
    · subst hr'
      exact (hp.coherency hab).2 rfl
    · rcases hc.in_cases h hr' ((hp.other hr').mp hab).1 with hab | ⟨-, -, heq⟩
      · exact h.no_cause hab
      · exact h.ne_init_of_readsAt hr.reads heq.symm

end Revisits

/-- A revisit is applied in four steps. -/
theorem apply_eq {c c' g' : Graph} (hchange : (g.trackCoherency w).changeReadsFrom read w = .ok c)
    (hset : c.restrictBySet removed = .ok c') (hrun : Graph.recomputeClocks c' = .ok () g') :
    (BackwardRevisit.apply read w removed).run g = .ok () g' := by
  simp only [BackwardRevisit.apply, BackwardRevisit.change, EStateM.run, bind, EStateM.bind,
    modify, modifyGet, MonadStateOf.modifyGet, EStateM.modifyGet, get, getThe, MonadStateOf.get,
    EStateM.get, set, MonadStateOf.set, EStateM.set, hchange, hset, hrun]

/-- **Applying a backward revisit does not fail.** -/
theorem Writing.apply (h : g.Writing l w loc) (hlabel : ∀ k, g.isLabel k = false)
    (hr : Revisable g w read loc removed) :
    ∃ g', (BackwardRevisit.apply read w removed).run g = .ok () g' := by
  obtain ⟨c, hchange, hc⟩ := h.revisits hr.reads
  have hp := hc.prunes h hr hlabel
  obtain ⟨g', hrun, -⟩ := (hc.bare h hr hp hlabel).recomputeClocks (hc.ranked h hr hp hlabel)
  refine ⟨g', apply_eq hchange (restrictBySet_eq hc.chained fun k hk => ?_) hrun⟩
  obtain ⟨hmem, hne⟩ := hr.mem k hk
  exact ⟨hc.order ▸ hmem, h.isInit_of_ne hmem hne⟩

end Interleaving.Graph
