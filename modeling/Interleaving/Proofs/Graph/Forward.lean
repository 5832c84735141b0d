import Interleaving.Proofs.Graph.Alternatives
import Interleaving.Proofs.Graph.Editing
import Interleaving.Proofs.Graph.Initial

/-!
# Forward revisits miss nothing

When a read is recorded, the graph is asked which older writes it could see, and when a write is
recorded, before which writes it could take effect. The answers come from clocks and chains alone
(`Interleaving.Graph.alternativeWrites`, `Interleaving.Graph.coherentPlacings`), while consistency
is a matter of all edges together. No candidate that passes the check of consistency is left out
(`Interleaving.Graph.forward_candidates_complete`):

* a read that saw a write older than one that happens before it would come before its own past;
* so would a write that takes effect before one that happens before it;
* a write in front of the second half of an atomic update would tear the pair.

Both answers are about an event that the rest of the graph does not know yet, so the graph is
well-formed but for this event (`Interleaving.Graph.WellFormedBut`). Whether the rest is consistent
does not matter.

An exclusive write is never among the placings, whether or not it is the second half of an update.
One that stands behind no exclusive read is left out although a write may take effect before it
(`Interleaving.Graph.not_placing_of_loneWrite`), so what is said about placings leaves it out as
well (`Interleaving.Graph.Begun`).
-/

namespace Interleaving.Graph

variable {g : Graph} {a b c k r v w x : Key} {loc : Location} {older newer : List Key}
  {ns : List Node}

/-- **A graph that is well-formed but for one event.** Clocks tell the past, every other write is in
its chain, every other read sees a write of the chain of its location, and atomic updates are
complete. -/
structure WellFormedBut (g : Graph) (x : Key) : Prop extends g.Regular where
  timed : g.Timed
  written : ∀ {k loc}, g.WritesTo k loc → k ≠ x → k ∈ g.chain loc
  sees : ∀ {k loc}, g.ReadsAt k loc → k ≠ x → ∃ w ∈ g.chain loc, g.In .readsFrom w k
  reads : ∀ {a b}, g.In .readsFrom a b → ∃ loc, g.ReadsAt b loc
  completes : g.Completes

/-- An exclusive write is begun: it stands right behind an exclusive read. -/
def Begun (g : Graph) (k : Key) : Prop :=
  ∀ {e}, g.event? k = some e → e.kind = .writeExclusive →
    ∃ j e', k = j.next ∧ g.event? j = some e' ∧ e'.kind = .readExclusive

/-! ### Regular graphs with all sources and all writes -/

theorem Joins.writesTo (h : g.Joins k loc) (hloc : loc ≠ .thread) : g.WritesTo k loc := by
  obtain ⟨e, he, heq, hkind⟩ := h
  rw [if_neg hloc] at hkind
  exact ⟨e, he, hkind, heq⟩

theorem Regular.location_of_readsAt (h : g.Regular) (hk : g.ReadsAt k loc) : 0 < loc := by
  have hmem := h.mem_of_readsAt hk
  obtain ⟨e, he, hread, rfl⟩ := hk
  exact (h.placed hmem he).memory (Or.inl hread)

/-- A regular graph is wired when its reads have sources. -/
theorem Regular.wired (h : g.Regular)
    (hsource : ∀ {k loc}, g.ReadsAt k loc → ∃ w ∈ g.chain loc, g.In .readsFrom w k)
    (hreads : ∀ {a b}, g.In .readsFrom a b → ∃ loc, g.ReadsAt b loc) : g.Wired where
  toShaped := h.toShaped
  mirrored := h.mirrored
  initial := h.initial
  linked := h.linked
  label_end := h.label_end
  no_fromRead := h.no_fromRead
  locations := h.locations
  chain_eq := by
    intro c hc hthread
    obtain ⟨ws, heq, hnodup, hws⟩ := h.chain_eq hc
    exact ⟨ws, heq, hnodup, fun w hw => (hws w hw).writesTo hthread⟩
  coherency := h.coherency
  source := by
    intro k loc hread
    obtain ⟨w, hw, hin⟩ := hsource hread
    exact ⟨ne_thread_of_pos (h.location_of_readsAt hread), w, hw, fun a =>
      ⟨fun ha => h.toFramed.source ha hin, fun heq => heq ▸ hin⟩⟩
  reads := hreads

/-- **A regular graph is well-formed** when, besides, its writes are in their chains. -/
theorem Regular.wellFormed (h : g.Regular)
    (hsource : ∀ {k loc}, g.ReadsAt k loc → ∃ w ∈ g.chain loc, g.In .readsFrom w k)
    (hreads : ∀ {a b}, g.In .readsFrom a b → ∃ loc, g.ReadsAt b loc)
    (hwritten : ∀ {k loc}, g.WritesTo k loc → k ∈ g.chain loc) : g.WellFormed where
  toWired := h.wired hsource hreads
  written := fun hk => ⟨ne_thread_of_pos (h.location_of_writesTo hk).1, hwritten hk⟩

/-- A write that is not in the chain of its location can join it. -/
theorem Regular.writes (h : g.Regular) (hwrite : g.WritesTo x loc) (habsent : x ∉ g.chain loc) :
    g.Writes x loc where
  write := hwrite
  location := ne_thread_of_pos (h.location_of_writesTo hwrite).1
  touched := by
    have hmem := h.mem_of_writesTo hwrite
    have hpos := (h.location_of_writesTo hwrite).1
    obtain ⟨e, he, -, rfl⟩ := hwrite
    exact h.touched hmem he (ne_none_of_pos hpos)
  absent := habsent

/-! ### What numberings know -/

/-- What happens before an event has a lower number. -/
theorem Framed.rank_lt_of_past (h : g.Framed) {rank : Key → Nat}
    (hrank : ∀ {r : Relation} {a b : Key}, r.ordersTime = true → b ∈ g.order → g.In r a b →
      rank a < rank b)
    (hb : b ∈ g.order) (hp : g.Past a b) : rank a < rank b := by
  induction hp with
  | single hab =>
    obtain ⟨r, hr, hin⟩ := hab
    exact hrank hr hb hin
  | tail _ hbc ih =>
    obtain ⟨r, hr, hin⟩ := hbc
    exact (ih (h.source_mem hin)).trans (hrank hr hb hin)

/-- Writes of a chain have numbers that go up. -/
theorem Wired.rank_lt_of_chain (h : g.Wired) (hloc : loc ≠ .thread) {rank : Key → Nat}
    (hrank : ∀ {r : Relation} {a b : Key}, b ∈ g.order → g.In r a b → rank a < rank b)
    (hab : Before (g.chain loc) a b) : rank a < rank b := by
  have hchain : (g.chain loc).Pairwise fun a b => rank a < rank b :=
    pairwise_of_adjacent (fun h h' => Nat.lt_trans h h') fun a b hadj =>
      hrank (h.mem_of_writesTo (h.writesTo_of_adjacent hloc hadj))
        (h.coherency.mpr ⟨loc, hloc, hadj⟩)
  exact rel_of_before (R := fun a b => rank a < rank b) hchain hab

namespace WellFormedBut

variable (h : g.WellFormedBut x)
include h

/-- Only the first event stands in front of a chain. -/
theorem ne_init_of_before (hab : Before (g.chain loc) a b) : b ≠ .init := by
  rintro rfl
  rcases h.chain_cases loc with heq | ⟨ws, heq, -⟩
  · rw [heq] at hab
    cases hab.right_mem
  · rw [heq, before_cons] at hab
    exact hab.1 rfl

/-- A write of a chain is in the past of what it happens before. -/
theorem past_of_happensBefore (hk : k ∈ g.chain loc) (hne : k ≠ .init) (hb : b ∈ g.order)
    (hbefore : g.happensBefore k b = true) : g.Past k b := by
  have hmem := h.mem_order_of_chain hk
  obtain ⟨t, i, rfl⟩ := (h.key hmem).resolve_left hne
  exact h.timed.past_of_happensBefore hmem hb hbefore

/-! ### Reads -/

/-- A read without a source that gets one makes the graph well-formed. -/
theorem wellFormed_setReadsFrom (hread : g.ReadsAt x loc) (hnone : ∀ a, ¬g.In .readsFrom a x)
    (hv : v ∈ g.chain loc) : (g.setReadsFrom x v).WellFormed ∧ (g.setReadsFrom x v).Completes := by
  have hx := h.mem_of_readsAt hread
  have hvo := h.mem_order_of_chain hv
  have hne : x ≠ .init := by
    rintro rfl
    obtain ⟨e, he, hkind, -⟩ := hread
    rw [h.initial he] at hkind
    cases hkind
  have hin : ∀ {r a b}, (g.setReadsFrom x v).In r a b ↔
    g.In r a b ∨ r = .readsFrom ∧ a = v ∧ b = x := in_link (h.has hx)
  have hevent : ∀ k, (g.setReadsFrom x v).event? k = g.event? k := fun k => event?_link
  have hchain : ∀ loc, (g.setReadsFrom x v).chain loc = g.chain loc := fun loc => by
    rw [chain, chain?, setReadsFrom, link_chains, ← chain?, ← chain]
  refine ⟨(h.toRegular.setReadsFrom hx hvo hne hnone).wellFormed ?_ ?_ ?_, ?_⟩
  · intro k loc' hk
    simp only [ReadsAt, hevent] at hk
    rw [hchain]
    by_cases hkx : k = x
    · subst hkx
      obtain rfl := hread.unique hk
      exact ⟨v, hv, hin.mpr (Or.inr ⟨rfl, rfl, rfl⟩)⟩
    · obtain ⟨w, hw, hwk⟩ := h.sees hk hkx
      exact ⟨w, hw, hin.mpr (Or.inl hwk)⟩
  · intro a b hab
    simp only [ReadsAt, hevent]
    rcases hin.mp hab with hab | ⟨-, -, rfl⟩
    · exact h.reads hab
    · exact ⟨loc, hread⟩
  · intro k loc' hk
    simp only [WritesTo, hevent] at hk
    rw [hchain]
    refine h.written hk ?_
    rintro rfl
    exact hread.not_writesTo hk
  · intro k e he hex
    rw [hevent] at he ⊢
    exact h.completes he hex

/-- **A read cannot see a write that is older than one in its past.** -/
theorem not_happensBefore_of_read (hread : g.ReadsAt x loc) (hnone : ∀ a, ¬g.In .readsFrom a x)
    (hns : (g.setReadsFrom x v).consistentOrder = .ok (some ns)) (hvk : Before (g.chain loc) v k) :
    g.happensBefore k x = false := by
  obtain ⟨hwf, hc⟩ := h.wellFormed_setReadsFrom hread hnone hvk.left_mem
  obtain ⟨-, rank, hrank, hfr⟩ := hwf.ranked_of_consistentOrder hc hns
  have hx := h.mem_of_readsAt hread
  have hloc := ne_thread_of_pos (h.toRegular.location_of_readsAt hread)
  have hin : ∀ {r a b}, (g.setReadsFrom x v).In r a b ↔
    g.In r a b ∨ r = .readsFrom ∧ a = v ∧ b = x := in_link (h.has hx)
  have hchain : (g.setReadsFrom x v).chain loc = g.chain loc := by
    rw [chain, chain?, setReadsFrom, link_chains, ← chain?, ← chain]
  have horder : (g.setReadsFrom x v).order = g.order := link_order ..
  rw [← Bool.not_eq_true]
  intro hbefore
  -- the read comes before the next write, which comes before the read
  obtain ⟨y, hy, hyk⟩ := exists_infix_of_before (h.nodup_chain loc) hvk
  have hxy : rank x < rank y := by
    refine hfr (hwf.fromRead_iff.mpr ⟨loc, v, hchain ▸ hy, ?_, ?_⟩)
    · exact hwf.mirrored _ _ _ (hin.mpr (Or.inr ⟨rfl, rfl, rfl⟩))
    · simpa only [ReadsAt, setReadsFrom, event?_link] using hread
  have hkx : rank k < rank x := by
    refine h.toFramed.rank_lt_of_past (fun _ hb hab => ?_) hx
      (h.past_of_happensBefore hvk.right_mem (h.ne_init_of_before hvk) hx hbefore)
    exact hrank (horder ▸ hb) (hin.mpr (Or.inl hab))
  rcases hyk with rfl | hyk
  · exact Nat.lt_asymm hxy hkx
  · have hlt := hwf.toWired.rank_lt_of_chain hloc hrank (hchain.symm ▸ hyk)
    omega

end WellFormedBut

theorem before_append_cons {l l' : List Key} (hnodup : (l ++ a :: l').Nodup) (hb : b ∈ l') :
    Before (l ++ a :: l') a b := by
  obtain ⟨-, hright, hdisjoint⟩ := List.nodup_append.mp hnodup
  have ha : a ∉ l := fun hmem => hdisjoint a hmem a List.mem_cons_self rfl
  have hb' : b ∉ l := fun hmem => hdisjoint b hmem b (List.mem_cons_of_mem _ hb) rfl
  have hne : b ≠ a := by
    rintro rfl
    exact (List.nodup_cons.mp hright).1 hb
  exact before_append.mpr (Or.inr ⟨hb', Or.inr ⟨ha, before_cons.mpr ⟨hne, Or.inl ⟨rfl, hb⟩⟩⟩⟩)

/-- The search for candidates goes past writes that do not happen before the target. -/
theorem upToBefore_append {ks l : List Key} (hks : ∀ k ∈ ks, g.happensBefore k b = false) :
    g.upToBefore b (ks ++ l) = ks ++ g.upToBefore b l := by
  induction ks with
  | nil => rfl
  | cons k ks ih =>
    rw [List.cons_append, upToBefore, if_neg (by simp [hks k List.mem_cons_self]),
      ih fun k hk => hks k (List.mem_cons_of_mem _ hk), List.cons_append]

/-- The candidates reach back to the newest write that happens before the target, or to the oldest
one. -/
theorem splitBefore_append (hnewer : ∀ k ∈ newer, g.happensBefore k b = false) :
    g.splitBefore b (older ++ newer) = newer.reverse ++ g.splitBefore b older := by
  unfold splitBefore
  rw [List.reverse_append, upToBefore_append fun k hk => hnewer k (List.mem_reverse.mp hk)]

theorem mem_splitBefore_concat : c ∈ g.splitBefore b (older ++ [c]) := by
  unfold splitBefore
  rw [List.reverse_append, List.reverse_singleton, List.singleton_append, upToBefore]
  split <;> simp

/-! ### Writes -/

theorem findIdx?_append_cons {l l' : List Key} (h : k ∉ l) :
    (l ++ k :: l').findIdx? (· == k) = some l.length := by
  rw [List.findIdx?_eq_some_iff_getElem]
  refine ⟨by simp, by simp, fun i hi => ?_⟩
  rw [List.getElem_append_left hi]
  simp only [Bool.not_eq_true, beq_eq_false_iff_ne]
  rintro rfl
  exact h (List.getElem_mem hi)

theorem insertIdx_length_append {l l' : List Key} :
    (l ++ l').insertIdx l.length k = l ++ k :: l' := by
  induction l with
  | nil => rfl
  | cons x l ih => rw [List.cons_append, List.length_cons, List.insertIdx_succ_cons, ih,
      List.cons_append]

/-- **A write that is put in front of another one.** -/
theorem swapCoherency_eq (hw : g.Writes w loc) (hc : g.WritesTo c loc)
    (heq : g.chain loc = older ++ c :: newer) (hnodup : (g.chain loc).Nodup) :
    (g.trackCoherency w).swapCoherency w c =
      .ok ((((g.trackCoherency w).unlinkChain (older ++ c :: newer ++ [w])).linkChain
        (older ++ w :: c :: newer)).setChain loc (older ++ w :: c :: newer)) := by
  have hwrites : ∀ {k}, (g.trackCoherency w).WritesTo k loc ↔ g.WritesTo k loc := by
    intro k
    simp only [WritesTo, hw.event?_trackCoherency]
  have hchain : (g.trackCoherency w).chain loc = (older ++ c :: newer) ++ w :: [] := by
    rw [hw.chain_trackCoherency, if_pos rfl, heq]
  have habsent : w ∉ older ++ c :: newer := heq ▸ hw.absent
  have hc' : c ∉ older := by
    intro hmem
    rw [heq] at hnodup
    exact (List.nodup_append.mp hnodup).2.2 c hmem c List.mem_cons_self rfl
  have hlt : older.length < (older ++ c :: newer).length := by simp
  unfold Graph.swapCoherency
  dsimp only
  rw [← locationOf, ← locationOf, locationOf_eq (hwrites.mpr hw.write),
    locationOf_eq (hwrites.mpr hc), if_neg (by simp), hchain, findIdx?_append_cons habsent,
    List.append_assoc, List.cons_append, findIdx?_append_cons hc', ← List.cons_append,
    ← List.append_assoc]
  dsimp only
  rw [Nat.max_eq_left (Nat.le_of_lt hlt), Nat.min_eq_right (Nat.le_of_lt hlt),
    List.getElem?_append_right (Nat.le_refl _), List.eraseIdx_append_of_length_le (Nat.le_refl _),
    Nat.sub_self]
  simp [insertIdx_length_append]

/-- A graph in which a write stands in front of another one, where it was in no chain before. -/
structure Places (g g' : Graph) (w c : Key) (loc : Location) (older newer : List Key) : Prop where
  order : g'.order = g.order
  event : ∀ k, g'.event? k = g.event? k
  other : ∀ {r a b}, r ≠ .coherency → (g'.In r a b ↔ g.In r a b)
  elsewhere : ∀ {loc'}, loc' ≠ loc → g'.chain loc' = g.chain loc'
  before : g.chain loc = older ++ c :: newer
  after : g'.chain loc = older ++ w :: c :: newer

theorem Writes.places (hw : g.Writes w loc) (h : g.Wired) (heq : g.chain loc = older ++ c :: newer)
    (l : List Key) :
    Places g ((((g.trackCoherency w).unlinkChain l).linkChain (older ++ w :: c :: newer)).setChain
      loc (older ++ w :: c :: newer)) w c loc older newer := by
  obtain ⟨hu, -⟩ := unlinkChain_spec (g.trackCoherency w) l
  have hhas : ∀ k ∈ older ++ w :: c :: newer, ((g.trackCoherency w).unlinkChain l).Has k := by
    intro k hk
    rw [hu.has_iff, has_iff_event?, hw.event?_trackCoherency, ← has_iff_event?]
    have hk : k = w ∨ k ∈ g.chain loc := by
      rw [heq]
      simp only [List.mem_append, List.mem_cons] at hk ⊢
      tauto
    rcases hk with rfl | hk
    · exact h.has (h.mem_of_writesTo hw.write)
    · rcases h.mem_chain hw.location hk with rfl | hk
      · exact h.has h.init_mem
      · exact h.has (h.mem_of_writesTo hk)
  obtain ⟨hl, -⟩ := linkChain_spec _ _ hhas
  have hr := hu.trans hl
  refine ⟨hr.order.trans hw.order_trackCoherency,
    fun k => (hr.event k).trans hw.event?_trackCoherency,
    fun {r a b} hne => (hr.other hne).trans ?_, fun {loc'} hne => ?_, heq, ?_⟩
  · rw [hw.in_trackCoherency h.toShaped]
    exact or_iff_left fun hco => hne hco.1
  · rw [chain_setChain, if_neg hne, Graph.chain, chain?, hr.chains, ← chain?, ← Graph.chain,
      hw.chain_trackCoherency, if_neg hne]
  · rw [chain_setChain, if_pos rfl]

namespace WellFormedBut

variable (h : g.WellFormedBut x)
include h

theorem wired (hwrite : g.WritesTo x loc) : g.Wired := by
  refine h.toRegular.wired (fun {k loc'} hk => h.sees hk ?_) h.reads
  rintro rfl
  exact hk.not_writesTo hwrite

theorem wellFormed_of_places {g' : Graph} (hwrite : g.WritesTo x loc)
    (hp : Places g g' x c loc older newer) (hg' : g'.Regular) : g'.WellFormed ∧ g'.Completes := by
  have hmem : ∀ {k loc'}, k ∈ g.chain loc' → k ∈ g'.chain loc' := by
    intro k loc' hk
    by_cases hloc : loc' = loc
    · subst hloc
      rw [hp.before] at hk
      rw [hp.after]
      simp only [List.mem_append, List.mem_cons] at hk ⊢
      tauto
    · rwa [hp.elsewhere hloc]
  refine ⟨hg'.wellFormed ?_ ?_ ?_, ?_⟩
  · intro k loc' hk
    simp only [ReadsAt, hp.event] at hk
    obtain ⟨w, hw, hin⟩ := (h.wired hwrite).source hk |>.2
    exact ⟨w, hmem hw, (hp.other (by decide)).mpr ((hin w).mpr rfl)⟩
  · intro a b hin
    simp only [ReadsAt, hp.event]
    exact h.reads ((hp.other (by decide)).mp hin)
  · intro k loc' hk
    simp only [WritesTo, hp.event] at hk
    by_cases hkx : k = x
    · subst hkx
      obtain rfl := hwrite.unique hk
      rw [hp.after]
      simp
    · exact hmem (h.written hk hkx)
  · intro k e he hex
    rw [hp.event] at he ⊢
    exact h.completes he hex

/-- **A new write can be put in front of any other one**, and the graph is well-formed then. -/
theorem exists_places (hwrite : g.WritesTo x loc) (habsent : x ∉ g.chain loc)
    (heq : g.chain loc = older ++ c :: newer) (hne : c ≠ .init) :
    ∃ g', (g.trackCoherency x).swapCoherency x c = .ok g' ∧ Places g g' x c loc older newer ∧
      g'.WellFormed ∧ g'.Completes := by
  have hw := h.writes hwrite habsent
  have hcw : g.WritesTo c loc :=
    ((h.mem_chain (by rw [heq]; simp)).resolve_left hne).writesTo hw.location
  have hswap := swapCoherency_eq hw hcw heq (h.nodup_chain loc)
  have hwrites : ∀ {k}, g.WritesTo k loc → (g.trackCoherency x).WritesTo k loc := fun hk => by
    simpa only [WritesTo, hw.event?_trackCoherency] using hk
  have htracked := h.toRegular.trackCoherency hwrite (Or.inl habsent)
  have hregular := htracked.swapCoherency (hwrites hwrite) (hwrites hcw) hswap
  have hp := hw.places (h.wired hwrite) heq (older ++ c :: newer ++ [x])
  exact ⟨_, hswap, hp, h.wellFormed_of_places hwrite hp hregular⟩

section Placing

variable {g' : Graph} (hwrite : g.WritesTo x loc) (hp : Places g g' x c loc older newer)
  (hwf : g'.WellFormed) (hc : g'.Completes) (hne : c ≠ .init)
  (hns : g'.consistentOrder = .ok (some ns))
include hwrite hp hwf hc hne hns

/-- **A write cannot take effect before one in its past.** -/
theorem not_happensBefore_of_places (hk : k ∈ c :: newer) : g.happensBefore k x = false := by
  obtain ⟨-, rank, hrank, -⟩ := hwf.ranked_of_consistentOrder hc hns
  have hx := h.mem_of_writesTo hwrite
  have hloc := ne_thread_of_pos (h.location_of_writesTo hwrite).1
  rw [← Bool.not_eq_true]
  intro hbefore
  -- the write comes before `k`, which comes before the write
  have hxk : rank x < rank k := by
    refine hwf.toWired.rank_lt_of_chain hloc hrank ?_
    have hnodup := hwf.nodup_chain hloc
    rw [hp.after] at hnodup ⊢
    exact before_append_cons hnodup hk
  have hmem : k ∈ g.chain loc := by
    rw [hp.before]
    exact List.mem_append_right _ hk
  have hinit : k ≠ .init := by
    rcases List.mem_cons.mp hk with rfl | hk
    · exact hne
    · have hnodup := h.nodup_chain loc
      rw [hp.before] at hnodup
      exact h.ne_init_of_before (hp.before ▸ before_append_cons hnodup hk)
  have hkx : rank k < rank x := by
    refine h.toFramed.rank_lt_of_past (fun hr hb hab => ?_) hx
      (h.past_of_happensBefore hmem hinit hx hbefore)
    exact hrank (hp.order ▸ hb) ((hp.other (by rintro rfl; cases hr)).mpr hab)
  exact Nat.lt_asymm hxk hkx

/-- **No write comes between the halves of an atomic update.** -/
theorem not_isExclusiveWrite_of_places (hbegun : g.Begun c) : g.isExclusiveWrite c = false := by
  obtain ⟨hwhole, -⟩ := hwf.ranked_of_consistentOrder hc hns
  have hloc := ne_thread_of_pos (h.location_of_writesTo hwrite).1
  have hmem : c ∈ g.chain loc := by simp [hp.before]
  have hnodup := hwf.nodup_chain hloc
  rw [← Bool.not_eq_true]
  intro hex
  obtain ⟨e, he, hkind, rfl⟩ := ((h.mem_chain hmem).resolve_left hne).writesTo hloc
  have hexkind : e.kind = .writeExclusive := by
    rw [isExclusiveWrite, kindOf?_of_event? he] at hex
    simpa [Kind.isExclusiveWrite] using hex
  obtain ⟨j, e', rfl, he', hkind'⟩ := hbegun he hexkind
  obtain ⟨e'', he'', -, hsame⟩ := h.completes he' (by rw [hkind']; rfl)
  obtain rfl := Option.some.inj (he.symm.trans he'')
  have hlock : g.LocksAt j e.location := ⟨e', he', by rw [hkind']; rfl, hsame.symm⟩
  -- the read sees the write right before its own, which the new write is not
  obtain ⟨w, hw, hwj⟩ :=
    h.sees hlock.readsAt (by rintro rfl; exact hlock.readsAt.not_writesTo hwrite)
  have hwx : w ≠ x := by
    rintro rfl
    rw [hp.before] at hw
    rw [hp.after] at hnodup
    simp only [List.nodup_append, List.nodup_cons, List.mem_append, List.mem_cons] at hnodup hw
    grind
  have hadj : [w, j.next] <:+: g'.chain e.location := by
    refine hwf.whole_iff.mp hwhole (hwf.mirrored _ _ _ ((hp.other (by decide)).mpr hwj)) ?_
    simpa only [LocksAt, hp.event] using hlock
  have hadj' : [x, j.next] <:+: g'.chain e.location := by
    rw [hp.after]
    exact ⟨older, newer, by simp⟩
  have hwx' := (Before.of_adjacent hnodup hadj').2 w (before_of_adjacent hnodup hadj) hwx
  have hxw := (Before.of_adjacent hnodup hadj).2 x (before_of_adjacent hnodup hadj') hwx.symm
  exact hwx'.asymm hxw

end Placing

end WellFormedBut

/-! ### What the graph is asked -/

theorem locationOf_of_readsAt (h : g.ReadsAt r loc) : g.locationOf r = loc := by
  obtain ⟨e, he, -, rfl⟩ := h
  obtain ⟨m, hm, rfl⟩ := Option.map_eq_some_iff.mp he
  rw [locationOf, hm]
  rfl

namespace WellFormedBut

/-- A write that a read can see is the last one of its chain or among the alternatives, and it is
the last one if that happens before the read. -/
theorem mem_alternativeWrites (h : g.WellFormedBut r) (hread : g.ReadsAt r loc)
    (hnone : ∀ a, ¬g.In .readsFrom a r) (hv : v ∈ g.chain loc)
    (hns : (g.setReadsFrom r v).consistentOrder = .ok (some ns)) :
    (v = g.lastWrite loc ∨ v ∈ g.alternativeWrites r) ∧
      (g.happensBefore (g.lastWrite loc) r = true → v = g.lastWrite loc) := by
  have hnot : ∀ k, Before (g.chain loc) v k → g.happensBefore k r = false := fun k hvk =>
    h.not_happensBefore_of_read hread hnone hns hvk
  rcases before_lastWrite (h.nodup_chain loc) hv with heq | hlast
  · exact ⟨Or.inl heq, fun _ => heq⟩
  refine ⟨Or.inr ?_, fun hbefore => ?_⟩
  · have hconcat := chain_eq_concat (List.ne_nil_of_mem hv)
    have hmem : v ∈ (g.chain loc).dropLast := by
      rw [hconcat] at hv
      exact (List.mem_append.mp hv).resolve_right fun heq => hlast.ne (List.mem_singleton.mp heq)
    obtain ⟨older, newer, hdrop⟩ := List.append_of_mem hmem
    have hlong : ¬(g.chain loc).length ≤ 1 := by
      rw [hconcat, hdrop]
      simp only [List.length_append, List.length_cons, List.length_nil]
      omega
    unfold alternativeWrites
    dsimp only
    rw [locationOf_of_readsAt hread, if_neg hlong, hdrop]
    -- no write behind it happens before the read, so the cut keeps it
    rw [List.append_cons, splitBefore_append fun k hk => hnot k ?_]
    · exact List.mem_append_right _ mem_splitBefore_concat
    have hnodup := h.nodup_chain loc
    rw [hconcat, hdrop, List.append_assoc, List.cons_append] at hnodup ⊢
    exact before_append_cons hnodup (List.mem_append_left _ hk)
  · rw [hnot _ hlast] at hbefore
    cases hbefore

/-- A new write can be put in front of a plain write when neither that one nor one behind it happens
before the new write. -/
theorem mem_coherentPlacings (h : g.WellFormedBut w) (hwrite : g.WritesTo w loc)
    (hkind : g.kindOf? w = some .write) (habsent : w ∉ g.chain loc)
    (heq : g.chain loc = older ++ c :: newer) (hne : c ≠ .init)
    (hnot : ∀ k ∈ c :: newer, g.happensBefore k w = false) (hplain : g.isExclusiveWrite c = false) :
    ∃ ks, g.coherentPlacings w = .ok ks ∧ c ∈ ks := by
  have hfilter : ((g.chain loc).filter fun k => k != w) = older ++ c :: newer := by
    rw [← heq, List.filter_eq_self]
    intro k hk
    rw [bne_iff_ne]
    rintro rfl
    exact habsent hk
  have holder : older ≠ [] := by
    rintro rfl
    rcases h.chain_cases loc with hnil | ⟨ws, hws, -⟩
    · rw [hnil] at heq
      cases heq
    · rw [hws] at heq
      exact hne (List.cons.inj heq).1.symm
  have hwplain : ¬g.isExclusiveWrite w = true := by
    rw [isExclusiveWrite, hkind]
    decide
  unfold coherentPlacings
  rw [if_neg hwplain, locationOf_eq hwrite, hfilter, splitBefore_append hnot]
  dsimp only
  have hsplit : g.splitBefore w older ≠ [] := splitBefore_ne_nil holder
  rw [if_neg (by simp), List.dropLast_append_of_ne_nil hsplit]
  exact ⟨_, rfl, List.mem_filter.mpr ⟨List.mem_append_left _ (by simp), by simpa using hplain⟩⟩

end WellFormedBut

/-- **Forward revisits miss nothing.** A write that a read can see without making the graph
inconsistent is the last one or among the alternatives, and it is the last one if that happens
before the read. A new write that can be put in front of another one without making the graph
inconsistent has it among its placings, unless the other one is an exclusive write that stands
behind no exclusive read. -/
theorem forward_candidates_complete :
    (∀ {g : Graph} {r v : Key} {loc : Location} {ns : List Node}, g.WellFormedBut r →
      g.ReadsAt r loc → (∀ a, ¬g.In .readsFrom a r) → v ∈ g.chain loc →
      (g.setReadsFrom r v).consistentOrder = .ok (some ns) →
        (v = g.lastWrite loc ∨ v ∈ g.alternativeWrites r) ∧
          (g.happensBefore (g.lastWrite loc) r = true → v = g.lastWrite loc)) ∧
    ∀ {g : Graph} {w c : Key} {loc : Location} {older newer : List Key}, g.WellFormedBut w →
      g.WritesTo w loc → g.kindOf? w = some .write → w ∉ g.chain loc →
      g.chain loc = older ++ c :: newer → c ≠ .init → g.Begun c →
        ∃ g', (g.trackCoherency w).swapCoherency w c = .ok g' ∧ Places g g' w c loc older newer ∧
          ∀ {ns : List Node}, g'.consistentOrder = .ok (some ns) →
            ∃ ks, g.coherentPlacings w = .ok ks ∧ c ∈ ks := by
  refine ⟨fun h hread hnone hv hns => h.mem_alternativeWrites hread hnone hv hns, ?_⟩
  intro g w c loc older newer h hwrite hkind habsent heq hne hbegun
  obtain ⟨g', hswap, hp, hwf, hc⟩ := h.exists_places hwrite habsent heq hne
  refine ⟨g', hswap, hp, fun {ns} hns => ?_⟩
  have hnot : ∀ k ∈ c :: newer, g.happensBefore k w = false := fun k hk =>
    h.not_happensBefore_of_places hwrite hp hwf hc hne hns hk
  exact h.mem_coherentPlacings hwrite hkind habsent heq hne hnot
    (h.not_isExclusiveWrite_of_places hwrite hp hwf hc hne hns hbegun)

/-! ### A location that is written and touched again -/

/-- A write of one task in its chain, and a read or a write of another task that has just been
recorded. -/
def askingGraph (first second : Kind) : Graph :=
  ((writingGraph first).ensureTask 1).insertEvent (.new 1 second 1)

theorem exists_node_of_event? {e : Event} (he : g.event? k = some e) :
    ∃ n ∈ g.nodes, n.key = k ∧ n.event = e := by
  obtain ⟨n, hn, heq⟩ := Option.map_eq_some_iff.mp he
  exact ⟨n, List.mem_of_find?_eq_some hn, key_of_find? hn, heq⟩

section Asking

variable {first second : Kind} (hfirst : first = .write ∨ first = .writeExclusive)
  (hsecond : second = .read ∨ second = .write)
include hfirst hsecond

theorem entry_askingGraph :
    Entry (writingGraph first) ([.init] ++ [.place 0 0]) (.new 1 second 1) 1 0 where
  recorded := by
    have hentry : Entry Graph.initial [.init] (.new 0 first 1) 0 0 :=
      ⟨recorded_initial, rfl,
        fills_initial 0, by decide, by decide, by rcases hfirst with rfl | rfl <;> decide,
        by decide⟩
    have hwrite : (Event.new 0 first 1).kind.isWrite = true := by
      rcases hfirst with rfl | rfl <;> rfl
    obtain ⟨hw, hp⟩ := hentry.writes paired_initial hwrite (by decide : (1 : Location) ≠ .none)
      (by decide : (1 : Location) ≠ .thread)
    exact (hentry.takesEffect hwrite hw hp (.refl _) hw.toWired).1.recorded
  task := rfl
  fills := by
    intro i
    simp [show (writingGraph first).order = [.init, .place 0 0] from rfl, Key.place, Key.init]
  free := by rcases hfirst with rfl | rfl <;> decide
  going := by rcases hfirst with rfl | rfl <;> decide
  kind := by rcases hsecond with rfl | rfl <;> decide
  room := (by decide : 2 + 1 < 2 ^ 62)

/-- Nothing but the event that was recorded last may be a read, and no read is exclusive. -/
theorem nodes_askingGraph :
    ∀ n ∈ (askingGraph first second).nodes,
      (n.event.kind.isWrite = true → n.key ≠ .place 1 0 →
        n.key ∈ (askingGraph first second).chain n.event.location) ∧
        (n.event.kind.isRead = true → n.key = .place 1 0) ∧ (∀ p ∈ n.pred, p.1 ≠ .readsFrom) ∧
          n.event.kind.isExclusiveRead = false := by
  rcases hfirst with rfl | rfl <;> rcases hsecond with rfl | rfl <;> decide

theorem not_readsFrom_askingGraph : ¬(askingGraph first second).In .readsFrom a b :=
  not_in_of_nodes fun n hn hin =>
    (nodes_askingGraph hfirst hsecond n hn).2.2.1 (.readsFrom, a) hin rfl

/-- The graph is well-formed but for the event that was recorded last. -/
theorem wellFormedBut_askingGraph : (askingGraph first second).WellFormedBut (.place 1 0) where
  toRegular := by
    have hwrite : first.isWrite = true := by rcases hfirst with rfl | rfl <;> rfl
    have htouches : second.isRead = true ∨ second.isWrite = true := by
      rcases hsecond with rfl | rfl <;> decide
    have hkind : second ≠ .block := by rcases hsecond with rfl | rfl <;> decide
    refine regular_of_edits (edits_insertEvent (e := .new 1 second 1) (k := .place 1 0)
      (edits_writingGraph hwrite) (Int.zero_le_ofNat 1) hkind (placed_new htouches (by decide)) ?_)
    rcases hfirst with rfl | rfl <;> rcases hsecond with rfl | rfl <;> rfl
  timed := by
    have htimed := (entry_askingGraph hfirst hsecond).timed
    rwa [noted, prepared, ← insertEvent_eq_withEvent] at htimed
  written := by
    rintro k loc ⟨e, he, hwrite, rfl⟩ hne
    obtain ⟨n, hn, rfl, rfl⟩ := exists_node_of_event? he
    exact (nodes_askingGraph hfirst hsecond n hn).1 hwrite hne
  sees := by
    rintro k loc ⟨e, he, hread, rfl⟩ hne
    obtain ⟨n, hn, rfl, rfl⟩ := exists_node_of_event? he
    exact absurd ((nodes_askingGraph hfirst hsecond n hn).2.1 hread) hne
  reads := fun hin => absurd hin (not_readsFrom_askingGraph hfirst hsecond)
  completes := by
    intro k e he hex
    obtain ⟨n, hn, rfl, rfl⟩ := exists_node_of_event? he
    rw [(nodes_askingGraph hfirst hsecond n hn).2.2.2] at hex
    cases hex

end Asking

/-- The check of consistency accepts a graph when it finds an order. -/
theorem exists_order (h : g.consistentOrder.toOption.join.isSome = true) :
    ∃ ns, g.consistentOrder = .ok (some ns) := by
  cases hfound : g.consistentOrder with
  | error err =>
    rw [hfound] at h
    cases h
  | ok found =>
    cases found with
    | none =>
      rw [hfound] at h
      cases h
    | some ns => exact ⟨ns, rfl⟩

/-- The check accepts what a change gives when it finds an order there. -/
theorem exists_changed_order (found : Except Error Graph)
    (h : found.toOption.any (fun g => g.consistentOrder.toOption.join.isSome) = true) :
    ∃ g' ns, found = .ok g' ∧ g'.consistentOrder = .ok (some ns) := by
  cases found with
  | error err => cases h
  | ok g' =>
    obtain ⟨ns, hns⟩ := exists_order h
    exact ⟨g', ns, rfl, hns⟩

/-- A read may also see the first event, and a write may take effect before the one that is
there. -/
theorem forward_candidates_askingGraph :
    (Key.init = (askingGraph .write .read).lastWrite 1 ∨
        Key.init ∈ (askingGraph .write .read).alternativeWrites (.place 1 0)) ∧
      ∃ ks, (askingGraph .write .write).coherentPlacings (.place 1 0) = .ok ks ∧
        Key.place 0 0 ∈ ks := by
  constructor
  · obtain ⟨ns, hns⟩ :
        ∃ ns, ((askingGraph .write .read).setReadsFrom (.place 1 0) .init).consistentOrder =
          .ok (some ns) :=
      exists_order (by decide +kernel)
    have hread : (askingGraph .write .read).ReadsAt (.place 1 0) 1 := ⟨_, rfl, rfl, rfl⟩
    exact (forward_candidates_complete.1 (wellFormedBut_askingGraph (Or.inl rfl) (Or.inl rfl)) hread
      (fun _ => not_readsFrom_askingGraph (Or.inl rfl) (Or.inl rfl)) (by decide) hns).1
  · have hwrite : (askingGraph .write .write).WritesTo (.place 1 0) 1 := ⟨_, rfl, rfl, rfl⟩
    have hchain : (askingGraph .write .write).chain 1 = [.init] ++ .place 0 0 :: [] := by decide
    have hbegun : (askingGraph .write .write).Begun (.place 0 0) := by
      rintro e he hkind
      obtain rfl := Option.some.inj he
      cases hkind
    obtain ⟨g', hswap, -, hplacing⟩ :=
      forward_candidates_complete.2 (wellFormedBut_askingGraph (Or.inl rfl) (Or.inr rfl)) hwrite
        (by decide) (by decide) hchain (by decide) hbegun
    obtain ⟨g'', ns, hswap', hns⟩ :=
      exists_changed_order (((askingGraph .write .write).trackCoherency (.place 1 0)).swapCoherency
        (.place 1 0) (.place 0 0)) (by decide +kernel)
    obtain rfl := Except.ok.inj (hswap.symm.trans hswap')
    exact hplacing hns

/-- **An exclusive write that stands behind no exclusive read is no placing**, although the new
write may take effect before it: the graph is well-formed but for the new write, which is its latest
event, the rest passes the check of consistency, and so does the graph in which the new write comes
first. -/
theorem not_placing_of_loneWrite :
    (askingGraph .writeExclusive .write).WellFormedBut (.place 1 0) ∧
      (askingGraph .writeExclusive .write).order = [.init, .place 0 0, .place 1 0] ∧
      (∃ g₀ ms, (askingGraph .writeExclusive .write).restrictBySet [.place 1 0] = .ok g₀ ∧
        g₀.consistentOrder = .ok (some ms)) ∧
      (askingGraph .writeExclusive .write).WritesTo (.place 1 0) 1 ∧
      (askingGraph .writeExclusive .write).kindOf? (.place 1 0) = some .write ∧
      (askingGraph .writeExclusive .write).chain 1 = [.init, .place 0 0] ∧
      (∃ g' ns, ((askingGraph .writeExclusive .write).trackCoherency (.place 1 0)).swapCoherency
          (.place 1 0) (.place 0 0) = .ok g' ∧
        g'.chain 1 = [.init, .place 1 0, .place 0 0] ∧ g'.consistentOrder = .ok (some ns)) ∧
      (askingGraph .writeExclusive .write).coherentPlacings (.place 1 0) = .ok [] := by
  refine ⟨wellFormedBut_askingGraph (Or.inr rfl) (Or.inr rfl), by decide,
    exists_changed_order _ (by decide +kernel), ⟨_, rfl, rfl, rfl⟩, by decide, by decide,
    ?_, by decide⟩
  obtain ⟨g', ns, hswap, hns⟩ :=
    exists_changed_order
      (((askingGraph .writeExclusive .write).trackCoherency (.place 1 0)).swapCoherency
        (.place 1 0) (.place 0 0)) (by decide +kernel)
  have hchain :
      (((askingGraph .writeExclusive .write).trackCoherency (.place 1 0)).swapCoherency
        (.place 1 0) (.place 0 0)).toOption.map (·.chain 1) =
          some [.init, .place 1 0, .place 0 0] := by
    decide +kernel
  rw [hswap] at hchain
  exact ⟨g', ns, hswap, Option.some.inj hchain, hns⟩

end Interleaving.Graph
