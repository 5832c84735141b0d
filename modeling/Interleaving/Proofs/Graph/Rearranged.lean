import Interleaving.Proofs.Graph.Latest
import Interleaving.Proofs.Graph.Reclocking

/-!
# Rearranging a graph that is laid out

To make another candidate of a recorded graph, a write takes effect last or moves in its chain, a
read sees another write, and events are taken out. All of this keeps a graph laid out. Clocks do not
follow it, until they are computed anew: when that succeeds in a graph without labels, **the graph
is steady again** (`Interleaving.Graph.Laid.recomputeClocks`).
-/

namespace Interleaving

namespace Graph

variable {g g' : Graph} {a b k w : Key} {r : Relation} {e : Event} {t n i j u : Nat}
  {loc : Location} {ks : List Key} {removed : List Key} {N M : Nat} {c : Clock}

/-! ### Coherency alone -/

theorem clockOf_link_coherency : (g.link a b .coherency).clockOf k = g.clockOf k := by
  unfold clockOf
  rw [find?_link, Option.map_map]
  congr 2
  funext m
  exact if_neg fun heq => absurd heq.2 (by decide)

theorem clockOf_unlinkChain (g : Graph) (ks : List Key) (k : Key) :
    (g.unlinkChain ks).clockOf k = g.clockOf k := by
  fun_induction Graph.unlinkChain g ks with
  | case1 g a b more ih => rw [ih, clockOf_unlink]
  | case2 => rfl

theorem clockOf_linkChain (g : Graph) (ks : List Key) (k : Key) :
    (g.linkChain ks).clockOf k = g.clockOf k := by
  fun_induction Graph.linkChain g ks with
  | case1 g a b more ih => rw [ih, clockOf_link_coherency]
  | case2 => rfl

/-- The later of two neighbours is not the first event. -/
theorem Strung.mem_of_infix (h : Strung ks) (hab : [a, b] <:+: ks) : b ∈ ks ∧ b ≠ .init := by
  obtain ⟨ws, rfl, -, hws⟩ := h
  have hb : b ∈ ws := by
    rcases infix_cons_iff.mp hab with ⟨-, hhead⟩ | hab
    · exact List.mem_of_mem_head? hhead
    · exact hab.subset (by simp)
  refine ⟨List.mem_cons_of_mem _ hb, ?_⟩
  obtain ⟨t, i, rfl⟩ := hws b hb
  exact Key.place_ne_init t i

namespace Laid

variable (h : g.Laid)
include h

/-- The same events with other coherency edges. -/
theorem recohere (hr : Recoheres g g') (htasks : g'.tasks = g.tasks)
    (hwaiting : g'.waiting = g.waiting)
    (hco : ∀ {a b}, g'.In .coherency a b → g.In .coherency a b ∨ b ∈ g.order ∧ b ≠ .init) :
    g'.Laid := by
  refine h.congr (h.toShaped.congr (hr.tidy h.tidy) hr.order htasks
    (fun k => kindOf?_congr (hr.event k)) ?_) hr.order
    (fun k _ => face_congr (hr.event k)) (fun _ hin => (hr.other (by decide)).mpr hin)
    (fun loc => ?_) fun loc => ?_
  · intro r a b hin
    by_cases heq : r = .coherency
    · subst heq
      exact (hco hin).imp_right fun hb => ⟨hb.1, hb.2, fun heq => by cases heq⟩
    · exact Or.inl ((hr.other heq).mp hin)
  · rw [waitingFor, hwaiting, ← waitingFor]
    exact h.waits loc
  · rw [chain, chain?, hr.chains, ← chain?, ← chain]
    exact h.strung loc

/-- **A chain is linked anew.** -/
theorem relink (old : List Key) (hks : Strung ks) (hmem : ∀ k ∈ ks, k ∈ g.order) :
    ((g.unlinkChain old).linkChain ks).Laid ∧ Recoheres g ((g.unlinkChain old).linkChain ks) := by
  obtain ⟨hu, huco⟩ := unlinkChain_spec g old
  obtain ⟨hl, hlco⟩ := linkChain_spec (g.unlinkChain old) ks fun k hk =>
    hu.has_iff.mpr (h.has (hmem k hk))
  have htasks := linkChain_tasks (g.unlinkChain old) ks
  have htasks' := unlinkChain_tasks g old
  refine ⟨h.recohere (hu.trans hl) (htasks.1.trans htasks'.1) (htasks.2.trans htasks'.2)
    fun hin => ?_, hu.trans hl⟩
  rcases hlco hin with hin | hab
  · exact Or.inl (huco hin)
  · obtain ⟨hb, hne⟩ := hks.mem_of_infix hab
    exact Or.inr ⟨hmem _ hb, hne⟩

end Laid

/-! ### Clocks computed anew -/

/-- Clocks count no more events of a task than it has. -/
def Counted (g : Graph) : Prop := ∀ {t n : Nat}, g.Fills t n → ∀ k, (g.clockOf k).count t ≤ n

/-- A bound on the places of events that leaves room for the pairs that are still open. -/
structure Roomy (g : Graph) (N : Nat) : Prop where
  place : ∀ {t i : Nat}, .place t i ∈ g.order → i + 1 ≤ N
  ample : g.Ample N
  room : N < 2 ^ 62

/-- **A steady graph as it is when its clocks have just been computed**: without labels, and with
clocks that count what there is. -/
structure Fresh (g : Graph) (N : Nat) : Prop extends g.Steady N where
  unlabelled : ∀ k, g.isLabel k = false
  counted : g.Counted

theorem Steady.roomy (h : g.Steady N) : g.Roomy N := ⟨h.place_le h.toShaped, h.ample, h.room⟩

/-- Some of the events, or all of them. -/
theorem Roomy.of_subset (h : g.Roomy N) (hs : g'.Shaped) (hsub : ∀ k ∈ g'.order, k ∈ g.order)
    (hevent : ∀ k ∈ g'.order, g'.event? k = g.event? k) : g'.Roomy N where
  place := fun hk => h.place (hsub _ hk)
  ample := by
    intro t i e he hex
    have hk := (hs.mem_iff he).mpr fun hblock => by
      rw [hblock] at hex
      cases hex
    exact h.ample (hevent _ hk ▸ he) hex
  room := h.room

theorem Fills.le (hn : g.Fills t n) (h : g.Roomy N) : n ≤ N := by
  cases n with
  | zero => exact Nat.zero_le N
  | succ n => exact h.place ((hn n).mpr (Nat.lt_succ_self n))

theorem Laid.formed (h : g.Laid) (hlabel : ∀ k, g.isLabel k = false) : g.Formed where
  tidy := h.tidy
  nodup := h.nodup
  first := h.first
  has_iff := by
    intro k
    rw [hlabel]
    refine ⟨fun hk => Or.inl ((h.mem_or_label hk).resolve_right (by simp [hlabel])), ?_⟩
    rintro (hk | ⟨hk, -⟩)
    · exact h.has hk
    · cases hk
  not_label := fun _ => hlabel _
  label_pred := by simp [hlabel]
  label_succ := by simp [hlabel]
  no_cause := h.no_cause
  caused := by
    intro b hb hne
    have hmem : b ∈ g.order := (h.mem_or_label hb).resolve_right (by simp [hlabel])
    obtain ⟨t, i, rfl⟩ := (h.key hmem).resolve_left hne
    exact ⟨_, _, h.linked hmem⟩

/-- Clocks that tell the past count what there is, and rise along every task. -/
theorem Timed.rising (ht : g.Timed) (hd : g.Dense) (hlabel : ∀ k ∉ g.order, g.find? k = none)
    (h : g.Shaped) (hr : g.Roomy N) : g.Rising N ∧ g.Counted := by
  have hnonneg : ∀ k, (g.clockOf k).Nonneg := by
    intro k
    by_cases hk : k ∈ g.order
    · exact (ht k hk).nonneg
    · exact (clock_of_absent (hlabel k hk) N).1
  have hcounted : g.Counted := by
    intro t n hn k
    refine le_of_forall_lt (Int.natCast_nonneg n) fun i hi => ?_
    by_cases hk : k ∈ g.order
    · have hpast : .place t i ∈ g.order := by
        rcases ((ht k hk).count t i).mp hi with rfl | hpast
        · exact hk
        · exact hd.past_mem hk hpast
      exact_mod_cast (hn i).mp hpast
    · rw [clockOf, hlabel k hk] at hi
      exact absurd hi (Int.not_lt.mpr (Int.natCast_nonneg i))
  have hbounded : ∀ k, ∀ u : Nat, (g.clockOf k).count u ≤ N := by
    intro k u
    obtain ⟨n, hn, -⟩ := h.tasks u
    exact (hcounted hn k).trans (by exact_mod_cast hn.le hr)
  refine ⟨⟨hnonneg, fun k _ u => hbounded k u, fun k u => (hbounded k u).trans (by omega), ?_, ?_⟩,
    hcounted⟩
  · intro t i hk u
    refine le_of_forall_lt (hnonneg _ u) fun j hj => ?_
    refine ((ht _ hk).count u j).mpr (Or.inr ?_)
    have hprior := hd.earlier_prior hk
    rcases ((ht _ (hd.prior_mem hk)).count u j).mp hj with heq | hpast
    · exact heq ▸ .single hprior
    · exact .tail hpast hprior
  · intro t i hk
    have hself : (i : Int) < (g.clockOf (.place t i)).count t :=
      ((ht _ hk).count t i).mpr (Or.inl rfl)
    rwa [(ht _ (hd.prior_mem hk)).count_prior hd hk]

/-- **Clocks that could be computed anew make a graph without labels steady**, whatever they
were. -/
theorem Laid.recomputeClocks (h : g.Laid) (hlabel : ∀ k, g.isLabel k = false) (hr : g.Roomy N)
    (hg' : Graph.recomputeClocks.run g = .ok () g') : g'.Fresh N ∧ Reclocked g g' := by
  obtain ⟨hc, ht, hd, -⟩ := timed_of_recomputeClocks (h.formed hlabel) (fun {k} hk => by
    refine (h.key hk).imp_right ?_
    rintro ⟨t, i, rfl⟩
    have hle := hr.place hk
    have hroom := hr.room
    exact ⟨t, i, rfl, by omega⟩) (fun hk => ⟨h.programOrder, fun heq => heq ▸ h.linked hk⟩) hg'
  have hlaid := h.of_reclocked hc
  have hlabel' : ∀ k, g'.isLabel k = false := fun k => by
    rw [isLabel, kindOf?_congr hc.event?, ← isLabel, hlabel]
  have hnone : ∀ k ∉ g'.order, g'.find? k = none := fun k hk => by
    refine Option.not_isSome_iff_eq_none.mp fun hhas => hk ?_
    exact (hlaid.mem_or_label hhas).resolve_right (by simp [hlabel'])
  have hroomy := hr.of_subset hlaid.toShaped (fun k hk => hc.order ▸ hk) fun k _ => hc.event?
  obtain ⟨hrising, hcounted⟩ := ht.rising (hc.dense hd) hnone hlaid.toShaped hroomy
  exact ⟨⟨⟨hlaid, hrising, hroomy.ample, hr.room⟩, hlabel', hcounted⟩, hc⟩

/-- The same events with the same clocks and other chains. -/
theorem Fresh.of_clocks (h : g.Fresh N) (hl : g'.Laid) (horder : g'.order = g.order)
    (hevent : ∀ k, g'.event? k = g.event? k) (hclock : ∀ k, g'.clockOf k = g.clockOf k) :
    g'.Fresh N where
  toSteady := h.toSteady.of_clocks hl horder hevent hclock
  unlabelled := fun k => by rw [isLabel, kindOf?_congr (hevent k), ← isLabel, h.unlabelled]
  counted := by
    intro t n hn k
    rw [hclock]
    refine h.counted (fun i => ?_) k
    rw [← horder]
    exact hn i

/-- An event that fits into its task. -/
structure Admits (g : Graph) (e : Event) (N : Nat) : Prop where
  task : 0 ≤ e.task
  kind : e.kind ≠ .block
  located : e.kind.isRead = true ∨ e.kind.isWrite = true → e.location ≠ .none
  place : ∀ {t n : Nat}, e.task = t → g.Fills t n → n + 1 ≤ N
  pair : ∀ {t n : Nat}, e.task = t → g.Fills t n → e.kind.isExclusiveRead = true → n + 2 ≤ N

theorem Admits.of_order (h : g.Admits e N) (horder : g'.order = g.order) : g'.Admits e N where
  task := h.task
  kind := h.kind
  located := h.located
  place := fun ht hn => h.place ht fun i => horder ▸ hn i
  pair := fun ht hn => h.pair ht fun i => horder ▸ hn i

theorem Admits.mono (h : g.Admits e N) (hle : N ≤ M) : g.Admits e M where
  task := h.task
  kind := h.kind
  located := h.located
  place := fun ht hn => (h.place ht hn).trans hle
  pair := fun ht hn hex => (h.pair ht hn hex).trans hle

/-- **An event that fits needs no higher bound** when clocks count what there is. -/
theorem Fresh.receives (h : g.Fresh N) (he : g.Admits e N) : g.Receives e N where
  task := he.task
  kind := he.kind
  located := he.located
  own := fun {t n} ht hn => by
    have hle := h.counted hn (.prior t n)
    have hfit := he.place ht hn
    omega
  clocks := fun k u => by
    obtain ⟨n, hn, -⟩ := h.tasks u
    exact (h.counted hn k).trans (by exact_mod_cast hn.le h.toSteady.roomy)
  pair := he.pair

/-! ### A write takes effect last -/

/-- The same events with the same clocks, and a write at the end of its chain. -/
structure Tracked (g g' : Graph) (w : Key) : Prop where
  order : g'.order = g.order
  event : ∀ k, g'.event? k = g.event? k
  clock : ∀ k, g'.clockOf k = g.clockOf k
  last : ∃ ks, g'.chain (g.locationOf w) = ks ++ [w]

/-- **A write takes effect last**, or has done so already. -/
theorem Laid.trackCoherency (h : g.Laid) (hres : g.Resolved) (hw : .place t n ∈ g.order)
    (hplace : .place t n ∉ g.chain (g.locationOf (.place t n)) ∨
      g.lastWrite (g.locationOf (.place t n)) = .place t n) :
    (g.trackCoherency (.place t n)).Laid ∧ (g.trackCoherency (.place t n)).Resolved ∧
      Tracked g (g.trackCoherency (.place t n)) (.place t n) := by
  obtain ⟨w, hwe⟩ : ∃ w, w = Key.place t n := ⟨_, rfl⟩
  rw [← hwe] at hw hplace ⊢
  -- the chain as it is, or a new one that holds the first event
  obtain ⟨ks, hks, hstrung, hmem, hnew⟩ :
      ∃ ks, (if (g.chain (g.locationOf w)).isEmpty then [.init] else g.chain (g.locationOf w)) =
          ks ∧ Strung ks ∧ (∀ k ∈ ks, k ∈ g.order) ∧ (w ∉ ks ∨ ks.getLast?.getD .init = w) := by
    refine ⟨_, rfl, ?_⟩
    split
    · refine ⟨.singleton, fun k hk => List.mem_singleton.mp hk ▸ h.init_mem, Or.inl fun hin => ?_⟩
      exact Key.place_ne_init t n (hwe ▸ List.mem_singleton.mp hin)
    · rename_i hne
      exact ⟨(h.strung _).resolve_left (by simpa using hne), hres _, hplace⟩
  have hneil : ks ≠ [] := by
    obtain ⟨ws, rfl, -⟩ := hstrung
    exact List.cons_ne_nil _ _
  -- only the chain of the location changes
  have hresolved : ∀ g₁ : Graph, g₁.order = g.order →
      (∀ loc, loc ≠ g.locationOf w → g₁.chain loc = g.chain loc) →
      (∀ k ∈ g₁.chain (g.locationOf w), k ∈ g.order) → g₁.Resolved := by
    intro g₁ horder hother hself loc k hk
    rw [horder]
    by_cases hloc : loc = g.locationOf w
    · exact hself k (hloc ▸ hk)
    · exact hres _ _ (hother loc hloc ▸ hk)
  unfold Graph.trackCoherency
  dsimp only
  rw [← locationOf, hks]
  split
  · rename_i hlast
    have hother : ∀ loc, loc ≠ g.locationOf w →
        (g.setChain (g.locationOf w) ks).chain loc = g.chain loc :=
      fun loc hloc => by rw [chain_setChain, if_neg hloc]
    have hself : (g.setChain (g.locationOf w) ks).chain (g.locationOf w) = ks := by
      rw [chain_setChain, if_pos rfl]
    refine ⟨h.setChain hstrung, hresolved _ rfl hother (by rw [hself]; exact hmem), rfl,
      fun _ => rfl, fun _ => rfl, ⟨ks.dropLast, ?_⟩⟩
    rw [hself, ← hlast, List.getLast?_eq_some_getLast hneil, Option.getD_some,
      List.dropLast_append_getLast]
  · rename_i hlast
    have hnot : w ∉ ks := hnew.resolve_right hlast
    have hlastMem : ks.getLast?.getD .init ∈ g.order := by
      rw [List.getLast?_eq_some_getLast hneil, Option.getD_some]
      exact hmem _ (List.getLast_mem hneil)
    have hstrung' : Strung (ks ++ [w]) := by
      rw [hwe] at hnot ⊢
      exact hstrung.concat hnot
    have hset : (g.setChain (g.locationOf w) (ks ++ [w])).Laid := h.setChain hstrung'
    have hchain : ∀ loc,
        ((g.setChain (g.locationOf w) (ks ++ [w])).link (ks.getLast?.getD .init) w
          .coherency).chain loc =
        if loc = g.locationOf w then ks ++ [w] else g.chain loc := fun loc => by
      rw [chain, chain?, link_chains, ← chain?, ← chain, chain_setChain]
    refine ⟨hset.link (hset.has hlastMem) hw (hwe ▸ Key.place_ne_init t n) (by decide),
      hresolved _ (link_order ..) (fun loc hloc => by rw [hchain, if_neg hloc]) ?_, link_order ..,
      fun _ => event?_link,
      fun _ => clockOf_link_coherency, ⟨ks, by rw [hchain, if_pos rfl]⟩⟩
    rw [hchain, if_pos rfl]
    intro k hk
    rcases List.mem_append.mp hk with hk | hk
    · exact hmem k hk
    · exact List.mem_singleton.mp hk ▸ hw

theorem Steady.trackCoherency (h : g.Steady N) (hres : g.Resolved) (hw : .place t n ∈ g.order)
    (hplace : .place t n ∉ g.chain (g.locationOf (.place t n)) ∨
      g.lastWrite (g.locationOf (.place t n)) = .place t n) :
    (g.trackCoherency (.place t n)).Live N ∧
    Tracked g (g.trackCoherency (.place t n)) (.place t n) := by
  obtain ⟨hl, hres', ht⟩ := h.toLaid.trackCoherency hres hw hplace
  exact ⟨⟨h.of_clocks hl ht.order ht.event ht.clock, hres'⟩, ht⟩

namespace Laid

variable (h : g.Laid)
include h

/-! ### Other sources and other places -/

/-- **A read gets another source.** -/
theorem changeReadsFrom (hw : g.Has w) (hg' : g.changeReadsFrom k w = .ok g') :
    g'.Laid ∧ g'.order = g.order ∧ (∀ loc, g'.chain loc = g.chain loc) ∧ ∀ k',
    g'.event? k' = g.event? k' := by
  unfold Graph.changeReadsFrom at hg'
  cases hm : g.find? k with
  | none =>
    rw [hm] at hg'
    cases hg'
  | some m =>
    rw [hm] at hg'
    dsimp only [Option.map_some, Option.getD_some] at hg'
    split at hg'
    · rename_i source hsource
      have hin : g.In .readsFrom source k :=
        (mem_predecessors hm).mp (by rw [hsource]; exact List.mem_singleton_self _)
      have hne : k ≠ .init := fun heq => h.no_cause (heq ▸ hin)
      cases hp : g.node source with
      | error e =>
        rw [hp] at hg'
        cases hg'
      | ok p =>
        rw [hp] at hg'
        obtain rfl := Except.ok.inj hg'
        refine ⟨(h.unlink (by decide)).link (by simpa using hw) (h.mem_of_in hin (by decide)) hne
          (by decide), ?_, fun loc => ?_,
          fun k' => ?_⟩
        · rw [link_order, unlink_order]
        · rw [chain, chain?, link_chains, unlink_chains, ← chain?, ← chain]
        · rw [event?_link, event?_unlink]
    · cases hg'

/-- **A write moves** to another place of its chain. -/
theorem swapCoherency (hres : g.Resolved) (ha : a ≠ .init) (hb : b ≠ .init)
    (hg' : g.swapCoherency a b = .ok g') :
    g'.Laid ∧ g'.Resolved ∧ g'.order = g.order ∧ (∀ k, g'.event? k = g.event? k) ∧
      ∀ k, g'.clockOf k = g.clockOf k := by
  have hcases := (h.strung (g.locationOf a)).imp_right fun ⟨ws, heq, _⟩ =>
    (⟨ws, heq⟩ : ∃ ws, _ = Key.init :: ws)
  obtain ⟨ws, vs, heq, hperm, rfl⟩ := swapCoherency_ok hcases ha hb hg'
  obtain ⟨us, heq', hnodup, hus⟩ :=
    (h.strung (g.locationOf a)).resolve_left (by rw [heq]; exact List.cons_ne_nil _ _)
  obtain rfl : ws = us := (List.cons.inj (heq.symm.trans heq')).2
  have hvs : Strung (.init :: vs) :=
    ⟨vs, rfl, hperm.nodup_iff.mpr hnodup, fun w hw => hus w (hperm.mem_iff.mp hw)⟩
  have hmem : ∀ k ∈ Key.init :: vs, k ∈ g.order := by
    intro k hk
    refine hres (g.locationOf a) k ?_
    rw [heq]
    exact (hperm.cons Key.init).mem_iff.mp hk
  obtain ⟨hl, hr⟩ := h.relink (.init :: ws) hvs hmem
  refine ⟨hl.setChain hvs, fun loc' k hk => ?_, hr.order, hr.event, fun k => ?_⟩
  · rw [chain_setChain] at hk
    refine hr.order ▸ ?_
    split at hk
    · exact hmem k hk
    · rw [chain, chain?, hr.chains, ← chain?, ← chain] at hk
      exact hres loc' k hk
  · exact (clockOf_linkChain ..).trans (clockOf_unlinkChain ..)

end Laid

theorem Live.swapCoherency (h : g.Live N) (ha : a ≠ .init) (hb : b ≠ .init)
    (hg' : g.swapCoherency a b = .ok g') : g'.Live N ∧ g'.order = g.order := by
  obtain ⟨hl, hres, horder, hevent, hclock⟩ := h.toLaid.swapCoherency h.resolved ha hb hg'
  exact ⟨⟨h.toSteady.of_clocks hl horder hevent hclock, hres⟩, horder⟩

end Graph

end Interleaving
