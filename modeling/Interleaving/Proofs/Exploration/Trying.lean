import Interleaving.Proofs.Exploration.Upholding

/-!
# Trying alternatives upholds the stack

A ready alternative is tried on its own graph, which becomes the current one unless a chain of it
lists what is not there. The change that it proposes keeps the graph live, what is added again fits
into its task without a higher bound, and whatever that pushes is ready
(`Interleaving.Engine.Upholds.tryAlternative`). A backward revisit is spread into alternatives of
its graph, which are ready as it is (`Interleaving.Engine.Upholds.spread`).
-/

namespace Interleaving

variable {N M : Nat}

namespace Graph

variable {g g' : Graph} {k w before : Key} {loc : Location} {ks : List Key}

/-- **A graph without a dangling key** lists events only. -/
theorem Laid.resolved_of_dangling (h : g.Laid) (hnone : g.dangling? = none) : g.Resolved := by
  intro loc k hk
  have hmem : k ∈ g.chains.flatMap (·.2) := by
    unfold chain chain? at hk
    cases hlook : g.chains.lookup loc with
    | none =>
      rw [hlook] at hk
      cases hk
    | some ks =>
      rw [hlook] at hk
      obtain ⟨c, hc, rfl⟩ : ∃ c ∈ g.chains, c.2 = ks := by
        obtain ⟨l₁, l₂, heq, -⟩ := List.lookup_eq_some_iff.mp hlook
        exact ⟨(loc, ks), by rw [heq]; simp, rfl⟩
      exact List.mem_flatMap.mpr ⟨c, hc, hk⟩
  have hnode := List.find?_eq_none.mp hnone k hmem
  rcases ((h.strung loc).resolve_left fun hnil => by rw [hnil] at hk; cases hk).cases hk with
    rfl | ⟨t, i, rfl⟩
  · exact h.init_mem
  · cases hfind : g.node? (.place t i) with
    | none =>
      rw [hfind] at hnode
      exact absurd rfl hnode
    | some m =>
      rw [hfind] at hnode
      have hkind : m.kind ≠ .block := by simpa using hnode
      have hm : g.find? (.place t i) = some m := by
        obtain ⟨n, hn, hkeys⟩ := h.tasks t
        unfold node? at hfind
        rw [if_neg (by simp), if_pos (by simp [Key.place])] at hfind
        have htask : (g.taskKeys (Key.place t i).task)[(Key.place t i).seq.toNat]? =
          (g.taskKeys t)[i]? := rfl
        rw [htask] at hfind
        obtain ⟨x, hx, hfind⟩ := Option.bind_eq_some_iff.mp hfind
        obtain rfl : x = .place t i := by
          have hplaces : ∀ n, (places t n)[i]? = some x → x = .place t i := by
            intro n hx
            obtain ⟨hlt, -⟩ := List.getElem?_eq_some_iff.mp hx
            rw [length_places] at hlt
            rw [getElem?_places hlt] at hx
            exact (Option.some.inj hx).symm
          rcases hkeys with hkeys | ⟨hkeys, -⟩ <;> rw [hkeys] at hx <;> exact hplaces _ hx
        exact hfind
      exact (h.mem_iff (show g.event? _ = some m.event by rw [event?, hm]; rfl)).mpr hkind

theorem lastWrite_of_chain (h : g.chain loc = ks ++ [w]) : g.lastWrite loc = w := by
  rw [lastWrite, h, List.getLast?_concat]
  rfl

/-- **A write that takes effect last already** may be put there again. -/
theorem Poised.track (h : g.Poised w N) (hres : g.Resolved) (hcounted : g.Counted)
    (hlast : g.lastWrite (g.locationOf w) = w) : (g.trackCoherency w).Fresh N ∧
    (g.trackCoherency w).Resolved ∧
      Tracked g (g.trackCoherency w) w := by
  obtain ⟨t, n, rfl⟩ := h.place
  obtain ⟨hl, hres', ht⟩ := h.toLaid.trackCoherency hres h.mem (Or.inr hlast)
  have hfresh : g.Fresh N := ⟨h.toSteady, h.unlabelled, hcounted⟩
  exact ⟨hfresh.of_clocks hl ht.order ht.event ht.clock, hres', ht⟩

/-- **Another source is seen** by the latest event. -/
theorem Poised.changeSource (h : g.Poised k N) (hres : g.Resolved) (hw : w ∈ g.order)
    (hg' : g.changeReadsFrom k w = .ok g') : g'.Laid ∧ g'.Resolved ∧
    g'.order = g.order ∧ g'.Roomy N ∧
      ∀ k, g'.isLabel k = false := by
  obtain ⟨hl, horder, hchain, hevent⟩ := h.toLaid.changeReadsFrom (h.has hw) hg'
  refine ⟨hl, fun loc k hk => ?_, horder, ?_, fun k => ?_⟩
  · rw [horder]
    exact hres loc k (hchain loc ▸ hk)
  · exact h.toSteady.roomy.of_subset hl.toShaped (fun k hk => horder ▸ hk) fun k _ => hevent k
  · rw [isLabel, kindOf?_congr (hevent k), ← isLabel, h.unlabelled]

end Graph

/-- The graph of a ready alternative is laid out. -/
theorem Alternative.Ready.laid {item : Alternative} {g : Graph} (h : item.Ready N)
    (hgraph : item.graph = some g) :
    g.Laid := by
  cases h <;> cases hgraph
  all_goals exact (‹Graph.Poised _ _ _›).toLaid

namespace Engine.Upholds

open Interleaving.Graph

variable {g g' : Graph} {k w read : Key} {e : Event} {es : List Event} {item : Alternative}

/-- **An event that is added again** needs no higher bound. -/
theorem addAgain (h : g.Live N) (he : g.Receives e N) :
    Upholds N (Engine.addAgain e) g fun _ g' => g'.Live N := by
  unfold Engine.addAgain
  split
  · exact recordLockRead h le_rfl h.room he ‹_›
  · exact recordLockWrite h le_rfl h.room he
  · exact recordExclusiveWrite h le_rfl h.room he
  · exact throw

theorem addAllAgain (h : g.Fresh N) (hres : g.Resolved) (hlength : es.length ≤ 1)
    (hes : ∀ e ∈ es, g.Admits e N) : Upholds N (Engine.addAllAgain es) g fun _ g' => g'.Live N := by
  cases es with
  | nil => exact pure ⟨h.toSteady, hres⟩
  | cons e es =>
    obtain rfl : es = [] := List.eq_nil_of_length_eq_zero (by simpa using hlength)
    refine (addAgain ⟨h.toSteady, hres⟩ (h.receives (hes e List.mem_cons_self))).bind
      fun _ g' hg' => ?_
    exact pure hg'

theorem currentOrder (h : g.Live N) : Upholds N Engine.currentOrder g fun _ g' => g'.Live N :=
  (ask _).mono fun _ _ heq => heq.2 ▸ h

/-- Nothing is taken out behind the last event. -/
theorem restrict (h : g.Laid) (hlatest : ∃ o, g.order = o ++ [k]) :
    Upholds N (Engine.changeGraph fun g => g.restrict k) g fun _ g' => g' = g :=
  (changeGraph _).mono fun _ _ heq =>
    (Except.ok.inj ((restrict_last hlatest h.nodup).symm.trans heq)).symm

/-- What an alternative names is what its graph has there. -/
theorem nodes_of_ready {first : Key} {second : Option Key} {write before : Key}
    {kind : Alternative.Kind} (h : g.Shaped) (hfirst : write ∈ g.order)
    (hsecond : kind.hasSecond = true → before ∈ g.order)
    (hnodes : Alternative.nodes ⟨kind, write, before, some g, es⟩ = .ok (first, second)) :
    first = write ∧ second = if kind.hasSecond then some before else none := by
  obtain ⟨m, hm⟩ := h.find? hfirst
  unfold Alternative.nodes at hnodes
  dsimp only at hnodes
  rw [h.node hfirst hm] at hnodes
  dsimp only at hnodes
  split at hnodes
  · rename_i hkind
    obtain ⟨m', hm'⟩ := h.find? (hsecond hkind)
    rw [h.node (hsecond hkind) hm'] at hnodes
    cases hnodes
    exact ⟨key_of_find? hm, by rw [key_of_find? hm', if_pos hkind]⟩
  · rename_i hkind
    cases hnodes
    exact ⟨key_of_find? hm, by rw [if_neg hkind]⟩

/-- **A ready alternative is tried** on its graph. -/
theorem tryAlternative (h : item.Ready N) (hgraph : item.graph = some g) (hres : g.Resolved)
    (hkind : item.isBackward = false) : Upholds N (Engine.tryAlternative item) g fun _ g' =>
      g'.Live N := by
  unfold Engine.tryAlternative
  split
  · split <;> exact throw
  · rename_i first second hnodes
    cases h with
    | readFrom graph find kind sources ne mem length admits =>
      cases hgraph
      have hw := hres _ _ mem
      obtain ⟨rfl, rfl⟩ := nodes_of_ready graph.toShaped graph.mem (fun _ => hw) hnodes
      refine (changeGraph _).bind fun _ g₁ hchange => ?_
      -- clocks are computed anew after the read has another source
      obtain ⟨hl, hres₁, horder, hroomy, hlabel⟩ := graph.changeSource hres hw hchange
      refine (restrict hl (horder ▸ graph.latest)).andThen ((onGraph _).bind fun _ g₂ hrun => ?_)
      obtain ⟨hfresh, hc⟩ := hl.recomputeClocks hlabel hroomy hrun
      have hres₂ : g₂.Resolved := fun loc k hk => by
        rw [chain, chain?, hc.chains, ← chain?, ← chain] at hk
        rw [hc.order]
        exact hres₁ loc k hk
      refine (addAllAgain hfresh hres₂ length fun e he =>
        (admits e he).of_order (hc.order.trans horder)).bind ?_
      exact fun _ _ hlive => currentOrder hlive
    | writeBefore graph mem ne not last =>
      cases hgraph
      obtain ⟨rfl, rfl⟩ := nodes_of_ready graph.toShaped graph.mem (fun _ => hres _ _ mem) hnodes
      refine (modifyGraph _).bind fun _ g₁ heq => (changeGraph _).bind fun _ g₂ hswap => ?_
      obtain ⟨t, n, hplace⟩ := graph.place
      subst hplace
      obtain ⟨hlive, ht⟩ := graph.toSteady.trackCoherency hres graph.mem last
      rw [← heq] at hlive ht
      obtain ⟨hlive', horder⟩ := hlive.swapCoherency graph.ne_init ne hswap
      refine (restrict hlive'.toLaid ?_).andThen (currentOrder hlive')
      rw [horder, ht.order]
      exact graph.latest
    | placed kinds graph counted last length admits =>
      cases hgraph
      obtain ⟨ks, hks⟩ := last
      rcases kinds with rfl | rfl | rfl
      · obtain ⟨rfl, rfl⟩ :=
          nodes_of_ready graph.toShaped graph.mem (fun hsecond => absurd hsecond (by decide)) hnodes
        refine (modifyGraph _).bind fun _ g₁ heq => ?_
        obtain ⟨hfresh, hres₁, ht⟩ := graph.track hres counted (lastWrite_of_chain hks)
        rw [← heq] at hfresh hres₁ ht
        refine (restrict hfresh.toLaid (ht.order ▸ graph.latest)).andThen ?_
        dsimp only
        rw [if_neg (Nat.not_lt.mpr length)]
        refine (addAllAgain hfresh hres₁ length fun e he => (admits e he).of_order ht.order).bind ?_
        exact fun _ _ hlive => currentOrder hlive
      · cases hkind
      · cases hkind

/-- **A backward revisit is spread** into alternatives that are ready. -/
theorem spread (h : item.Ready N) (hkind : item.isBackward = true) :
    Upholds N (Engine.spread item) g fun _ g' => g' = g := by
  cases h with
  | readFrom => cases hkind
  | writeBefore => cases hkind
  | @placed kind write g₀ additional kinds graph counted last length admits =>
    have hsecond : kind.hasSecond = false := by rcases kinds with rfl | rfl | rfl <;> rfl
    unfold Engine.spread
    cases hnodes : Alternative.nodes ⟨kind, write, ⟨0, 0⟩, some g₀, additional⟩ with
    | error e => exact throw
    | ok nodes =>
      obtain ⟨first, second⟩ := nodes
      obtain ⟨rfl, -⟩ :=
        nodes_of_ready graph.toShaped graph.mem (fun heq => absurd heq (by simp [hsecond])) hnodes
      dsimp only
      cases hks : g₀.coherentPlacings first with
      | error e => exact throw
      | ok placings =>
        obtain ⟨ks, hlast⟩ := last
        refine (pushEach fun before hbefore => ?_).andThen ?_
        · exact graph.toSteady.ready_before graph.latest graph.place
            (Or.inr (lastWrite_of_chain hlast)) hks (List.mem_reverse.mp hbefore)
        · exact push (.placed (Or.inl rfl) graph counted ⟨ks, hlast⟩ length admits)

/-- One more inconsistent graph is counted. -/
theorem count : Upholds N (modify fun a : Engine => { a with inconsistent := a.inconsistent + 1 }) g
    fun _ g' => g' = g := by
  intro a y a' hs hg hrun
  cases hrun
  exact ⟨⟨hs.items, hs.aliases⟩, hg⟩

/-- **A ready alternative is dealt with**, whatever its kind. -/
theorem process (h : item.Ready N) (hlive : g.Live N) :
    Upholds N (Engine.process item) g fun _ g' => g'.Live N := by
  unfold Engine.process
  split
  · rename_i hkind
    exact (spread h hkind).andThen (pure hlive)
  · rename_i hkind
    split
    · exact throw
    · rename_i g' hgraph
      split
      · exact throw
      · rename_i hnone
        refine (modifyGraph fun _ => g').andThen ?_
        have hres := (h.laid hgraph).resolved_of_dangling hnone
        refine (tryAlternative h hgraph hres (by simpa using hkind)).bind fun order g₁ hg₁ => ?_
        split
        · exact count.andThen (pure hg₁)
        · exact pure hg₁

end Engine.Upholds

end Interleaving
