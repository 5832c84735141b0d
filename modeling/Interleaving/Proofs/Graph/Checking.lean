import Interleaving.Proofs.Graph.Consistency
import Interleaving.Proofs.Graph.Shuffled

/-!
# Chains are checked in any order

Whether a graph is consistent is found out chain by chain. The check of one chain adds edges from
reads to the writes that overwrite what they saw, and the check of the next one is made on what has
become of the graph. It does not look at those edges, though: **every chain either is refused by the
checks of all such graphs, or adds the same edges to all of them**
(`Interleaving.Graph.Framed.checkChain_uniform`). So it does not matter in which order the chains
are checked, nor how many have been when one is refused, and the graph that is sorted in the end has
the same events and the same edges.
-/

namespace Interleaving.Graph

variable {g h c d : Graph} {a b k w : Key} {r : Relation} {m n : Node} {loc : Location}
  {E F : Key → Key → Prop} {ks ws : List Key} {next : Option Key}

/-- The keys at the other ends of the edges from a key under a relation. -/
def successorsOf (g : Graph) (k : Key) (r : Relation) : List Key :=
  ((g.find? k).map (·.successors r)).getD []

theorem successorsOf_of_find? (hm : g.find? k = some m) (r : Relation) :
    g.successorsOf k r = m.successors r := by
  rw [successorsOf, hm]
  rfl

theorem mem_successorsOf : b ∈ g.successorsOf k r ↔ g.Out r k b := by
  cases hm : g.find? k with
  | some m => rw [successorsOf_of_find? hm, mem_successors hm]
  | none =>
    rw [successorsOf, hm]
    refine iff_of_false List.not_mem_nil ?_
    rintro ⟨m, hm', -⟩
    rw [hm] at hm'
    cases hm'

theorem Shuffled.successorsOf (hs : Shuffled g h) (k : Key) (r : Relation) :
    h.successorsOf k r = g.successorsOf k r := by
  unfold Graph.successorsOf
  rw [hs.map_find? _ (fun _ _ hmn => hmn.successors r) k]

theorem successorsOf_link (hne : r ≠ .fromRead) (k : Key) :
    (c.link a b .fromRead).successorsOf k r = c.successorsOf k r := by
  have hkeys : ∀ es : Edges, (es.insert .fromRead b).keys r = es.keys r := by
    intro es
    unfold Edges.insert
    split
    · rfl
    · unfold Edges.keys
      rw [List.filterMap_append]
      simp [Ne.symm hne]
  unfold Graph.successorsOf
  rw [find?_link, Option.map_map]
  congr 2
  funext n
  simp only [Function.comp_apply, Node.successors, linked]
  split
  · exact hkeys n.succ
  · rfl

/-- **A copy with some edges from reads to writes.** Under every other relation its edges are listed
in the order of the copy. -/
structure Weighed (g c : Graph) (E : Key → Key → Prop) : Prop extends Checks g c E where
  successors : ∀ {k r}, r ≠ .fromRead → c.successorsOf k r = g.copy.successorsOf k r
  target : ∀ {a b}, E a b → b ∈ g.order ∧ b ≠ .init

/-- A reader is ordered before the next write, if there is one. -/
def linkBefore (c : Graph) (k : Key) : Option Key → Graph
  | some w => c.link k w .fromRead
  | none => c

/-! ### Graphs under check -/

theorem findSome?_congr {α β : Type} {f f' : α → Option β} {l : List α} (h : ∀ a ∈ l, f a = f' a) :
    l.findSome? f = l.findSome? f' := by
  induction l with
  | nil => rfl
  | cons a l ih =>
    rw [List.findSome?_cons, List.findSome?_cons, h a List.mem_cons_self,
      ih fun b hb => h b (List.mem_cons_of_mem _ hb)]

theorem Framed.weighed_copy (hg : g.Framed) (hs : Shuffled g h) :
    Weighed g h.copy fun _ _ => False where
  toChecks := by
    have hc := hg.toShaped.checks
    have hs := hs.copy
    exact ⟨hc.shaped.congr (hs.tidy hc.shaped.tidy) hs.order hs.tasks hs.kindOf? fun hin =>
      Or.inl (hs.in_iff.mp hin), hs.order.trans hc.order, fun k => (hs.event? k).trans (hc.event k),
      fun r a b => hs.in_iff.trans (hc.in_iff r a b),
      fun r a b => hs.out_iff.trans (hc.out_iff r a b)⟩
  successors := fun _ => hs.copy.successorsOf _ _
  target := False.elim

theorem Shuffled.refl (g : Graph) : Shuffled g g :=
  ⟨List.forall₂_same.mpr fun _ _ => ⟨rfl, rfl, rfl, fun _ => rfl, fun _ => rfl⟩, rfl, rfl,
    .refl _, rfl⟩

namespace Weighed

theorem congr (hc : Weighed g c E) (heq : ∀ a b, E a b ↔ F a b) : Weighed g c F := by
  have hE : E = F := by
    funext a b
    exact propext (heq a b)
  exact hE ▸ hc

theorem link (hc : Weighed g c E) (ha : a ∈ g.order) (hb : b ∈ g.order) (hne : b ≠ .init) :
    Weighed g (c.link a b .fromRead) fun x y => E x y ∨ x = a ∧ y = b where
  toChecks := hc.toChecks.link ha hb hne
  successors := fun hr => (successorsOf_link hr _).trans (hc.successors hr)
  target := by
    rintro x y (hxy | ⟨-, rfl⟩)
    · exact hc.target hxy
    · exact ⟨hb, hne⟩

theorem linkBefore (hc : Weighed g c E) (hk : k ∈ g.order)
    (hnext : ∀ w, next = some w → w ∈ g.order ∧ w ≠ .init) :
    Weighed g (c.linkBefore k next) fun x y => E x y ∨ x = k ∧ next = some y := by
  cases next with
  | none => exact hc.congr fun x y => by simp
  | some w =>
    obtain ⟨hw, hne⟩ := hnext w rfl
    exact (hc.link hk hw hne).congr fun x y => by simp [eq_comm]

theorem find? (hc : Weighed g c E) (hk : k ∈ g.order) :
    ∃ m, c.find? k = some m ∧ g.event? k = some m.event := by
  obtain ⟨m, hm⟩ := hc.shaped.find? (hc.order ▸ hk)
  refine ⟨m, hm, ?_⟩
  rw [← hc.event_of_mem hk, Graph.event?, hm]
  rfl

/-- Program order leads to the same node, if to any. -/
theorem pairedWrite?_key (hc : Weighed g c E) (hd : Weighed g d F) (hm : c.find? k = some m)
    (hn : d.find? k = some n) (hevent : n.event = m.event) :
    (d.pairedWrite? n).map (·.key) = (c.pairedWrite? m).map (·.key) := by
  have hsucc : n.successors .programOrder = m.successors .programOrder := by
    rw [← successorsOf_of_find? hn, ← successorsOf_of_find? hm, hd.successors (by decide),
      hc.successors (by decide)]
  have hkey : n.key = m.key := congrArg (·.key) hevent
  have hkind : n.kind = m.kind := congrArg (·.kind) hevent
  unfold pairedWrite?
  rw [List.map_findSome?, List.map_findSome?, hsucc, hkey, hkind]
  refine findSome?_congr fun b hb => ?_
  have hb : b ∈ g.order := by
    have hout := (hc.out_iff ..).mp ((mem_successors hm).mp hb)
    exact (hout.resolve_right fun hfr => by cases hfr.1).2.1
  obtain ⟨x, hx, hxe⟩ := hc.find? hb
  obtain ⟨y, hy, hye⟩ := hd.find? hb
  have hxy : y.event = x.event := Option.some.inj (hye.symm.trans hxe)
  have hykey : y.key = x.key := congrArg (·.key) hxy
  have hykind : y.kind = x.kind := congrArg (·.kind) hxy
  simp only [Function.comp_apply, hc.shaped.node? (hc.order ▸ hb), hd.shaped.node? (hd.order ▸ hb),
    hx, hy, hykey, hykind]
  split
  · exact congrArg some hykey
  · rfl

theorem isTorn_eq (hc : Weighed g c E) (hd : Weighed g d F) (hm : c.find? k = some m)
    (hn : d.find? k = some n) (hevent : n.event = m.event) : d.isTorn next n = c.isTorn next m := by
  have hkind : n.kind = m.kind := congrArg (·.kind) hevent
  have hpair := hc.pairedWrite?_key hd hm hn hevent
  unfold isTorn
  rw [hkind]
  cases hx : c.pairedWrite? m with
  | none =>
    rw [hx, Option.map_none, Option.map_eq_none_iff] at hpair
    rw [hpair]
  | some x =>
    rw [hx, Option.map_some] at hpair
    obtain ⟨y, hy, hkey⟩ := Option.map_eq_some_iff.mp hpair
    rw [hy]
    dsimp only
    rw [hkey]

/-- Once all chains have been checked, the graph can be sorted. -/
theorem arranged (hc : Weighed g c E) (hg : g.Framed) : c.Arranged := by
  have hlabel : ∀ {k}, c.isLabel k = true → False := by
    intro k hk
    obtain ⟨e, he, hblock⟩ := isLabel_iff_event?.mp hk
    have hmem : k ∈ c.order := by
      rw [hc.event] at he
      split at he
      · exact hc.order ▸ ‹_›
      · cases he
    exact (hc.shaped.mem_iff he).mp hmem hblock
  refine hc.shaped.arranged (fun r a b hin => ?_) (fun hk _ => hlabel hk) fun {t i} hhas => ?_
  · rw [hc.out_iff]
    refine ((hc.in_iff ..).mp hin).imp_left ?_
    rintro ⟨hb, hin⟩
    exact ⟨hg.source_mem hin, hb, hg.mirrored r a b hin⟩
  · have hk : .place t i ∈ g.order := hc.order ▸ (hc.shaped.mem_or_label hhas).resolve_right hlabel
    exact (hc.in_iff ..).mpr (Or.inl ⟨hk, hg.linked (hg.has hk)⟩)

/-- Graphs under check are sorted in the same way when the same edges have been added. -/
theorem sortedKeys_eq (hc : Weighed g c E) (hd : Weighed g d E) (hg : g.Framed) :
    c.sortedKeys = d.sortedKeys := by
  refine (hc.arranged hg).sortedKeys_eq (hd.arranged hg) ⟨fun k => by rw [hc.order, hd.order],
    fun {r a b} _ => ?_⟩
  rw [hc.out_iff, hd.out_iff]

end Weighed

/-! ### Uniform verdicts -/

/-- A check that finds every graph under check inconsistent. -/
def Refuses (g : Graph) (f : Graph → Except Error Verdict) : Prop :=
  ∀ ⦃c E⦄, Weighed g c E → f c = .ok .inconsistent

/-- A check that adds the same edges to every graph under check. -/
def Lays (g : Graph) (f : Graph → Except Error Verdict) (F : Key → Key → Prop) : Prop :=
  ∀ ⦃c E⦄, Weighed g c E → ∃ c', f c = .ok (.consistent c') ∧ Weighed g c' fun a b => E a b ∨ F a b

/-- A check of readers with the same verdict for every graph under check. -/
def Uniform (g : Graph) (f : Graph → Except Error (Nat × Verdict)) : Prop :=
  (∀ ⦃c E⦄, Weighed g c E → ∃ i, f c = .ok (i, .inconsistent)) ∨
    ∃ (i : Nat) (F : Key → Key → Prop), ∀ ⦃c E⦄, Weighed g c E →
      ∃ c', f c = .ok (i, .consistent c') ∧ Weighed g c' fun a b => E a b ∨ F a b

theorem Uniform.of_eq {f f' : Graph → Except Error (Nat × Verdict)} (hf' : g.Uniform f')
    (heq : ∀ ⦃c E⦄, Weighed g c E → f c = f' c) : g.Uniform f := by
  rcases hf' with hrefuse | ⟨i, F, hlay⟩
  · refine Or.inl fun c E hc => ?_
    rw [heq hc]
    exact hrefuse hc
  · refine Or.inr ⟨i, F, fun c E hc => ?_⟩
    rw [heq hc]
    exact hlay hc

/-- A check that orders one reader before the next write and goes on. -/
theorem Uniform.of_linkBefore
    {f f' : Graph → Except Error (Nat × Verdict)} (hf' : g.Uniform f') (hk : k ∈ g.order)
    (hnext : ∀ w, next = some w → w ∈ g.order ∧ w ≠ .init)
    (heq : ∀ ⦃c E⦄, Weighed g c E → f c = f' (c.linkBefore k next)) : g.Uniform f := by
  rcases hf' with hrefuse | ⟨i, F, hlay⟩
  · refine Or.inl fun c E hc => ?_
    rw [heq hc]
    exact hrefuse (hc.linkBefore hk hnext)
  · refine Or.inr ⟨i, fun a b => (a = k ∧ next = some b) ∨ F a b, fun c E hc => ?_⟩
    obtain ⟨c', hres, hc'⟩ := hlay (hc.linkBefore hk hnext)
    rw [heq hc]
    exact ⟨c', hres, hc'.congr fun a b => or_assoc⟩

namespace Framed

variable (hg : g.Framed)
include hg

/-- **Readers are refused in all graphs under check, or ordered before the next write in all of
them.** -/
theorem checkReaders_uniform (hks : ∀ k ∈ ks, k ∈ g.order)
    (hnext : ∀ w, next = some w → w ∈ g.order ∧ w ≠ .init) (count : Nat) :
    g.Uniform (checkReaders loc next count ks) := by
  induction ks generalizing count with
  | nil => exact Or.inr ⟨count, fun _ _ => False,
      fun c E hc => ⟨c, rfl, hc.congr fun a b => by simp⟩⟩
  | cons k more ih =>
    have ih := ih fun k hk => hks k (List.mem_cons_of_mem _ hk)
    have hk := hks k List.mem_cons_self
    have hstart := hg.weighed_copy (.refl g)
    obtain ⟨n, hn, he⟩ := hstart.find? hk
    -- what the check asks of the first reader has the same answer in every graph
    have hstep : ∀ {c E}, Weighed g c E → checkReaders loc next count (k :: more) c =
        if n.location ≠ loc then checkReaders loc next count more c
        else
          let count' := if n.kind.isExclusiveRead then count + 1 else count
          if g.copy.isTorn next n then .ok (count', .inconsistent)
          else checkReaders loc next count' more (c.linkBefore k next) := by
      intro c E hc
      obtain ⟨m, hm, he'⟩ := hc.find? hk
      have hevent : m.event = n.event := Option.some.inj (he'.symm.trans he)
      have hlocation : m.location = n.location := congrArg (·.location) hevent
      have hkind : m.kind = n.kind := congrArg (·.kind) hevent
      rw [checkReaders_cons, hc.shaped.node (hc.order ▸ hk) hm]
      simp only [Except.bind, hlocation, hkind, key_of_find? hm, hstart.isTorn_eq hc hn hm hevent]
      rfl
    by_cases hloc : n.location = loc
    · cases htorn : g.copy.isTorn next n with
      | true =>
        refine Or.inl fun c E hc => ⟨if n.kind.isExclusiveRead then count + 1 else count, ?_⟩
        rw [hstep hc, if_neg (not_not.mpr hloc)]
        exact if_pos htorn
      | false =>
        refine (ih (if n.kind.isExclusiveRead then count + 1 else count)).of_linkBefore hk hnext
          fun c E hc => ?_
        rw [hstep hc, if_neg (not_not.mpr hloc)]
        exact if_neg (by simp [htorn])
    · exact (ih count).of_eq fun c E hc => (hstep hc).trans (if_pos hloc)

/-- **Every chain is refused in all graphs under check, or adds the same edges to all of them.** -/
theorem checkChain_uniform (hws : ∀ w ∈ ws.tail, w ∈ g.order ∧ w ≠ .init) :
    g.Refuses (checkChain loc ws) ∨ ∃ F, g.Lays (checkChain loc ws) F := by
  induction ws with
  | nil => exact Or.inr ⟨fun _ _ => False, fun c E hc => ⟨c, rfl, hc.congr fun a b => by simp⟩⟩
  | cons w more ih =>
    have hreaders : ∀ k ∈ g.copy.successorsOf w .readsFrom, k ∈ g.order := by
      intro k hk
      have hout := ((hg.weighed_copy (.refl g)).out_iff ..).mp (mem_successorsOf.mp hk)
      exact (hout.resolve_right fun hfr => by cases hfr.1).2.1
    have hnext : ∀ v, more.head? = some v → v ∈ g.order ∧ v ≠ .init :=
      fun v hv => hws v (List.mem_of_head? hv)
    have hcons : ∀ {c E res}, Weighed g c E →
        checkReaders loc more.head? 0 (g.copy.successorsOf w .readsFrom) c = .ok res →
        ((∀ i, res = (i, .inconsistent) → checkChain loc (w :: more) c = .ok .inconsistent) ∧
          ∀ i c', res = (i, .consistent c') →
            checkChain loc (w :: more) c =
              if i > 1 then .ok .inconsistent else checkChain loc more c') := by
      intro c E res hc hres
      rw [checkChain, show ((c.find? w).map (·.successors .readsFrom)).getD [] =
        c.successorsOf w .readsFrom from rfl, hc.successors (by decide), hres]
      exact ⟨fun i heq => heq ▸ rfl, fun i c' heq => heq ▸ rfl⟩
    have huniform : g.Uniform (checkReaders loc more.head? 0 _) :=
      hg.checkReaders_uniform hreaders hnext 0
    rcases huniform with hall | ⟨i, F, hall⟩
    · refine Or.inl fun c E hc => ?_
      obtain ⟨i, hres⟩ := hall hc
      exact (hcons hc hres).1 i rfl
    · by_cases hi : i > 1
      · refine Or.inl fun c E hc => ?_
        obtain ⟨c', hres, -⟩ := hall hc
        rw [(hcons hc hres).2 i c' rfl, if_pos hi]
      · rcases ih fun w hw => hws w (List.mem_of_mem_tail hw) with hrefuse | ⟨F', hlay⟩
        · refine Or.inl fun c E hc => ?_
          obtain ⟨c', hres, hc'⟩ := hall hc
          rw [(hcons hc hres).2 i c' rfl, if_neg hi]
          exact hrefuse hc'
        · refine Or.inr ⟨fun a b => F a b ∨ F' a b, fun c E hc => ?_⟩
          obtain ⟨c₁, hres, hc₁⟩ := hall hc
          obtain ⟨c₂, hres', hc₂⟩ := hlay hc₁
          refine ⟨c₂, ?_, hc₂.congr fun a b => or_assoc⟩
          rw [(hcons hc hres).2 i c₁ rfl, if_neg hi]
          exact hres'

end Framed

/-! ### All chains -/

variable {cs ds : List (Location × List Key)}

/-- Chains that are not refused add their edges one after the other. -/
theorem lays_checkChains {F : Location × List Key → Key → Key → Prop}
    (hlay : ∀ x ∈ cs, g.Lays (checkChain x.1 x.2) (F x)) : g.Lays (checkChains cs) fun a b =>
      ∃ x ∈ cs, F x a b := by
  induction cs with
  | nil => exact fun c E hc => ⟨c, rfl, hc.congr fun a b => by simp⟩
  | cons x more ih =>
    intro c E hc
    obtain ⟨c₁, hres, hc₁⟩ := hlay x List.mem_cons_self hc
    obtain ⟨c₂, hres', hc₂⟩ := ih (fun y hy => hlay y (List.mem_cons_of_mem _ hy)) hc₁
    refine ⟨c₂, ?_, hc₂.congr fun a b => ?_⟩
    · simp only [checkChains, hres, bind, Except.bind]
      exact hres'
    · simp only [List.exists_mem_cons_iff, or_assoc]

/-- One chain that is refused is enough, whatever comes before it. -/
theorem refuses_checkChains {x : Location × List Key}
    (hall : ∀ y ∈ cs, g.Refuses (checkChain y.1 y.2) ∨ ∃ F, g.Lays (checkChain y.1 y.2) F)
    (hx : x ∈ cs) (hrefuse : g.Refuses (checkChain x.1 x.2)) : g.Refuses (checkChains cs) := by
  induction cs with
  | nil => cases hx
  | cons y more ih =>
    intro c E hc
    rcases hall y List.mem_cons_self with hy | ⟨F, hlay⟩
    · simp only [checkChains, hy hc, bind, Except.bind]
      rfl
    · have hx' : x ∈ more := by
        refine (List.mem_cons.mp hx).resolve_left ?_
        rintro rfl
        obtain ⟨c', hres, -⟩ := hlay hc
        rw [hrefuse hc] at hres
        cases hres
      obtain ⟨c', hres, hc'⟩ := hlay hc
      simp only [checkChains, hres, bind, Except.bind]
      exact ih (fun z hz => hall z (List.mem_cons_of_mem _ hz)) hx' hc'

/-- **The order of the chains does not matter**: some chain is refused in every order, or the same
edges are added. -/
theorem Framed.checkChains_perm (hg : g.Framed) (hperm : ds.Perm cs)
    (hcs : ∀ x ∈ cs, x ∈ g.chains) : g.Refuses (checkChains cs) ∧ g.Refuses (checkChains ds) ∨
      ∃ F, g.Lays (checkChains cs) F ∧ g.Lays (checkChains ds) F := by
  have hall : ∀ x ∈ cs, g.Refuses (checkChain x.1 x.2) ∨ ∃ F, g.Lays (checkChain x.1 x.2) F := by
    intro x hx
    obtain ⟨ws, heq, -, hws⟩ := hg.chain_eq (hcs x hx)
    refine hg.checkChain_uniform fun w hw => ?_
    rw [heq, List.tail_cons] at hw
    exact ⟨hg.mem_of_joins (hws w hw), hg.ne_init_of_joins (hws w hw)⟩
  by_cases hrefuse : ∃ x ∈ cs, g.Refuses (checkChain x.1 x.2)
  · obtain ⟨x, hx, hrefuse⟩ := hrefuse
    exact Or.inl ⟨refuses_checkChains hall hx hrefuse,
      refuses_checkChains (fun y hy => hall y (hperm.mem_iff.mp hy)) (hperm.mem_iff.mpr hx) hrefuse⟩
  · have hlay : ∀ x, ∃ F, x ∈ cs → g.Lays (checkChain x.1 x.2) F := by
      intro x
      by_cases hx : x ∈ cs
      · obtain ⟨F, hF⟩ := (hall x hx).resolve_left fun hno => hrefuse ⟨x, hx, hno⟩
        exact ⟨F, fun _ => hF⟩
      · exact ⟨fun _ _ => False, fun hx' => absurd hx' hx⟩
    obtain ⟨F, hF⟩ := Classical.skolem.mp hlay
    refine Or.inr ⟨_, lays_checkChains hF, fun c E hc => ?_⟩
    obtain ⟨c', hres, hc'⟩ := lays_checkChains (fun x hx => hF x (hperm.mem_iff.mp hx)) hc
    exact ⟨c', hres, hc'.congr fun a b => by simp only [hperm.mem_iff]⟩

/-! ### The verdict -/

/-- Pairs are placed in the same way in lists of the same events. -/
theorem events_placePairs {ns ms : List Node} (heq : ms.map (·.event) = ns.map (·.event)) :
    (placePairs ms [] ms).map (·.event) = (placePairs ns [] ns).map (·.event) := by
  -- the events alone, as nodes without edges
  have hbare : ms.map (fun n => Node.new n.event .empty) = ns.map fun n =>
    Node.new n.event .empty := by
    have hmap := congrArg (List.map fun e => Node.new e .empty) heq
    rwa [List.map_map, List.map_map] at hmap
  have hns :=
    placePairs_map (f := fun n => Node.new n.event .empty) (fun _ => rfl) (fun _ => rfl) ns [] ns
  have hms :=
    placePairs_map (f := fun n => Node.new n.event .empty) (fun _ => rfl) (fun _ => rfl) ms [] ms
  rw [hbare, List.map_nil] at hms
  rw [List.map_nil] at hns
  have hmap := congrArg (List.map (·.event)) (hms.symm.trans hns)
  rwa [List.map_map, List.map_map] at hmap

/-- What is left of a check once all chains have been gone through. -/
def sortChecked (c : Graph) : Except Error (Option (List Node)) :=
  match c.topologicalOrder with
  | .ok sorted => .ok (some (placePairs sorted [] sorted))
  | .error (.cycle _ _) => .ok none
  | .error e => .error e

theorem Weighed.sortChecked (hc : Weighed g c E) (hd : Weighed g d E) (hg : g.Framed) :
    ∃ o o', c.sortChecked = .ok o ∧
    d.sortChecked = .ok o' ∧ o'.map (·.map (·.event)) = o.map (·.map (·.event)) := by
  have hkeys := hc.sortedKeys_eq hd hg
  unfold sortedKeys at hkeys
  unfold Graph.sortChecked
  rcases (hc.arranged hg).topologicalOrder_cases with ⟨ns, hns, hsorted⟩ | ⟨⟨i, j, hcycle⟩, -⟩
  · rcases (hd.arranged hg).topologicalOrder_cases with ⟨ms, hms, hsorted'⟩ | ⟨⟨i, j, hcycle⟩, -⟩
    · rw [hns, hms] at hkeys ⊢
      refine ⟨_, _, rfl, rfl, congrArg some (events_placePairs ?_)⟩
      have hevents : ∀ {c ns}, Weighed g c E → Sorted c ns →
          (ns.map (·.event)).map some = (ns.map (·.key)).map g.event? := by
        intro c ns hc hsorted
        rw [List.map_map, List.map_map]
        refine List.map_congr_left fun n hn => ?_
        have hmem := hc.order ▸ hsorted.mem.mp (List.mem_map_of_mem hn)
        rw [Function.comp_apply, Function.comp_apply, ← hc.event_of_mem hmem, Graph.event?,
          hsorted.table n hn]
        rfl
      have hkeys : ns.map (·.key) = ms.map (·.key) := Except.ok.inj hkeys
      refine List.map_injective_iff.mpr (Option.some_injective _) ?_
      rw [hevents hd hsorted', hevents hc hsorted, hkeys]
    · rw [hns, hcycle] at hkeys
      cases hkeys
  · rcases (hd.arranged hg).topologicalOrder_cases with ⟨ms, hms, -⟩ | ⟨⟨i', j', hcycle'⟩, -⟩
    · rw [hcycle, hms] at hkeys
      cases hkeys
    · rw [hcycle, hcycle']
      exact ⟨none, none, rfl, rfl, rfl⟩

theorem consistentOrder_eq (g : Graph) : g.consistentOrder =
    (checkChains g.copy.chains g.copy).bind fun verdict => match verdict with
      | .inconsistent => .ok none
      | .consistent c => c.sortChecked := by
  simp only [consistentOrder, sortChecked]
  cases checkChains g.copy.chains g.copy with
  | error e => rfl
  | ok verdict =>
    cases verdict with
    | inconsistent => rfl
    | consistent c =>
      simp only [bind, Except.bind]
      cases c.topologicalOrder with
      | ok sorted => rfl
      | error e => cases e <;> rfl

/-- **Whether a graph is consistent does not depend on the order of its chains and relations**, and
neither do the events that explain it; nothing goes wrong in any order. -/
theorem Regular.consistentOrder_shuffled (hg : g.Regular) (hs : Shuffled g h) :
    ∃ o o', g.consistentOrder = .ok o ∧
    h.consistentOrder = .ok o' ∧ o'.map (·.map (·.event)) = o.map (·.map (·.event)) := by
  have hc := hg.weighed_copy (.refl g)
  have hd := hg.weighed_copy hs
  rw [consistentOrder_eq, consistentOrder_eq]
  rcases hg.checkChains_perm hs.chains (fun x hx => hx) with ⟨hrefuse, hrefuse'⟩ | ⟨F, hlay, hlay'⟩
  · have hres : checkChains g.copy.chains g.copy = .ok .inconsistent := hrefuse hc
    have hres' : checkChains h.copy.chains h.copy = .ok .inconsistent := hrefuse' hd
    rw [hres, hres']
    exact ⟨none, none, rfl, rfl, rfl⟩
  · obtain ⟨c, hres, hc⟩ := hlay hc
    obtain ⟨d, hres', hd⟩ := hlay' hd
    have hres : checkChains g.copy.chains g.copy = .ok (.consistent c) := hres
    have hres' : checkChains h.copy.chains h.copy = .ok (.consistent d) := hres'
    rw [hres, hres']
    exact hc.sortChecked hd hg.toFramed

end Interleaving.Graph
