import Interleaving.Proofs.Revisit.Apply
import Interleaving.Revisit.Lock

/-!
# Proposing a backward revisit

For a read that does not happen before a new write, a backward revisit can be built, judged and
applied (`Interleaving.Graph.Writing.new`, `Interleaving.BackwardRevisit.Proposal.isMaximal`,
`Interleaving.BackwardRevisit.Proposal.restrict`). What it displaces is closed under what comes
after: an event behind the read in the total order stays just when it happens before the write.
-/

namespace Interleaving

namespace Graph

variable {g g' : Graph} {a b k w read : Key} {r : Relation} {loc : Location} {l removed : List Key}

/-! ### Copies -/

theorem Wired.copy (h : g.Wired) : g.copy.Wired := by
  refine h.toShaped.resembles_copy.wired h h.toShaped.copy (fun r a b hin => ?_) (fun hlab => ?_)
    fun hlab => ?_
  · obtain ⟨hb, hin⟩ := h.in_copy.mp hin
    exact h.out_copy.mpr ⟨h.source_mem hin, hb, h.mirrored _ _ _ hin⟩
  · rw [h.isLabel_copy] at hlab
    cases hlab
  · rw [h.isLabel_copy] at hlab
    cases hlab

theorem Writing.copy (h : g.Writing l w loc) : g.copy.Writing l w loc :=
  h.toShaped.resembles_copy.writing h h.toWired.copy

theorem Resembles.revisable (h : Resembles g g') (hg : g.Shaped) (hg' : g'.Shaped)
    (hr : Revisable g w read loc removed) : Revisable g' w read loc removed where
  reads := (h.readsAt_iff hg hg').mpr hr.reads
  mem := fun k hk => h.order ▸ hr.mem k hk
  closed := fun ho hin hk => hr.closed ho ((h.edge (h.order ▸ hk)).mp hin) (h.order ▸ hk)
  after := fun hin hk => hr.after ((h.edge (h.order ▸ hk)).mp hin) (h.order ▸ hk)

/-! ### What is displaced -/

/-- The place of an event in the total order: before it, behind it, and the last event at the
end. -/
theorem exists_split (hlatest : ∃ o, g.order = o ++ [w]) (hmem : k ∈ g.order) (hne : k ≠ w) :
    ∃ o₁ o₂, g.order = o₁ ++ k :: (o₂ ++ [w]) ∧ g.indexOf? k = some o₁.length := by
  obtain ⟨o, ho⟩ := hlatest
  have hmem : k ∈ o := by
    rw [ho, List.mem_append, List.mem_singleton] at hmem
    exact hmem.resolve_right hne
  obtain ⟨o₁, o₂, heq, hnot⟩ := List.eq_append_cons_of_mem hmem
  have horder : g.order = o₁ ++ k :: (o₂ ++ [w]) := by
    rw [ho, heq, List.append_assoc, List.cons_append]
  exact ⟨o₁, o₂, horder, indexOf?_of_split horder hnot⟩

theorem displaced_eq {o₁ o₂ : List Key} (ho : g.order = o₁ ++ read :: (o₂ ++ [w])) :
    BackwardRevisit.displaced g w o₁.length = o₂.filter fun k => !g.happensBefore k w := by
  unfold BackwardRevisit.displaced
  rw [ho, show o₁ ++ read :: (o₂ ++ [w]) = (o₁ ++ [read]) ++ (o₂ ++ [w]) by simp,
    show o₁.length + 1 = (o₁ ++ [read]).length by simp, List.drop_left, List.dropLast_concat]

/-- Nothing but program order and the edges of threads starts at a read. -/
theorem Wired.ordersThreads_of_read (h : g.Wired) (hread : g.ReadsAt read loc)
    (hin : g.In r read b) : r.ordersThreads = true := by
  cases r with
  | readsFrom =>
    obtain ⟨loc', hb⟩ := h.reads hin
    obtain ⟨hloc', w, hw, hsource⟩ := h.source hb
    obtain rfl := (hsource read).mp hin
    rcases h.mem_chain hloc' hw with heq | hwrite
    · exact absurd heq (h.ne_init_of_readsAt hread)
    · exact absurd hwrite hread.not_writesTo
  | coherency =>
    obtain ⟨loc', hloc', hadj⟩ := h.coherency.mp hin
    rcases h.mem_chain hloc' (hadj.subset List.mem_cons_self) with heq | hwrite
    · exact absurd heq (h.ne_init_of_readsAt hread)
    · exact absurd hwrite hread.not_writesTo
  | fromRead => exact absurd hin h.no_fromRead
  | _ => rfl

theorem ordersTime_of_ordersThreads (h : r.ordersThreads = true) : r.ordersTime = true := by
  revert h
  cases r <;> decide

/-- An event comes after whatever happens before what comes before it. -/
theorem Shaped.not_happensBefore_of_earlier (h : g.Shaped) (ht : g.Timed)
    (hacyclic : ∀ k, ¬g.Past k k) (ha : a ∈ g.order) (hw : w ∈ g.order)
    (hnot : g.happensBefore a w = false) (hedge : g.Earlier a b) (hb : b ∈ g.order) :
    b ≠ w ∧ g.happensBefore b w = false := by
  have hinit : ∀ {a}, ¬g.Earlier a .init := by
    rintro a ⟨r, -, hin⟩
    exact h.no_cause hin
  have hpast : ¬g.Past a w := by
    intro hp
    rcases h.key hw with rfl | ⟨t, i, rfl⟩
    · obtain ⟨d, hd, -⟩ := past_iff.mp hp
      exact hinit hd
    · rw [ht.happensBefore_of_past (fun _ => h.has) ha hw (hacyclic _) hp] at hnot
      cases hnot
  refine ⟨fun heq => hpast (heq ▸ .single hedge), Bool.eq_false_iff.mpr fun hbw => ?_⟩
  rcases h.key hb with rfl | ⟨t, i, rfl⟩
  · exact hinit hedge
  · exact hpast (Relation.TransGen.head hedge (ht.past_of_happensBefore hb hw hbw))

section Displaced

variable (h : g.Writing l w loc) (hread : g.ReadsAt read loc)
  (hnot : g.happensBefore read w = false) {o₁ o₂ : List Key}
  (ho : g.order = o₁ ++ read :: (o₂ ++ [w]))
include h ho

omit h in
theorem mem_displaced : k ∈ BackwardRevisit.displaced g w o₁.length ↔
    k ∈ o₂ ∧ g.happensBefore k w = false := by
  rw [displaced_eq ho, List.mem_filter]
  simp

omit h in
/-- What comes after an event behind the read stands behind the read. -/
theorem behind_of_before (hnodup : g.order.Nodup) (ha : a = read ∨ a ∈ o₂)
    (hbefore : Before g.order a b) : b ∈ o₂ ∨ b = w := by
  rw [ho] at hbefore hnodup
  have ha' : a ∉ o₁ := by
    intro hmem
    have hdisj := (List.nodup_append.mp hnodup).2.2 a hmem
    rcases ha with rfl | ha
    · exact hdisj a List.mem_cons_self rfl
    · exact hdisj a (by simp [ha]) rfl
  rcases before_append.mp hbefore with hb | ⟨-, ⟨hmem, -⟩ | ⟨-, hb⟩⟩
  · exact absurd hb.left_mem ha'
  · exact absurd hmem ha'
  · have hmem := hb.right_mem
    rw [List.mem_cons, List.mem_append, List.mem_singleton] at hmem
    exact hmem.resolve_left (before_cons.mp hb).1

omit h in
/-- The first event is not behind the read. -/
theorem mem_of_mem_behind (h : g.Shaped) (hne : read ≠ .init) (hk : k ∈ o₂) :
    k ∈ g.order ∧ k ≠ .init := by
  refine ⟨by simp [ho, hk], ?_⟩
  rintro rfl
  have hnodup := h.nodup
  obtain ⟨rest, hrest⟩ := List.head?_eq_some_iff.mp h.first
  rw [ho] at hnodup hrest
  cases o₁ with
  | nil =>
    rw [List.nil_append, List.cons.injEq] at hrest
    exact hne hrest.1
  | cons x o₁ =>
    rw [List.cons_append, List.cons.injEq] at hrest
    rw [List.cons_append, List.nodup_cons, hrest.1] at hnodup
    exact hnodup.1 (by simp [hk])

/-- What comes after a displaced event or the read is displaced. -/
theorem Writing.displaced_of_in (ha : a = read ∨ a ∈ o₂) (haw : g.happensBefore a w = false)
    (hr : r.ordersThreads = true) (hin : g.In r a b) (hb : b ∈ g.order) :
    b ∈ BackwardRevisit.displaced g w o₁.length := by
  have hbefore := h.forward hr hb hin
  obtain ⟨hne, hbw⟩ := h.toShaped.not_happensBefore_of_earlier h.timed h.dense.acyclic
    hbefore.left_mem (h.mem_of_writesTo h.write) haw ⟨r, ordersTime_of_ordersThreads hr, hin⟩ hb
  exact (mem_displaced ho).mpr ⟨(behind_of_before ho h.nodup ha hbefore).resolve_right hne, hbw⟩

include hread hnot

/-- What comes after the read is displaced. -/
theorem Writing.displaced_of_read (hin : g.In r read b) (hb : b ∈ g.order) :
    b ∈ BackwardRevisit.displaced g w o₁.length :=
  h.displaced_of_in ho (Or.inl rfl) hnot (h.ordersThreads_of_read hread hin) hin hb

/-- **What a revisit takes back is closed**, with the read or without it. -/
theorem Writing.revisable {more : List Key} (hmore : ∀ k ∈ more, k = read) :
    Revisable g w read loc (BackwardRevisit.displaced g w o₁.length ++ more) where
  reads := hread
  mem := by
    intro k hk
    have hne := h.ne_init_of_readsAt hread
    rcases List.mem_append.mp hk with hk | hk
    · exact mem_of_mem_behind ho h.toShaped hne ((mem_displaced ho).mp hk).1
    · rw [hmore k hk]
      exact ⟨h.mem_of_readsAt hread, hne⟩
  closed := by
    intro r a b hr hin hb hkept ha
    rw [List.mem_append, not_or] at hkept
    rcases List.mem_append.mp ha with ha | ha
    · obtain ⟨ha, haw⟩ := (mem_displaced ho).mp ha
      exact hkept.1 (h.displaced_of_in ho (Or.inr ha) haw hr hin hb)
    · obtain rfl := hmore a ha
      exact hkept.1 (h.displaced_of_read hread hnot ho hin hb)
  after := fun hin hb => List.mem_append_left _ (h.displaced_of_read hread hnot ho hin hb)

end Displaced

end Graph

/-! ### Proposals -/

namespace BackwardRevisit

open Interleaving.Graph

variable {g : Graph} {k w read : Key} {loc : Location} {l : List Key} {v : BackwardRevisit}

/-- **A proposal that can be judged and applied.** -/
structure Proposal (v : BackwardRevisit) (l : List Key) (loc : Location) : Prop where
  writing : v.graph.Writing l v.write loc
  label : ∀ k, v.graph.isLabel k = false
  revisable : Revisable v.graph v.write v.read loc v.removed
  fresh : v.restricted = false

/-- **A proposal can be applied.** -/
theorem Proposal.restrict (h : v.Proposal l loc) : ∃ g', v.restrict.2 = .ok g' := by
  obtain ⟨g', hg'⟩ := h.writing.apply h.label h.revisable
  refine ⟨g', ?_⟩
  unfold BackwardRevisit.restrict
  rw [if_neg (by simp [h.fresh]), hg']

/-- The mark of an acquisition changes nothing about it. -/
theorem Proposal.markFinal (h : v.Proposal l loc) : v.markFinal.Proposal l loc := by
  have hr := Resembles.markFinalLockWrite v.graph v.write
  have hw := h.writing.toWired.markFinalLockWrite v.write
  refine ⟨hr.writing h.writing hw, fun k => ?_,
    hr.revisable h.writing.toShaped hw.toShaped h.revisable, h.fresh⟩
  show (v.graph.markFinalLockWrite v.write).isLabel k = false
  rw [isLabel, kindOf?_markFinalLockWrite, ← isLabel, h.label]

/-- What an event of a wired graph sees is there. -/
theorem sourceOf_ok (h : v.graph.Wired) {n : Node} (hn : v.graph.find? k = some n) :
    ∃ m, v.sourceOf n = .ok m := by
  unfold sourceOf
  split
  · rename_i hread
    have hreads : v.graph.ReadsAt k n.location := ⟨n.event, by rw [event?, hn]; rfl, hread, rfl⟩
    obtain ⟨u, hu, -, hpreds⟩ := h.sources hreads hn
    obtain ⟨m, hm⟩ := h.find? hu
    rw [hpreds]
    exact ⟨m, h.node hu hm⟩
  · exact ⟨n, rfl⟩

theorem isMaximalAt_ok (h : v.graph.Wired) (hk : k ∈ v.graph.order) :
    ∃ b, v.isMaximalAt k = .ok b := by
  obtain ⟨n, hn⟩ := h.find? hk
  obtain ⟨m, hm⟩ := sourceOf_ok h hn
  unfold isMaximalAt
  rw [h.node hk hn]
  simp only [bind, Except.bind, pure, Except.pure, hm]
  split
  · exact ⟨true, rfl⟩
  · split
    · exact ⟨false, rfl⟩
    · split
      · exact ⟨false, rfl⟩
      · exact ⟨_, rfl⟩

theorem allMaximal_ok {ks : List Key} (h : ∀ k ∈ ks, ∃ b, v.isMaximalAt k = .ok b) :
    ∃ b, v.allMaximal ks = .ok b := by
  induction ks with
  | nil => exact ⟨true, rfl⟩
  | cons k ks ih =>
    obtain ⟨b, hb⟩ := h k List.mem_cons_self
    rw [allMaximal, hb]
    cases b with
    | true => exact ih fun k hk => h k (List.mem_cons_of_mem _ hk)
    | false => exact ⟨false, rfl⟩

/-- **A proposal can be judged.** -/
theorem Proposal.isMaximal (h : v.Proposal l loc) : ∃ b, v.isMaximal = .ok b := by
  refine allMaximal_ok fun k hk => isMaximalAt_ok h.writing.toWired ?_
  rcases List.mem_append.mp hk with hk | hk
  · exact (h.revisable.mem k ((Key.sort_perm _).mem_iff.mp hk)).1
  · split at hk
    · cases hk
    · rw [List.mem_singleton.mp hk]
      exact h.writing.mem_of_readsAt h.revisable.reads

end BackwardRevisit

namespace Graph

variable {g : Graph} {k w read : Key} {loc : Location} {l : List Key}

theorem mem_of_mem_displaced {i : Nat} (hk : k ∈ BackwardRevisit.displaced g w i) : k ∈ g.order :=
  List.mem_of_mem_drop (List.mem_of_mem_dropLast (List.mem_of_mem_filter hk))

/-- **A proposal can be built** for a read in front of the write. -/
theorem Shaped.new (h : g.Shaped) (hread : g.ReadsAt read loc) (hw : w ∈ g.order) {i : Nat}
    (hindex : g.indexOf? read = some i) :
    ∃ v, BackwardRevisit.new g w read = .ok v ∧ v.graph = g.copy ∧ v.read = read ∧ v.write = w ∧
      v.restricted = false ∧ v.removed = BackwardRevisit.displaced g w i ++
        if g.kindOf? read = some .lockAcquireRead then [read] else [] := by
  have hmem := h.mem_of_readsAt hread
  obtain ⟨m, hm⟩ := h.copy.find? hmem
  obtain ⟨mw, hmw⟩ := h.copy.find? hw
  obtain ⟨e, he⟩ := h.event? hmem
  have hevent : (g.find? read).map (·.event) = some e := he
  have hkind := kindOf?_of_event? he
  have hnode := h.copy.node hmem hm
  have hnodew := h.copy.node hw hmw
  obtain rfl := key_of_find? hm
  obtain rfl := key_of_find? hmw
  unfold BackwardRevisit.new
  rw [hindex, hkind]
  dsimp only
  rw [hnode, hnodew, hevent]
  dsimp only
  split
  · rename_i hlock
    exact ⟨_, rfl, rfl, rfl, rfl, rfl, by rw [if_pos (congrArg some hlock)]⟩
  · rename_i hlock
    have hremoved : (if some e.kind = some .lockAcquireRead then [m.key] else []) = [] :=
      if_neg fun heq => hlock (Option.some.inj heq)
    rw [hremoved, List.append_nil]
    split
    · split
      · rename_i hpair
        have hpair := mem_of_mem_displaced (List.contains_iff_mem.mp hpair)
        obtain ⟨n, hn⟩ := h.copy.find? hpair
        rw [h.copy.node hpair hn]
        exact ⟨_, rfl, rfl, rfl, rfl, rfl, rfl⟩
      · exact ⟨_, rfl, rfl, rfl, rfl, rfl, rfl⟩
    · exact ⟨_, rfl, rfl, rfl, rfl, rfl, rfl⟩

/-- **A proposal can be built** for a read that does not happen before the write. -/
theorem Writing.new (h : g.Writing l w loc) (hread : g.ReadsAt read loc)
    (hnot : g.happensBefore read w = false) :
    ∃ v, BackwardRevisit.new g w read = .ok v ∧ v.Proposal l loc ∧ v.read = read ∧
      v.graph = g.copy ∧ v.write = w := by
  have hne : read ≠ w := fun heq => hread.not_writesTo (heq ▸ h.write)
  obtain ⟨o₁, o₂, ho, hindex⟩ := exists_split h.latest (h.mem_of_readsAt hread) hne
  obtain ⟨v, hv, hgraph, hread', hwrite, hfresh, hremoved⟩ :=
    h.toShaped.new hread (h.mem_of_writesTo h.write) hindex
  have hmore : ∀ k ∈ if g.kindOf? read = some .lockAcquireRead then [read] else [], k = read := by
    intro k hk
    split at hk
    · exact List.mem_singleton.mp hk
    · cases hk
  refine ⟨v, hv, ⟨?_, ?_, ?_, hfresh⟩, hread', hgraph, hwrite⟩
  · rw [hgraph, hwrite]
    exact h.copy
  · rw [hgraph]
    exact h.isLabel_copy
  · rw [hgraph, hwrite, hread', hremoved]
    exact h.toShaped.resembles_copy.revisable h.toShaped h.toShaped.copy
      (h.revisable hread hnot ho hmore)

/-! ### Lock revisits -/

/-- A read that sees another write, in a copy. -/
theorem Wired.bare_of_changed (h : g.Wired) (hd : g.Dense) (hlabel : ∀ k, g.isLabel k = false)
    (hread : g.ReadsAt read loc) (hw : g.Has w) :
    ∃ g', g.changeReadsFrom read w = .ok g' ∧ g'.Bare := by
  obtain ⟨g', hchange, horder, -, hevent, htidy, hmirrored, hin⟩ := h.changeReadsFrom hread hw
  refine ⟨g', hchange, htidy, hmirrored, horder ▸ h.nodup, horder ▸ h.first, fun {k} => ?_,
    fun k => ?_,
    fun hk => h.key (horder ▸ hk), fun {t i a} hk => ?_, fun {r a} hab => ?_⟩
  · rw [has_iff_event?, hevent, ← has_iff_event?, horder]
    refine ⟨fun hhas => (h.mem_or_label hhas).resolve_right fun hlab => ?_, h.has⟩
    rw [hlabel] at hlab
    cases hlab
  · rw [isLabel, kindOf?_congr (hevent k), ← isLabel, hlabel]
  · rw [hin, ← hd.programOrder (horder ▸ hk)]
    simp
  · rcases hin.mp hab with ⟨hab, -⟩ | ⟨-, -, heq⟩
    · exact h.no_cause hab
    · exact h.ne_init_of_readsAt hread heq.symm

/-- **Whether an acquisition can overtake another one can be decided.** -/
theorem Sound.isPossible (h : g.Sound l) {own : Key} {loc' : Location} (hread : g.ReadsAt read loc)
    (hown : g.ReadsAt own loc') : ∃ b, LockRevisit.isPossible g read own = .ok b := by
  have hc := h.toWired.copy
  have hr := h.toShaped.resembles_copy
  have hs := hr.sound h hc
  have hread' := (hr.readsAt_iff h.toShaped hc.toShaped).mpr hread
  have hown' := (hr.readsAt_iff h.toShaped hc.toShaped).mpr hown
  obtain ⟨m, hm⟩ := hc.find? (hc.mem_of_readsAt hread')
  obtain ⟨n, hn⟩ := hc.find? (hc.mem_of_readsAt hown')
  obtain ⟨v, hv, -, hpreds⟩ := hc.sources hown' hn
  obtain ⟨mv, hmv⟩ := hc.find? hv
  obtain ⟨g', hchange, hbare⟩ := hc.bare_of_changed hs.dense h.isLabel_copy hread' (hc.has hv)
  unfold LockRevisit.isPossible
  simp only [hc.node (hc.mem_of_readsAt hread') hm, hc.node (hc.mem_of_readsAt hown') hn,
    Except.mapError, bind, Except.bind, hpreds, hc.node hv hmv, key_of_find? hm, key_of_find? hmv,
    hchange]
  rcases hbare.recomputeClocks_cases with ⟨g'', hrun⟩ | ⟨i, j, g'', hrun⟩
  · simp only [EStateM.run, hrun]
    exact ⟨_, rfl⟩
  · simp only [EStateM.run, hrun]
    exact ⟨_, rfl⟩

end Graph

end Interleaving
