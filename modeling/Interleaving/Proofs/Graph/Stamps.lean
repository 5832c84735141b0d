import Interleaving.Proofs.Graph.Editing

/-!
# Stamps and positions

An event is stamped once, with the number of events that stand before it when it is added. That is
its position in the total order then (`Interleaving.Graph.Stamped`). Operations on a graph leave
stamps alone, so a stamp stays the position for as long as nothing is taken out in front of the
event. **Taking a set of events out of the middle is the only operation that parts the two**
(`Interleaving.Graph.stamps_of_edits`): positions go down and stamps stay. The next event may then
get a stamp that another one has already (`Interleaving.Graph.not_stamped_shiftedGraph`).

Every operation but the adding of an event hands on what the table lists, labels apart
(`Interleaving.Graph.Inherits`); adding an event puts one at the end (`Interleaving.Graph.Joined`).
-/

namespace Interleaving.Graph

variable {g g' g'' : Graph} {a b k : Key} {r : Relation} {e : Event} {loc : Location}
  {removed : List Key} {i : Nat}

/-- The stamp of the event with a key. -/
def stamp? (g : Graph) (k : Key) : Option Int := (g.event? k).map (·.stamp)

/-- **Stamps are positions**: every event is stamped with its position in the total order. -/
def Stamped (g : Graph) : Prop :=
  ∀ ⦃i : Nat⦄ ⦃k⦄, g.order[i]? = some k → g.stamp? k = some (i : Int)

/-- The events that the table lists, in the order of its nodes. -/
def listed (g : Graph) : List Event := g.nodes.map (·.event)

/-- Every event is listed. -/
theorem mem_listed_of_event? (he : g.event? k = some e) : e ∈ g.listed ∧ e.key = k := by
  obtain ⟨n, hn, rfl⟩ := Option.map_eq_some_iff.mp he
  exact ⟨List.mem_map_of_mem (mem_of_find? hn), key_of_find? hn⟩

/-- In a tidy graph a listed event is found under its key. -/
theorem Tidy.event?_of_listed (h : g.Tidy) (he : e ∈ g.listed) : g.event? e.key = some e := by
  obtain ⟨n, hn, rfl⟩ := List.mem_map.mp he
  exact Option.map_eq_some_iff.mpr ⟨n, find?_of_mem h.keys hn, rfl⟩

/-- A change that leaves the event of a node alone leaves the list alone. -/
theorem listed_modifyNode {f : Node → Node} (hf : ∀ n, (f n).event = n.event) :
    (g.modifyNode k f).listed = g.listed := by
  unfold listed modifyNode
  rw [List.map_map]
  refine List.map_congr_left fun n _ => ?_
  rw [Function.comp_apply]
  split
  · exact hf n
  · rfl

theorem listed_link : (g.link a b r).listed = g.listed := by
  unfold link
  dsimp only
  split
  · rw [listed_modifyNode, listed_modifyNode, listed_modifyNode] <;> exact fun _ => rfl
  · rw [listed_modifyNode, listed_modifyNode] <;> exact fun _ => rfl

theorem listed_unlink : (g.unlink a b r).listed = g.listed := by
  unfold unlink
  rw [listed_modifyNode, listed_modifyNode] <;> exact fun _ => rfl

/-! ### What is handed on -/

/-- A graph with the same events in the same order; it may have other labels. -/
structure Inherits (g g' : Graph) : Prop where
  order : g'.order = g.order
  listed : ∀ {e}, e ∈ g'.listed → e ∈ g.listed ∨ e.kind = .block

namespace Inherits

theorem refl (g : Graph) : Inherits g g := ⟨rfl, Or.inl⟩

/-- What is handed on twice is handed on. -/
theorem trans (h : Inherits g g') (h' : Inherits g' g'') : Inherits g g'' :=
  ⟨h'.order.trans h.order, fun he => (h'.listed he).elim h.listed Or.inr⟩

/-- The same events in the table. -/
theorem of_listed (hlisted : g'.listed = g.listed) (horder : g'.order = g.order) : Inherits g g' :=
  ⟨horder, fun he => Or.inl (hlisted ▸ he)⟩

/-- A label is put into the table. -/
theorem put {n : Node} (hkind : n.kind = .block)
    (hnodes : g'.nodes = g.nodes ++ [n]) (horder : g'.order = g.order) : Inherits g g' := by
  refine ⟨horder, fun {e} he => ?_⟩
  rw [Graph.listed, hnodes, List.map_append, List.mem_append, List.map_singleton,
    List.mem_singleton] at he
  rcases he with he | rfl
  · exact Or.inl he
  · exact Or.inr hkind

/-- Nodes go from the table. -/
theorem drop (hnodes : g'.nodes.Sublist g.nodes) (horder : g'.order = g.order) : Inherits g g' :=
  ⟨horder, fun he => Or.inl ((hnodes.map _).subset he)⟩

/-- What is handed on by every change of a list is handed on by all of them. -/
theorem foldl {α : Type} {f : Graph → α → Graph}
    (hf : ∀ g x, Inherits g (f g x)) (xs : List α) (g : Graph) : Inherits g (xs.foldl f g) := by
  induction xs generalizing g with
  | nil => exact refl g
  | cons x xs ih => exact (hf g x).trans (ih (f g x))

/-- Edges hand everything on. -/
theorem link (g : Graph) (a b : Key) (r : Relation) : Inherits g (g.link a b r) :=
  of_listed listed_link (link_order ..)

theorem unlink (g : Graph) (a b : Key) (r : Relation) : Inherits g (g.unlink a b r) :=
  of_listed listed_unlink (unlink_order ..)

/-- Linking a chain hands everything on. -/
theorem linkChain (g : Graph) (ks : List Key) : Inherits g (g.linkChain ks) := by
  fun_induction Graph.linkChain g ks with
  | case1 g a b more ih => exact (link g a b .coherency).trans ih
  | case2 => exact refl _

theorem unlinkChain (g : Graph) (ks : List Key) : Inherits g (g.unlinkChain ks) := by
  fun_induction Graph.unlinkChain g ks with
  | case1 g a b more ih => exact (unlink g a b .coherency).trans ih
  | case2 => exact refl _

theorem setChain (g : Graph) (loc : Location) (ks : List Key) : Inherits g (g.setChain loc ks) :=
  of_listed rfl rfl

/-- Another source of a read hands everything on. -/
theorem changeReadsFrom {w : Key} (hg' : g.changeReadsFrom k w = .ok g') : Inherits g g' := by
  unfold Graph.changeReadsFrom at hg'
  split at hg'
  · rename_i source _
    cases hprev : g.node source with
    | error e =>
      rw [hprev] at hg'
      cases hg'
    | ok prev =>
      rw [hprev] at hg'
      cases hg'
      exact (unlink ..).trans (link ..)
  · cases hg'

/-- A new write of a chain hands everything on. -/
theorem trackCoherency (g : Graph) (w : Key) : Inherits g (g.trackCoherency w) := by
  unfold Graph.trackCoherency
  dsimp only
  generalize (if (g.chain _).isEmpty then [Key.init] else g.chain _) = chain
  split
  · exact setChain ..
  · exact (setChain ..).trans (link ..)

/-- Moving a write within its chain hands everything on. -/
theorem swapCoherency (hg' : g.swapCoherency a b = .ok g') : Inherits g g' := by
  unfold Graph.swapCoherency at hg'
  dsimp only at hg'
  split at hg'
  · cases hg'
  · split at hg'
    · cases hg'
      exact (unlinkChain ..).trans ((linkChain ..).trans (setChain ..))
    · cases hg'

theorem trackThreadCreates (g : Graph) (k : Key) : Inherits g (g.trackThreadCreates k) := by
  unfold Graph.trackThreadCreates
  split
  · exact (link ..).trans (setChain ..)
  · exact refl g

/-- The start of a thread hands everything on. -/
theorem trackThreadStarts (hg' : g.trackThreadStarts k = .ok g') : Inherits g g' := by
  unfold Graph.trackThreadStarts at hg'
  repeat' split at hg'
  all_goals cases hg'
  · exact refl g
  · exact refl g
  · exact link ..

theorem trackThreadJoins (hg' : g.trackThreadJoins k = .ok g') : Inherits g g' := by
  unfold Graph.trackThreadJoins at hg'
  repeat' split at hg'
  all_goals cases hg'
  · exact refl g
  · exact refl g
  · exact link ..

/-- A label is no event of the total order. -/
theorem block (g : Graph) (task : Int) : Inherits g (g.block task) := by
  unfold Graph.block Graph.appendToTask
  dsimp only
  refine trans ?_ (link ..)
  exact put rfl rfl rfl

theorem dropLabel (g : Graph) (task : Int) : Inherits g (g.dropLabel task) := by
  have hcut : Inherits g { g with tasks := g.tasks.modify task.toNat List.dropLast } :=
    of_listed rfl rfl
  have hunlink := hcut.trans
    (unlink _ ({ g with tasks := g.tasks.modify task.toNat List.dropLast }.lastOf task)
      (g.lastOf task) .programOrder)
  unfold Graph.dropLabel
  dsimp only
  split
  · exact hunlink
  · exact hunlink.trans (drop List.filter_sublist rfl)

theorem blockAll (g : Graph) (ts : List Int) : Inherits g (g.blockAll ts) :=
  foldl (fun g t => by split; exacts [refl g, block g t]) ts g

theorem unblockAll (g : Graph) (ts : List Int) : Inherits g (g.unblockAll ts) :=
  foldl (fun g t => by split; exacts [dropLabel g t, refl g]) ts g

theorem blockForLock (g : Graph) (task : Int) (loc : Location) :
    Inherits g (g.blockForLock task loc) := by
  have hone : (if g.isBlocked task then g else g.block task) = g.blockAll [task] := rfl
  unfold Graph.blockForLock
  dsimp only
  rw [hone]
  split
  · exact blockAll g _
  · exact (blockAll g _).trans (of_listed rfl rfl)

theorem acquireLock (g : Graph) (loc : Location) (task : Int) :
    Inherits g (g.acquireLock loc task) := by
  unfold Graph.acquireLock
  split
  · exact refl g
  · have hset : ∀ ts, Inherits g (g.setWaiting loc ts) := fun ts => of_listed rfl rfl
    exact (hset _).trans (blockAll _ _)

/-- A copy hands everything on but labels. -/
theorem copy (g : Graph) : Inherits g g.copy := by
  refine ⟨rfl, fun {e} he => ?_⟩
  have hcut : ∀ (g : Graph) c, Inherits g (g.cut c) :=
    fun g c => of_listed (listed_modifyNode fun _ => rfl) rfl
  have hcuts := foldl hcut g.cuts g
  rw [Graph.listed, nodes_copy] at he
  exact hcuts.listed ((List.filter_sublist.map _).subset he)

/-- New clocks hand everything on. -/
theorem recomputeClocks (hg' : Graph.recomputeClocks g = .ok () g') : Inherits g g' := by
  have hr := reclocked_of_recomputeClocks hg'
  refine of_listed ?_ hr.order
  have hevents := congrArg (List.map fun n : Node => n.event) hr.nodes
  rwa [List.map_map, List.map_map] at hevents

end Inherits

/-- A graph with some of the events, in the same order; it may have other labels. -/
structure Thins (g g' : Graph) : Prop where
  order : g'.order.Sublist g.order
  listed : ∀ {e}, e ∈ g'.listed → e ∈ g.listed ∨ e.kind = .block

/-- What hands everything on takes nothing out. -/
theorem Inherits.thins (h : Inherits g g') : Thins g g' := ⟨h.order ▸ List.Sublist.refl _, h.listed⟩

/-- Events are taken out of the total order, and no other ones come in their place. -/
theorem thins_prune (g : Graph) (removed : List Key) :
    Thins g (g.prune removed) ∧ (g.prune removed).order = g.order.filter fun k =>
      !removed.contains k := by
  unfold prune
  split
  · rename_i hempty
    rw [List.isEmpty_iff.mp hempty]
    exact ⟨(Inherits.refl g).thins, (List.filter_eq_self.mpr fun _ _ => rfl).symm⟩
  · have hrelink := Inherits.foldl (f := g.relinkAt) (fun g' loc => by
      unfold relinkAt
      split
      · exact .refl g'
      · exact (Inherits.unlinkChain ..).trans (.linkChain ..))
      (g.touchedLocations removed) (g.stripped removed)
    refine ⟨⟨hrelink.order ▸ List.filter_sublist, fun {e} he => ?_⟩, hrelink.order⟩
    refine (hrelink.listed he).imp_left fun he => ?_
    obtain ⟨n, hn, rfl⟩ := List.mem_map.mp he
    obtain ⟨m, hm, rfl⟩ := List.mem_map.mp hn
    exact List.mem_map.mpr ⟨m, List.mem_of_mem_filter hm, rfl⟩

/-- Restricting a graph takes events out. -/
theorem thins_restrictBySet (hg' : g.restrictBySet removed = .ok g') : Thins g g' := by
  obtain rfl := restrictBySet_ok hg'
  exact (thins_prune ..).1

/-- An event has been added, at the end of the total order and with the number of events before it
as its stamp. -/
structure Joined (g g' : Graph) (k : Key) : Prop where
  order : g'.order = g.order ++ [k]
  fresh : k ∉ g.order
  stamp : g'.stamp? k = some (g.order.length : Int)
  event : ∀ {k'}, k' ≠ k → g'.event? k' = g.event? k'

/-- A new event is stamped with its place and stands last. -/
theorem Regular.joined (h : g.Regular) (hkind : e.kind ≠ .block)
    (hg' : (Graph.addEvent e).run g = .ok k g') : Joined g g' k := by
  obtain ⟨t, n, hn, -, hg, rfl⟩ := h.toShaped.addEvent_ok hkind hg'
  have horder : (g.prepared e).order = g.order := Entry.order_prepared
  refine ⟨by rw [hg.order, horder], fun hk => hn.ne_of_mem hk rfl, ?_, fun {k'} hne => ?_⟩
  · rw [stamp?, hg.event, if_pos rfl, Option.map_some, entered, horder]
  · rw [hg.event, if_neg hne]
    exact Entry.event?_prepared

/-- In a list without repetitions, what does not stand behind a place stands up to it. -/
theorem filter_not_mem_drop {ks : List Key} (hnodup : ks.Nodup) (i : Nat) :
    (ks.filter fun k => !(ks.drop i).contains k) = ks.take i := by
  have hsplit := List.take_append_drop i ks
  have hdisj := (List.nodup_append.mp (hsplit.symm ▸ hnodup)).2.2
  have htake : ((ks.take i).filter fun k => !(ks.drop i).contains k) = ks.take i :=
    List.filter_eq_self.mpr fun k hk => by
      have hnot : k ∉ ks.drop i := fun hin => hdisj k hk k hin rfl
      simp [hnot]
  have hdrop : ((ks.drop i).filter fun k => !(ks.drop i).contains k) = [] :=
    List.filter_eq_nil_iff.mpr fun k hk => by simp [hk]
  conv_lhs => rw [← hsplit, List.filter_append]
  rw [hsplit, htake, hdrop, List.append_nil]

/-- **Every operation adds an event or hands events on.** Only when a set of events is taken out,
what is handed on may not be what the total order begins with. -/
theorem Edits.cases (he : Edits g g') (h : g.Regular) :
    (∃ k, Joined g g' k) ∨ Thins g g' ∧
    (g'.order <+: g.order ∨ ∃ removed, g.restrictBySet removed = .ok g') := by
  have hsame : ∀ {g'}, Inherits g g' →
      Thins g g' ∧ (g'.order <+: g.order ∨ ∃ removed, g.restrictBySet removed = .ok g') :=
    fun hi => ⟨hi.thins, Or.inl (hi.order ▸ List.prefix_rfl)⟩
  cases he with
  | addEvent _ hkind _ hg' => exact Or.inl ⟨_, h.joined hkind hg'⟩
  | setReadsFrom => exact Or.inr (hsame (.link ..))
  | changeReadsFrom _ _ hg' => exact Or.inr (hsame (.changeReadsFrom hg'))
  | trackCoherency => exact Or.inr (hsame (.trackCoherency ..))
  | swapCoherency _ _ hg' => exact Or.inr (hsame (.swapCoherency hg'))
  | trackThreadCreates => exact Or.inr (hsame (.trackThreadCreates ..))
  | trackThreadStarts _ hg' => exact Or.inr (hsame (.trackThreadStarts hg'))
  | trackThreadJoins _ hg' => exact Or.inr (hsame (.trackThreadJoins hg'))
  | block => exact Or.inr (hsame (.block ..))
  | unblock hg' =>
    unfold Graph.unblock at hg'
    split at hg'
    · cases hg'
      exact Or.inr (hsame (.dropLabel ..))
    · cases hg'
  | blockForLock => exact Or.inr (hsame (.blockForLock ..))
  | unblockForLock => exact Or.inr (hsame (.unblockAll ..))
  | acquireLock => exact Or.inr (hsame (.acquireLock ..))
  | restrict hg' =>
    unfold Graph.restrict at hg'
    split at hg'
    · cases hg'
    · rename_i i _
      obtain rfl := takeOut_ok hg'
      obtain ⟨hthin, horder⟩ := thins_prune g (g.order.drop (i + 1))
      refine Or.inr ⟨hthin, Or.inl ?_⟩
      rw [horder, filter_not_mem_drop h.nodup]
      exact List.take_prefix ..
  | restrictBySet _ hg' => exact Or.inr ⟨thins_restrictBySet hg', Or.inr ⟨_, hg'⟩⟩
  | recomputeClocks hg' => exact Or.inr (hsame (.recomputeClocks hg'))
  | copy => exact Or.inr (hsame (.copy g))

/-! ### Stamps -/

/-- An event that is left is stamped as it was. -/
theorem Thins.stamp? (h : Thins g g') (hg : g.Regular) (hg' : g'.Regular) (hk : k ∈ g'.order) :
    g'.stamp? k = g.stamp? k := by
  obtain ⟨e, he⟩ := hg'.event? hk
  obtain ⟨hlisted, rfl⟩ := mem_listed_of_event? he
  have hold := (h.listed hlisted).resolve_right ((hg'.mem_iff he).mp hk)
  rw [Graph.stamp?, Graph.stamp?, he, hg.tidy.event?_of_listed hold]

/-- A new event changes no stamp. -/
theorem Joined.stamp?_of_mem (h : Joined g g' a) (hk : k ∈ g.order) : g'.stamp? k = g.stamp? k := by
  rw [Graph.stamp?, Graph.stamp?, h.event fun heq => h.fresh (heq ▸ hk)]

theorem getElem?_of_initial {ks rest : List Key} (hinitial : ks <+: rest) (hk : ks[i]? = some k) :
    rest[i]? = some k := by
  obtain ⟨more, rfl⟩ := hinitial
  rw [List.getElem?_append_left (List.getElem?_eq_some_iff.mp hk).1, hk]

theorem eq_of_getElem?_singleton {n : Nat} (hn : ¬i < n) (hk : [a][i - n]? = some k) :
    k = a ∧ i = n := by
  obtain ⟨hi, hk⟩ := List.getElem?_eq_some_iff.mp hk
  rw [List.length_singleton] at hi
  exact ⟨hk.symm.trans (List.getElem_singleton hi), by omega⟩

/-- **No event stands behind its stamp.** -/
def Late (g : Graph) : Prop :=
  ∀ ⦃i : Nat⦄ ⦃k⦄, g.order[i]? = some k → ∃ s, g.stamp? k = some s ∧ (i : Int) ≤ s

/-- A stamp that is the place of an event is no less than it. -/
theorem Stamped.late (h : g.Stamped) : g.Late := fun _ _ hk => ⟨_, h hk, le_rfl⟩

/-- **No operation makes a stamp less than a place**: events only move forward. -/
theorem Edits.late (he : Edits g g') (hg : g.Regular) (h : g.Late) : g'.Late := by
  intro i k hk
  rcases he.cases hg with ⟨a, hj⟩ | ⟨hthin, -⟩
  · rw [hj.order, List.getElem?_append] at hk
    split at hk
    · rw [hj.stamp?_of_mem (List.mem_of_getElem? hk)]
      exact h hk
    · obtain ⟨rfl, rfl⟩ := eq_of_getElem?_singleton ‹_› hk
      exact ⟨_, hj.stamp, le_rfl⟩
  · -- an event moves forward when others in front of it go
    obtain ⟨f, hf⟩ := List.sublist_iff_exists_orderEmbedding_getElem?_eq.mp hthin.order
    obtain ⟨s, hs, hle⟩ := h ((hf i).symm.trans hk)
    have hmove : i ≤ f i := f.strictMono.le_apply
    rw [hthin.stamp? hg (he.regular hg) (List.mem_of_getElem? hk)]
    exact ⟨s, hs, by omega⟩

/-- What is cut off at the end of the order leaves the other stamps right. -/
theorem Stamped.of_initial (h : g.Stamped) (hinitial : g'.order <+: g.order)
    (hstamp : ∀ k ∈ g'.order, g'.stamp? k = g.stamp? k) : g'.Stamped := by
  intro i k hk
  rw [hstamp k (List.mem_of_getElem? hk)]
  exact h (getElem?_of_initial hinitial hk)

/-- A new event leaves all stamps right. -/
theorem Stamped.joined (h : g.Stamped) (hj : Joined g g' a) : g'.Stamped := by
  intro i k hk
  rw [hj.order, List.getElem?_append] at hk
  split at hk
  · rw [hj.stamp?_of_mem (List.mem_of_getElem? hk)]
    exact h hk
  · obtain ⟨rfl, rfl⟩ := eq_of_getElem?_singleton ‹_› hk
    exact hj.stamp

/-- Where stamps are positions before and after events have gone, the events have gone from the
end. -/
theorem Stamped.prefix_of_thins (h : g.Stamped) (h' : g'.Stamped)
    (hthin : g'.order.Sublist g.order) (hstamp : ∀ k ∈ g'.order, g'.stamp? k = g.stamp? k) :
    g'.order <+: g.order := by
  rw [List.prefix_iff_getElem?]
  intro i hi
  have hk : g'.order[i]? = some g'.order[i] := List.getElem?_eq_getElem hi
  have hmem := List.getElem_mem hi
  obtain ⟨j, hj⟩ := List.getElem?_of_mem (hthin.subset hmem)
  have heq : some (i : Int) = some (j : Int) := by rw [← h' hk, hstamp _ hmem, h hj]
  obtain rfl := Int.ofNat_inj.mp (Option.some.inj heq)
  exact hj

/-- **One operation parts stamps from positions just when it takes a set of events out of the
middle.** -/
theorem Edits.stamped_iff (he : Edits g g') (hg : g.Regular) (h : g.Stamped) :
    g'.Stamped ↔ ¬∃ removed, g.restrictBySet removed = .ok g' ∧ ¬g'.order <+: g.order := by
  have hg' := he.regular hg
  constructor
  · rintro h' ⟨removed, hrun, hnot⟩
    have hthin := thins_restrictBySet hrun
    exact hnot (h.prefix_of_thins h' hthin.order fun k hk => hthin.stamp? hg hg' hk)
  · intro hnot
    rcases he.cases hg with ⟨a, hj⟩ | ⟨hthin, hcase⟩
    · exact h.joined hj
    · have hinitial : g'.order <+: g.order := by
        rcases hcase with hinitial | ⟨removed, hrun⟩
        · exact hinitial
        · exact Classical.byContradiction fun hno => hnot ⟨removed, hrun, hno⟩
      exact h.of_initial hinitial fun k hk => hthin.stamp? hg hg' hk

theorem stamped_initial : Graph.initial.Stamped := by
  intro i k hk
  obtain ⟨hi, rfl⟩ := List.getElem?_eq_some_iff.mp hk
  obtain rfl : i = 0 := by simpa [Graph.initial] using hi
  rfl

/-- One operation that leaves what stands in front of an event in front of it: the total order grows
or shrinks at its end. -/
def InTurn (g g' : Graph) : Prop := Edits g g' ∧ (g'.order <+: g.order ∨ g.order <+: g'.order)

/-- An operation at the end of the total order leaves all stamps right. -/
theorem InTurn.stamped (ht : InTurn g g') (hg : g.Regular) (h : g.Stamped) : g'.Stamped := by
  refine (ht.1.stamped_iff hg h).mpr ?_
  rintro ⟨removed, hrun, hnot⟩
  have hgrown := ht.2.resolve_left hnot
  exact hnot (hgrown.sublist.antisymm (thins_restrictBySet hrun).order ▸ List.prefix_rfl)

/-- **Stamps are places** as long as the total order grows and shrinks at its end. -/
theorem stamped_of_inTurn (h : Relation.ReflTransGen InTurn .initial g) :
    g.Regular ∧ g.Stamped := by
  induction h with
  | refl => exact ⟨regular_of_edits .refl, stamped_initial⟩
  | tail _ ht ih => exact ⟨ht.1.regular ih.1, ht.stamped ih.1 ih.2⟩

/-- Operations at the end of the total order are operations on graphs. -/
theorem edits_of_inTurn (h : Relation.ReflTransGen InTurn .initial g) :
    Relation.ReflTransGen Edits .initial g :=
  h.lift id fun _ _ => And.left

/-- **Stamps and positions.** No event of a graph that is edited stands behind its stamp. As long as
stamps are positions, an operation keeps them so unless it takes a set of events out of the middle
of the total order; they are positions in a graph of which events have gone from the end only. -/
theorem stamps_of_edits (h : Relation.ReflTransGen Edits .initial g) :
    g.Late ∧ (∀ g', Edits g g' → g.Stamped →
      (g'.Stamped ↔ ¬∃ removed, g.restrictBySet removed = .ok g' ∧ ¬g'.order <+: g.order)) ∧
    (Relation.ReflTransGen InTurn .initial g → g.Stamped) := by
  have hregular := regular_of_edits h
  refine ⟨?_, fun g' he hstamped => he.stamped_iff hregular hstamped,
    fun hturn => (stamped_of_inTurn hturn).2⟩
  clear hregular
  induction h with
  | refl => exact stamped_initial.late
  | tail h he ih => exact he.late (regular_of_edits h) ih

/-- The first of two tasks has an event. -/
def loneGraph : Graph := (Graph.initial.ensureTask 0).insertEvent (.new 0 .noop .none)

/-- The second task has one as well. -/
def pairGraph : Graph := (loneGraph.ensureTask 1).insertEvent (.new 1 .noop .none)

/-- The first of the two events has been taken out. -/
def movedGraph : Graph := pairGraph.prune [.place 0 0]

/-- The first task has a new event. -/
def shiftedGraph : Graph := (movedGraph.ensureTask 0).insertEvent (.new 0 .noop .none)

theorem placed_noop (task : Int) : (Event.new task .noop .none).Placed := by
  constructor <;> intro hkind <;> simp [Event.new, Kind.isRead, Kind.isWrite] at hkind

/-- Two events are added. -/
theorem inTurn_pairGraph : Relation.ReflTransGen InTurn .initial pairGraph := by
  have hfirst : Edits .initial loneGraph :=
    .addEvent (e := .new 0 .noop .none) (k := .place 0 0) (by decide) (by decide)
      (placed_noop 0) rfl
  have hsecond : Edits loneGraph pairGraph :=
    .addEvent (e := .new 1 .noop .none) (k := .place 1 0) (by decide) (by decide)
      (placed_noop 1) rfl
  exact (Relation.ReflTransGen.single ⟨hfirst, Or.inr (by decide)⟩).tail
    ⟨hsecond, Or.inr (by decide)⟩

/-- The first of them is taken out. -/
theorem edits_movedGraph : Edits pairGraph movedGraph := by
  have hrun : pairGraph.restrictBySet [.place 0 0] = .ok movedGraph := rfl
  refine .restrictBySet (fun {t i j} hij hi hj => ?_) hrun
  obtain ⟨rfl, rfl⟩ := Key.place_inj.mp (List.mem_singleton.mp hi)
  -- the first task has no other event
  have horder : pairGraph.order = [.init, .place 0 0, .place 1 0] := rfl
  simp only [horder, List.mem_cons, Key.place_ne_init, Key.place_inj, List.not_mem_nil, false_or,
    or_false] at hj
  omega

/-- **The other event keeps its stamp and loses its place.** -/
theorem stamps_movedGraph :
    Relation.ReflTransGen InTurn .initial pairGraph ∧ pairGraph.Late ∧ pairGraph.Stamped ∧
    ¬movedGraph.Stamped := by
  obtain ⟨hlate, hstep, hturn⟩ := stamps_of_edits (edits_of_inTurn inTurn_pairGraph)
  have hstamped := hturn inTurn_pairGraph
  refine ⟨inTurn_pairGraph, hlate, hstamped, fun hmoved => ?_⟩
  exact (hstep _ edits_movedGraph hstamped).mp hmoved ⟨[.place 0 0], rfl, by decide⟩

/-- **Two events have one stamp**: the event behind the one that was taken out stands one place
further to the front than its stamp says, and the next event gets that stamp. -/
theorem not_stamped_shiftedGraph : Relation.ReflTransGen Edits .initial shiftedGraph ∧
    shiftedGraph.indexOf? (.place 1 0) = some 1 ∧ shiftedGraph.stamp? (.place 1 0) = some 2 ∧
    shiftedGraph.stamp? (.place 0 0) = some 2 ∧ ¬shiftedGraph.Stamped := by
  have hlast : Edits movedGraph shiftedGraph :=
    .addEvent (e := .new 0 .noop .none) (k := .place 0 0) (by decide) (by decide)
      (placed_noop 0) rfl
  have hedits := edits_of_inTurn inTurn_pairGraph
  have hstamp : shiftedGraph.stamp? (.place 1 0) = some 2 := by decide
  refine ⟨(hedits.tail edits_movedGraph).tail hlast, by decide, hstamp, by decide, fun h => ?_⟩
  have hone : shiftedGraph.order[1]? = some (.place 1 0) := by decide
  have hposition := (h hone).symm.trans hstamp
  exact absurd hposition (by decide)

end Interleaving.Graph
