import Interleaving.Graph.Alternatives
import Interleaving.Proofs.Graph.Copy
import Interleaving.Proofs.Dictionary
import Interleaving.Proofs.Graph.Sound

/-!
# Labels and waiting tasks

A task that must not go on gets a blocking label at its end (`Interleaving.Graph.Shaped.block`), and
goes on when the label is taken off again (`Interleaving.Graph.Shaped.dropLabel`). Labels come and
go when tasks wait for locks: a task that finds a lock held is blocked, a release takes the labels
off the tasks that wait for the lock, and the task that gets it blocks the others again. None of
this touches an event: **the graph before and the graph after resemble each other**
(`Interleaving.Graph.Relabels`).
-/

namespace Interleaving.Graph

variable {g g' : Graph} {a b k : Key} {r : Relation} {t u n : Nat} {loc : Location} {l : List Key}

/-- A graph with one more label, behind the last event of a task. -/
structure Blocks (g g' : Graph) (t n : Nat) : Prop where
  order : g'.order = g.order
  chains : g'.chains = g.chains
  waiting : g'.waiting = g.waiting
  event : ∃ e : Event, e.kind = .block ∧ ∀ k, g'.event? k =
    if k = .place t n then some e else g.event? k
  edges : ∀ r a b,
    (g'.In r a b ↔ g.In r a b ∨ r = .programOrder ∧ a = .prior t n ∧ b = .place t n) ∧
    (g'.Out r a b ↔ g.Out r a b ∨ r = .programOrder ∧ a = .prior t n ∧ b = .place t n)
  clock : ∀ k, k ≠ .place t n → g'.clockOf k = g.clockOf k
  label : g'.clockOf (.place t n) = ((g.clockOf (.prior t n)).successor t).merge
    (g.clockOf (.prior t n))
  taskKeys : ∀ u : Nat, g'.taskKeys u = if u = t then places t (n + 1) else g.taskKeys u
  tidy : g'.Tidy

/-- What a label behind the last event of a task makes of a graph. -/
theorem blocks_of (ht : g.Tidy) (hnew : ¬g.Has (.place t n)) (hbefore : g.Has (.prior t n))
    (hkeys : g.taskKeys t = places t n) : Blocks g (g.block t) t n := by
  -- the task gets room if it has none, then its label, which is linked to the event before it
  obtain ⟨m, hm⟩ : ∃ m, m = Node.new
      { Event.new t .block .none with key := ⟨t, ((g.ensureTask t).taskKeys t).length⟩ }
      (((g.ensureTask t).clockOf ((g.ensureTask t).lastOf t)).successor (t : Int).toNat) := ⟨_, rfl⟩
  have hkeys₀ : (g.ensureTask t).taskKeys t = places t n := by rw [taskKeys_ensureTask, hkeys]
  have hmkey : m.key = .place t n := by
    rw [hm, hkeys₀, length_places]
    rfl
  have hlast : (g.ensureTask t).lastOf t = .prior t n := lastOf_eq hkeys₀
  obtain ⟨g₁, hg₁⟩ : ∃ g₁ : Graph, g₁ = { g.ensureTask t with
    nodes := g.nodes ++ [m]
    tasks := (g.ensureTask t).tasks.modify t fun ks => ks ++ [.place t n] } := ⟨_, rfl⟩
  have hblock : g.block t = g₁.link (.prior t n) (.place t n) .programOrder := by
    unfold Graph.block appendToTask
    dsimp only
    rw [← hm]
    have htoNat : m.key.task.toNat = t := by
      rw [hmkey]
      rfl
    rw [htoNat, hmkey, hg₁]
    show Graph.link _ ((g.ensureTask t).lastOf t) _ _ = _
    rw [hlast]
    rfl
  have hputs : Puts g g₁ m := by
    refine ⟨by rw [hg₁], ?_, by rw [hm]; rfl, by rw [hm]; rfl⟩
    rw [hmkey]
    exact hnew
  have hhas : g₁.Has (.place t n) := hmkey ▸ hputs.has_self
  have hprior : g₁.Has (.prior t n) := hputs.has hbefore
  have htask : ∀ u : Nat, g₁.taskKeys u = if u = t then places t (n + 1) else g.taskKeys u := by
    intro u
    have hmodify := taskKeys_modify (g.ensureTask t) u (by simpa using length_ensureTask g t)
      fun ks => ks ++ [.place t n]
    have heq : g₁.taskKeys u = ({ g.ensureTask t with
        tasks := (g.ensureTask t).tasks.modify t fun ks => ks ++ [.place t n] } :
          Graph).taskKeys u := by
      rw [hg₁]
      rfl
    rw [heq, hmodify, taskKeys_ensureTask]
    split
    · rename_i hu
      rw [hu, hkeys, places_succ]
    · rfl
  have hne : Key.prior t n ≠ .place t n := fun heq => hnew (heq ▸ hbefore)
  rw [hblock]
  exact
    { order := by
        rw [link_order, hg₁]
        rfl
      chains := by
        rw [link_chains, hg₁]
        rfl
      waiting := by
        rw [link_waiting, hg₁]
        rfl
      event := ⟨m.event, by rw [hm]; rfl, fun k => by rw [event?_link, hputs.event?, hmkey]⟩
      edges :=
        fun r a b => ⟨by rw [in_link hhas, hputs.in_iff], by rw [out_link hprior, hputs.out_iff]⟩
      clock := fun k hk => by
        rw [clockOf_link hhas, if_neg fun hk' => hk hk'.1, hputs.clockOf,
          if_neg (by rw [hmkey]; exact hk)]
      label := by
        have hclock : m.clock = (g.clockOf (.prior t n)).successor t := by
          rw [hm]
          show (Graph.clockOf _ ((g.ensureTask t).lastOf t)).successor _ = _
          rw [hlast]
          rfl
        rw [clockOf_link hhas, if_pos ⟨rfl, rfl⟩, hputs.clockOf, hputs.clockOf, hmkey, if_pos rfl,
          if_neg hne, hclock]
      taskKeys := fun u => by
        rw [Graph.taskKeys, link_tasks]
        exact htask u
      tidy := (hputs.tidy ht).link hprior hhas }

/-- What blocking a task makes of a graph. -/
theorem Shaped.blocks (h : g.Shaped) (hn : g.Fills t n) (hkeys : g.taskKeys t = places t n) :
    Blocks g (g.block t) t n :=
  blocks_of h.tidy (h.not_has hn hkeys) (h.has (h.prior_mem hn)) hkeys

namespace Blocks

/-- Which nodes are labels afterwards. -/
theorem isLabel_iff (hb : Blocks g g' t n) :
    g'.isLabel k = true ↔ k = .place t n ∨ g.isLabel k = true := by
  obtain ⟨e, hblock, hevent⟩ := hb.event
  rw [isLabel_iff_event?, isLabel_iff_event?, hevent]
  by_cases hk : k = .place t n
  · rw [if_pos hk]
    exact iff_of_true ⟨e, rfl, hblock⟩ (Or.inl hk)
  · rw [if_neg hk]
    exact (or_iff_right hk).symm

/-- The graph stays shaped. -/
theorem shaped (hb : Blocks g g' t n) (h : g.Shaped) (hn : g.Fills t n)
    (hkeys : g.taskKeys t = places t n) :
    g'.Shaped := by
  obtain ⟨e, hblock, hevent⟩ := hb.event
  have hnot : Key.place t n ∉ g.order := fun hk => hn.ne_of_mem hk rfl
  have hlabel : ∀ {k}, g'.isLabel k = true ↔ k = .place t n ∨ g.isLabel k = true := hb.isLabel_iff
  have hsame : ∀ {k}, k ∈ g.order → g'.event? k = g.event? k := by
    intro k hk
    rw [hevent, if_neg (hn.ne_of_mem hk)]
  exact
    { tidy := hb.tidy
      nodup := hb.order ▸ h.nodup
      first := hb.order ▸ h.first
      has := by
        intro k hk
        have hk := hb.order ▸ hk
        rw [has_iff_event?, hsame hk, ← has_iff_event?]
        exact h.has hk
      mem_iff := by
        intro k e' he'
        rw [hb.order]
        rw [hevent] at he'
        split at he'
        · rename_i hk
          cases he'
          exact iff_of_false (hk ▸ hnot) fun hne => hne hblock
        · exact h.mem_iff he'
      key := hb.order ▸ h.key
      tasks := by
        intro u
        unfold Fills
        rw [hb.order, hb.taskKeys]
        by_cases hu : u = t
        · subst hu
          exact ⟨n, hn, Or.inr ⟨if_pos rfl, hlabel.mpr (Or.inl rfl)⟩⟩
        · obtain ⟨m, hm, htasks⟩ := h.tasks u
          rw [if_neg hu]
          exact ⟨m, hm, htasks.imp_right fun hlab => ⟨hlab.1, hlabel.mpr (Or.inr hlab.2)⟩⟩
      label := by
        intro k hk
        rcases hlabel.mp hk with rfl | hk
        · exact ⟨t, n, rfl, by rw [hb.taskKeys, if_pos rfl]⟩
        · obtain ⟨u, m, rfl, hu⟩ := h.label hk
          refine ⟨u, m, rfl, ?_⟩
          rw [hb.taskKeys, if_neg, hu]
          rintro rfl
          rw [hu] at hkeys
          have hlen := congrArg List.length hkeys
          rw [length_places, length_places] at hlen
          rw [h.isLabel_of_mem ((hn m).mpr (by omega))] at hk
          cases hk
      label_cause := by
        intro r a k hk hin
        rcases ((hb.edges r a k).1).mp hin with hin | ⟨rfl, -, -⟩
        · rcases hlabel.mp hk with rfl | hk
          · exact absurd (has_of_in hin) (h.not_has hn hkeys)
          · exact h.label_cause hk hin
        · rfl
      programOrder := by
        intro a u i hin
        rcases ((hb.edges ..).1).mp hin with hin | ⟨-, rfl, heq⟩
        · exact h.programOrder hin
        · obtain ⟨rfl, rfl⟩ := Key.place_inj.mp heq
          rfl
      no_cause := by
        intro r a hin
        rcases ((hb.edges ..).1).mp hin with hin | ⟨-, -, heq⟩
        · exact h.no_cause hin
        · exact absurd heq (Key.init_ne_place t n) }

/-- The events stay what they are. -/
theorem resembles (hb : Blocks g g' t n) (hn : g.Fills t n) : Resembles g g' := by
  obtain ⟨e, -, hevent⟩ := hb.event
  refine ⟨hb.order, hb.chains, fun k hk => face_congr (by rw [hevent, if_neg (hn.ne_of_mem hk)]),
    fun {r a b} hk => ?_,
    fun k hk => hb.clock k (hn.ne_of_mem hk)⟩
  rw [(hb.edges r a b).1]
  exact or_iff_left fun heq => hn.ne_of_mem hk heq.2.2

end Blocks

/-! ### Graphs with other labels -/

/-- The same events with the same edges and clocks; labels and waiting tasks may be others. -/
structure Relabels (g g' : Graph) : Prop where
  resembles : Resembles g g'
  event : ∀ k ∈ g.order, g'.event? k = g.event? k
  wired : g.Wired → g'.Wired

namespace Relabels

theorem refl (g : Graph) : Relabels g g := ⟨.refl g, fun _ _ => rfl, id⟩

theorem trans {g'' : Graph} (h : Relabels g g') (h' : Relabels g' g'') : Relabels g g'' :=
  ⟨h.resembles.trans h'.resembles,
    fun k hk => (h'.event k (h.resembles.order ▸ hk)).trans (h.event k hk),
      fun hg => h'.wired (h.wired hg)⟩

/-- Changes outside the table, the total order and the tasks. -/
theorem of_nodes (hnodes : g'.nodes = g.nodes) (horder : g'.order = g.order)
    (hchains : g'.chains = g.chains) (hshaped : g.Shaped → g'.Shaped) : Relabels g g' := by
  have hr : Resembles g g' := ⟨horder, hchains, fun k _ => face_congr (event?_of_nodes hnodes k),
    fun _ => in_of_nodes hnodes, fun k _ => clockOf_of_nodes hnodes k⟩
  have hlabel : ∀ k, g'.isLabel k = g.isLabel k := by
    intro k
    unfold isLabel kindOf?
    rw [find?_of_nodes hnodes]
  refine ⟨hr, fun k _ => event?_of_nodes hnodes k, fun hg => ?_⟩
  refine hr.wired hg (hshaped hg.toShaped) (fun r a b hin => ?_) (fun hlab => ?_) fun hlab hin => ?_
  · exact (out_of_nodes hnodes).mpr (hg.mirrored r a b ((in_of_nodes hnodes).mp hin))
  · rw [hlabel] at hlab
    obtain ⟨e, he, -⟩ := isLabel_iff_event?.mp hlab
    exact (in_of_nodes hnodes).mpr (hg.linked (has_iff_event?.mpr (by rw [he]; rfl)))
  · rw [hlabel] at hlab
    exact hg.label_end hlab ((in_of_nodes hnodes).mp hin)

theorem setWaiting (g : Graph) (loc : Location) (ts : List Int) :
    Relabels g (g.setWaiting loc ts) :=
  of_nodes rfl rfl rfl fun h => h.setWaiting loc ts

theorem ensureTask (g : Graph) (t : Int) : Relabels g (g.ensureTask t) :=
  of_nodes rfl rfl rfl fun h => h.ensureTask t

/-- A task that is not blocked is blocked. -/
theorem block (h : g.Shaped) (hn : g.Fills t n) (hkeys : g.taskKeys t = places t n) :
    Relabels g (g.block t) := by
  have hb := h.blocks hn hkeys
  have hr := hb.resembles hn
  obtain ⟨e, hblock, hevent⟩ := hb.event
  have hlabel : ∀ {k}, (g.block t).isLabel k = true ↔ k = .place t n ∨ g.isLabel k = true :=
    hb.isLabel_iff
  refine ⟨hr, fun k hk => ?_, fun hg => ?_⟩
  · rw [hevent, if_neg (hn.ne_of_mem hk)]
  · refine hr.wired hg (hb.shaped h hn hkeys) (fun r a b hin => ?_) (fun {u i} hlab => ?_)
      fun {r a b} hlab hin => ?_
    · exact ((hb.edges r a b).2).mpr (((hb.edges r a b).1.mp hin).imp_left (hg.mirrored r a b))
    · rw [(hb.edges ..).1]
      rcases hlabel.mp hlab with heq | hlab
      · obtain ⟨rfl, rfl⟩ := Key.place_inj.mp heq
        exact Or.inr ⟨rfl, rfl, rfl⟩
      · obtain ⟨e, he, -⟩ := isLabel_iff_event?.mp hlab
        exact Or.inl (hg.linked (has_iff_event?.mpr (by rw [he]; rfl)))
    · rcases ((hb.edges r a b).1).mp hin with hin | ⟨-, rfl, -⟩
      · rcases hlabel.mp hlab with rfl | hlab
        · exact h.not_has hn hkeys (has_of_out (hg.mirrored _ _ _ hin))
        · exact hg.label_end hlab hin
      · have hprior := h.prior_mem hn
        rcases hlabel.mp hlab with heq | hlab
        · exact hn.ne_of_mem hprior heq
        · rw [h.isLabel_of_mem hprior] at hlab
          cases hlab

end Relabels

/-! ### Taking a label off -/

/-- A graph in which a task is without its last node, which is still there. -/
def shorten (g : Graph) (t : Nat) : Graph := { g with tasks := g.tasks.modify t List.dropLast }

/-- A graph without the node of a key. -/
def discard (g : Graph) (k : Key) : Graph :=
  { g with nodes := g.nodes.filter fun m => m.key != k }

theorem find?_discard : (g.discard k).find? a = if a = k then none else g.find? a := by
  have hfilter := find?_filter_key (fun x => x != k) g.nodes a
  unfold find? discard
  rw [hfilter]
  by_cases ha : a = k
  · simp [ha]
  · simp [ha]

theorem event?_discard : (g.discard k).event? a = if a = k then none else g.event? a := by
  unfold event?
  rw [find?_discard]
  split <;> rfl

theorem clockOf_discard (hne : a ≠ k) : (g.discard k).clockOf a = g.clockOf a := by
  unfold clockOf
  rw [find?_discard, if_neg hne]

/-- A node goes with the edges that it knows to lead to it. -/
theorem in_discard : (g.discard k).In r a b ↔ g.In r a b ∧ b ≠ k := by
  unfold In
  rw [find?_discard]
  by_cases hb : b = k
  · simp [hb]
  · simp [hb]

theorem out_discard : (g.discard k).Out r a b ↔ g.Out r a b ∧ a ≠ k := by
  unfold Out
  rw [find?_discard]
  by_cases ha : a = k
  · simp [ha]
  · simp [ha]

/-- A node that nothing leads to can go. -/
theorem Tidy.discard (h : g.Tidy) (hno : ∀ {r a}, ¬g.In r a k) : (g.discard k).Tidy where
  keys := h.keys.sublist (List.filter_sublist.map _)
  known := by
    intro r a b ho
    have hin := h.known (out_discard.mp ho).1
    exact in_discard.mpr ⟨hin, fun hb => hno (hb ▸ hin)⟩
  pred := by
    intro a m hm
    rw [find?_discard] at hm
    split at hm
    · cases hm
    · exact h.pred hm
  succ := by
    intro a m hm
    rw [find?_discard] at hm
    split at hm
    · cases hm
    · exact h.succ hm

/-- A graph without the label of a task. -/
structure Unblocks (g g' : Graph) (t n : Nat) : Prop where
  order : g'.order = g.order
  chains : g'.chains = g.chains
  waiting : g'.waiting = g.waiting
  event : ∀ k, g'.event? k = if k = .place t n then none else g.event? k
  edges : ∀ r a b, (g'.In r a b ↔ g.In r a b ∧ b ≠ .place t n) ∧
    (g'.Out r a b ↔ g.Out r a b ∧ a ≠ .place t n ∧ b ≠ .place t n)
  clock : ∀ k, k ≠ .place t n → g'.clockOf k = g.clockOf k
  taskKeys : ∀ u : Nat, g'.taskKeys u = if u = t then places t n else g.taskKeys u
  tidy : g'.Tidy

section Label

variable (hkeys : g.taskKeys t = places t (n + 1))
include hkeys

theorem taskKeys_shorten (u : Nat) :
    (g.shorten t).taskKeys u = if u = t then places t n else g.taskKeys u := by
  have ht : t < g.tasks.length := length_of_taskKeys (by rw [hkeys, places_succ]; simp)
  rw [shorten, taskKeys_modify g u ht List.dropLast]
  split
  · rename_i hu
    rw [hu, hkeys, places_succ, List.dropLast_concat]
  · rfl

/-- The task gets shorter first, then the edge to its label goes, then the label. -/
theorem dropLabel_eq (hnot : Key.place t n ∉ g.order) : g.dropLabel t =
    ((g.shorten t).unlink (.prior t n) (.place t n) .programOrder).discard (.place t n) := by
  have hlast : g.lastOf t = .place t n := lastOf_eq hkeys
  have hprior : (g.shorten t).lastOf t = .prior t n :=
    lastOf_eq (by rw [taskKeys_shorten hkeys, if_pos rfl])
  unfold Graph.dropLabel
  dsimp only
  rw [hlast, Int.toNat_natCast, ← shorten, hprior, unlink_order]
  exact if_neg (by simpa [shorten] using hnot)

/-- What taking the label off a task makes of a graph in which nothing but program order leads to
the label. -/
theorem unblocks_of (htidy : g.Tidy) (hnot : Key.place t n ∉ g.order)
    (hcause : ∀ {r a}, g.In r a (.place t n) → r = .programOrder ∧ a = .prior t n) :
    Unblocks g (g.dropLabel t) t n := by
  have hnodes : (g.shorten t).nodes = g.nodes := rfl
  have htidy' := (tidy_of_nodes hnodes htidy).unlink (a := .prior t n) (b := .place t n)
    (r := .programOrder)
  rw [dropLabel_eq hkeys hnot]
  exact
    { order := rfl
      chains := rfl
      waiting := rfl
      event := fun k => by rw [event?_discard, event?_unlink, event?_of_nodes hnodes]
      edges := fun r a b => by
        rw [in_discard, out_discard, in_unlink, out_unlink, in_of_nodes hnodes, out_of_nodes hnodes]
        refine ⟨and_congr_left fun hb => and_iff_left fun heq => hb heq.2.2, ?_⟩
        -- the only edge to the label is the one that has gone
        rw [and_assoc, and_comm (b := a ≠ .place t n)]
        refine and_congr_right fun ho => and_congr_right fun _ => not_congr ⟨(·.2.2), fun hb => ?_⟩
        obtain ⟨hr, ha⟩ := hcause (hb ▸ htidy.known ho)
        exact ⟨hr, ha, hb⟩
      clock := fun k hk => by rw [clockOf_discard hk, clockOf_unlink, clockOf_of_nodes hnodes]
      taskKeys := taskKeys_shorten hkeys
      tidy := htidy'.discard fun {r a} hin => by
        obtain ⟨hin, hnot⟩ := in_unlink.mp hin
        obtain ⟨hr, ha⟩ := hcause ((in_of_nodes hnodes).mp hin)
        exact hnot ⟨hr, ha, rfl⟩ }

end Label

/-- Nothing but program order leads to a label of a shaped graph. -/
theorem Shaped.unblocks (h : g.Shaped) (hn : g.Fills t n)
    (hkeys : g.taskKeys t = places t (n + 1)) : Unblocks g (g.dropLabel t) t n := by
  have hlabel : g.isLabel (.place t n) = true := by
    obtain ⟨m, hm, htask⟩ := h.tasks t
    obtain rfl := hn.unique hm
    refine (htask.resolve_left fun heq => ?_).2
    rw [hkeys] at heq
    simpa using congrArg List.length heq
  refine unblocks_of hkeys h.tidy (fun hk => hn.ne_of_mem hk rfl) fun {r a} hin => ?_
  obtain rfl := h.label_cause hlabel hin
  exact ⟨rfl, h.programOrder hin⟩

namespace Unblocks

variable (hu : Unblocks g g' t n) (hn : g.Fills t n)
include hu

theorem isLabel_iff : g'.isLabel k = true ↔ k ≠ .place t n ∧ g.isLabel k = true := by
  rw [isLabel_iff_event?, isLabel_iff_event?, hu.event]
  by_cases hk : k = .place t n
  · simp [hk]
  · simp [hk]

include hn

theorem resembles : Resembles g g' := by
  refine ⟨hu.order, hu.chains, fun k hk => ?_, fun {r a b} hk => ?_,
    fun k hk => hu.clock k (hn.ne_of_mem hk)⟩
  · exact face_congr (by rw [hu.event, if_neg (hn.ne_of_mem hk)])
  · rw [(hu.edges r a b).1]
    exact and_iff_left (hn.ne_of_mem hk)

theorem shaped (h : g.Shaped) : g'.Shaped := by
  have hsame : ∀ {k}, k ∈ g.order → g'.event? k = g.event? k := by
    intro k hk
    rw [hu.event, if_neg (hn.ne_of_mem hk)]
  exact
    { tidy := hu.tidy
      nodup := hu.order ▸ h.nodup
      first := hu.order ▸ h.first
      has := by
        intro k hk
        have hk := hu.order ▸ hk
        rw [has_iff_event?, hsame hk, ← has_iff_event?]
        exact h.has hk
      mem_iff := by
        intro k e he
        rw [hu.order]
        rw [hu.event] at he
        split at he
        · cases he
        · exact h.mem_iff he
      key := hu.order ▸ h.key
      tasks := by
        intro u
        unfold Fills
        rw [hu.order, hu.taskKeys]
        by_cases hut : u = t
        · subst hut
          exact ⟨n, hn, Or.inl (if_pos rfl)⟩
        · obtain ⟨m, hm, htasks⟩ := h.tasks u
          rw [if_neg hut]
          refine ⟨m, hm, htasks.imp_right fun hlab => ⟨hlab.1, hu.isLabel_iff.mpr ⟨?_, hlab.2⟩⟩⟩
          rw [ne_eq, Key.place_inj]
          exact fun heq => hut heq.1
      label := by
        intro k hk
        obtain ⟨hne, hk⟩ := hu.isLabel_iff.mp hk
        obtain ⟨u, m, rfl, hkeys⟩ := h.label hk
        refine ⟨u, m, rfl, ?_⟩
        rw [hu.taskKeys, if_neg, hkeys]
        rintro rfl
        -- a task has no other label than the one taken off
        obtain ⟨p, hp, htasks⟩ := h.tasks u
        obtain rfl := hn.unique hp
        rcases htasks with heq | ⟨heq, -⟩
        · rw [hkeys] at heq
          have hlen := congrArg List.length heq
          rw [length_places, length_places] at hlen
          rw [h.isLabel_of_mem ((hn m).mpr (by omega))] at hk
          cases hk
        · rw [hkeys] at heq
          have hlen := congrArg List.length heq
          rw [length_places, length_places] at hlen
          exact hne (by rw [Nat.succ.inj hlen])
      label_cause := fun hk hin => h.label_cause (hu.isLabel_iff.mp hk).2 ((hu.edges ..).1.mp hin).1
      programOrder := fun hin => h.programOrder ((hu.edges ..).1.mp hin).1
      no_cause := fun hin => h.no_cause ((hu.edges ..).1.mp hin).1 }

end Unblocks

/-- The label of a task is taken off. -/
theorem Relabels.dropLabel (h : g.Wired) (hn : g.Fills t n)
    (hkeys : g.taskKeys t = places t (n + 1)) : Relabels g (g.dropLabel t) := by
  have hu := h.toShaped.unblocks hn hkeys
  have hr := hu.resembles hn
  refine ⟨hr, fun k hk => by rw [hu.event, if_neg (hn.ne_of_mem hk)], fun hg => ?_⟩
  refine hr.wired hg (hu.shaped hn h.toShaped) (fun r a b hin => ?_) (fun {u i} hlab => ?_)
    fun {r a b} hlab hin => ?_
  · obtain ⟨hin, hne⟩ := (hu.edges r a b).1.mp hin
    exact (hu.edges r a b).2.mpr ⟨hg.mirrored r a b hin, hn.ne_of_mem (hg.source_mem hin), hne⟩
  · obtain ⟨hne, hlab⟩ := hu.isLabel_iff.mp hlab
    obtain ⟨e, he, -⟩ := isLabel_iff_event?.mp hlab
    exact (hu.edges ..).1.mpr ⟨hg.linked (has_iff_event?.mpr (by rw [he]; rfl)), hne⟩
  · exact hg.label_end (hu.isLabel_iff.mp hlab).2 ((hu.edges ..).1.mp hin).1

/-- A copy has the same events. -/
theorem Shaped.resembles_copy (h : g.Shaped) : Resembles g g.copy where
  order := rfl
  chains := rfl
  face := fun _ hk => face_congr (by rw [h.event?_copy, if_pos hk])
  edge := fun hb => h.in_copy.trans (and_iff_right hb)
  clock := fun _ hk => h.clockOf_copy hk

/-! ### Tasks that wait for a lock -/

theorem isBlocked_of_neg {task : Int} (h : task < 0) : g.isBlocked task = false := by
  unfold isBlocked hasNodes
  rw [taskKeys_of_neg h]
  rfl

/-- A graph in which just some tasks are blocked. -/
theorem isBlocked_block (h : g.Wired) (hn : g.Fills t n)
    (hkeys : g.taskKeys t = places t n) (u : Nat) :
    (g.block t).isBlocked u = true ↔ g.isBlocked u = true ∨ u = t := by
  have hb := h.blocks hn hkeys
  obtain ⟨m, hm, -⟩ := h.tasks u
  have hm' : (g.block t).Fills u m := by
    unfold Fills
    rw [hb.order]
    exact hm
  rw [(hb.shaped h.toShaped hn hkeys).isBlocked_iff hm', h.isBlocked_iff hm, hb.taskKeys]
  by_cases hu : u = t
  · subst hu
    rw [if_pos rfl, hn.unique hm]
    exact iff_of_true rfl (Or.inr rfl)
  · rw [if_neg hu]
    exact (or_iff_left hu).symm

/-- A task whose label is taken off is not blocked any more. -/
theorem isBlocked_dropLabel (h : g.Wired) (hn : g.Fills t n)
    (hkeys : g.taskKeys t = places t (n + 1)) (u : Nat) :
    (g.dropLabel t).isBlocked u = true ↔ g.isBlocked u = true ∧ u ≠ t := by
  have hd := h.toShaped.unblocks hn hkeys
  obtain ⟨m, hm, -⟩ := h.tasks u
  have hm' : (g.dropLabel t).Fills u m := by
    unfold Fills
    rw [hd.order]
    exact hm
  rw [(hd.shaped hn h.toShaped).isBlocked_iff hm', h.isBlocked_iff hm, hd.taskKeys]
  by_cases hu : u = t
  · subst hu
    rw [if_pos rfl, hn.unique hm]
    refine iff_of_false (fun heq => ?_) fun heq => heq.2 rfl
    simpa using congrArg List.length heq
  · rw [if_neg hu]
    exact (and_iff_left hu).symm

/-- The graph in which some more tasks are blocked. -/
def blockAll (g : Graph) (ts : List Int) : Graph :=
  ts.foldl (fun g t => if g.isBlocked t then g else g.block t) g

/-- The graph in which some tasks are not blocked any more. -/
def unblockAll (g : Graph) (ts : List Int) : Graph :=
  ts.foldl (fun g t => if g.isBlocked t then g.dropLabel t else g) g

/-- Tasks are blocked one after the other. -/
theorem Wired.blockAll (h : g.Wired) (ts : List Int) (hts : ∀ t ∈ ts, 0 ≤ t) :
    Relabels g (g.blockAll ts) ∧ (g.blockAll ts).waiting = g.waiting ∧
      ∀ u : Nat, (g.blockAll ts).isBlocked u = true ↔ g.isBlocked u = true ∨ (u : Int) ∈ ts := by
  induction ts generalizing g with
  | nil => exact ⟨.refl g, rfl, fun u => by simp [Graph.blockAll]⟩
  | cons task ts ih =>
    obtain ⟨t, rfl⟩ := Int.eq_ofNat_of_zero_le (hts task List.mem_cons_self)
    have hmore : ∀ t ∈ ts, 0 ≤ t := fun t ht => hts t (List.mem_cons_of_mem _ ht)
    have hcons : g.blockAll (t :: ts) = (if g.isBlocked t then g else g.block t).blockAll ts := rfl
    rw [hcons]
    split
    · rename_i hblocked
      obtain ⟨hr, hw, hb⟩ := ih h hmore
      refine ⟨hr, hw, fun u => ?_⟩
      rw [hb, List.mem_cons]
      constructor
      · exact Or.imp_right Or.inr
      · rintro (hu | hu | hu)
        · exact Or.inl hu
        · exact Or.inl (by rw [hu]; exact hblocked)
        · exact Or.inr hu
    · rename_i hblocked
      obtain ⟨n, hn, -⟩ := h.tasks t
      have hkeys := h.taskKeys_of_not_blocked hn (by simpa using hblocked)
      have hblock := Relabels.block h.toShaped hn hkeys
      obtain ⟨hr, hw, hb⟩ := ih (hblock.wired h) hmore
      refine ⟨hblock.trans hr, hw.trans (h.blocks hn hkeys).waiting, fun u => ?_⟩
      rw [hb, isBlocked_block h hn hkeys, List.mem_cons, or_assoc]
      simp

/-- Tasks are set free one after the other. -/
theorem Wired.unblockAll (h : g.Wired) (ts : List Int) :
    Relabels g (g.unblockAll ts) ∧ (g.unblockAll ts).waiting = g.waiting ∧
      ∀ u : Nat, (g.unblockAll ts).isBlocked u = true ↔ g.isBlocked u = true ∧ (u : Int) ∉ ts := by
  induction ts generalizing g with
  | nil => exact ⟨.refl g, rfl, fun u => by simp [Graph.unblockAll]⟩
  | cons task ts ih =>
    have hcons : g.unblockAll (task :: ts) =
      (if g.isBlocked task then g.dropLabel task else g).unblockAll ts := rfl
    rw [hcons]
    split
    · rename_i hblocked
      obtain ⟨t, rfl⟩ : ∃ t : Nat, task = t := by
        refine Int.eq_ofNat_of_zero_le (Int.not_lt.mp fun hneg => ?_)
        rw [isBlocked_of_neg hneg] at hblocked
        cases hblocked
      obtain ⟨n, hn, -⟩ := h.tasks t
      have hkeys := (h.isBlocked_iff hn).mp hblocked
      have hdrop := Relabels.dropLabel h hn hkeys
      obtain ⟨hr, hw, hb⟩ := ih (hdrop.wired h)
      refine ⟨hdrop.trans hr, hw.trans (h.toShaped.unblocks hn hkeys).waiting, fun u => ?_⟩
      rw [hb, isBlocked_dropLabel h hn hkeys, List.mem_cons, not_or, and_assoc]
      simp
    · rename_i hblocked
      obtain ⟨hr, hw, hb⟩ := ih h
      refine ⟨hr, hw, fun u => ?_⟩
      rw [hb, List.mem_cons, not_or]
      refine and_congr_right fun hu => (and_iff_right ?_).symm
      rintro rfl
      exact hblocked hu

theorem waitingFor_setWaiting (g : Graph) (loc loc' : Location) (ts : List Int) :
    (g.setWaiting loc ts).waitingFor loc' = if loc' = loc then ts else g.waitingFor loc' := by
  have hothers : ∀ ws : List (Location × List Int),
      (ws.filter fun w => w.1 != loc).lookup loc' =
        if loc' = loc then none else ws.lookup loc' := by
    intro ws
    induction ws with
    | nil => simp
    | cons w ws ih =>
      obtain ⟨l, us⟩ := w
      by_cases hl : l = loc
      · rw [List.filter_cons_of_neg (by simp [hl]), ih, List.lookup_cons]
        by_cases hloc : loc' = loc
        · rw [if_pos hloc, if_pos hloc]
        · rw [if_neg hloc, if_neg hloc, hl, beq_eq_false_iff_ne.mpr hloc]
      · rw [List.filter_cons_of_pos (by simpa using hl), List.lookup_cons, List.lookup_cons, ih]
        by_cases hloc : loc' = loc
        · rw [if_pos hloc, if_pos hloc, hloc, beq_eq_false_iff_ne.mpr (Ne.symm hl)]
        · rw [if_neg hloc, if_neg hloc]
  unfold waitingFor Graph.setWaiting
  dsimp only
  split
  · rename_i hempty
    rw [hothers]
    split
    · exact (List.isEmpty_iff.mp hempty).symm
    · rfl
  · rw [List.lookup_append, hothers]
    by_cases hloc : loc' = loc
    · subst hloc
      simp
    · simp [hloc, List.lookup_cons, beq_eq_false_iff_ne.mpr hloc]

/-- **A task that finds a lock held** is blocked and waits for the lock. -/
theorem Wired.blockForLock (h : g.Wired) (t : Nat) (loc : Location) :
    Relabels g (g.blockForLock t loc) ∧
      (∀ u : Nat, (g.blockForLock t loc).isBlocked u = true ↔ g.isBlocked u = true ∨ u = t) ∧
      ∀ loc', ∀ task : Int, task ∈ (g.blockForLock t loc).waitingFor loc' ↔
        task ∈ g.waitingFor loc' ∨ loc' = loc ∧ task = t := by
  obtain ⟨hr, hw, hb⟩ := h.blockAll [(t : Int)] (by simp)
  have hone : g.blockAll [(t : Int)] = if g.isBlocked t then g else g.block t := rfl
  rw [hone] at hr hw hb
  unfold Graph.blockForLock
  dsimp only
  generalize (if g.isBlocked t then g else g.block t) = g₁ at hr hw hb
  have hfor : ∀ loc', g₁.waitingFor loc' = g.waitingFor loc' := fun loc' => by
    rw [waitingFor, hw, waitingFor]
  by_cases hin : (t : Int) ∈ g₁.waitingFor loc
  · rw [if_pos (by simpa using hin)]
    refine ⟨hr, fun u => by rw [hb]; simp, fun loc' task => ?_⟩
    rw [hfor]
    refine (or_iff_left_of_imp ?_).symm
    rintro ⟨rfl, rfl⟩
    exact hfor loc' ▸ hin
  · rw [if_neg (by simpa using hin)]
    refine ⟨hr.trans (.setWaiting ..), fun u => ?_, fun loc' task => ?_⟩
    · show g₁.isBlocked u = true ↔ _
      rw [hb]
      simp
    · rw [waitingFor_setWaiting]
      by_cases hloc : loc' = loc
      · subst hloc
        simp [hfor]
      · simp [hloc, hfor]

/-- **A release** lets the tasks that wait for the lock go on. They still wait for it. -/
theorem Wired.unblockForLock (h : g.Wired) (loc : Location) :
    Relabels g (g.unblockForLock loc) ∧ (g.unblockForLock loc).waiting = g.waiting ∧
      ∀ u : Nat, (g.unblockForLock loc).isBlocked u = true ↔
        g.isBlocked u = true ∧ (u : Int) ∉ g.waitingFor loc :=
  h.unblockAll (g.waitingFor loc)

/-- **A task that gets a lock** does not wait for it any more, and all others that do are
blocked. -/
theorem Wired.acquireLock (h : g.Wired) (t : Nat) (loc : Location)
    (hts : ∀ task ∈ g.waitingFor loc, 0 ≤ task) : Relabels g (g.acquireLock loc t) ∧
      (∀ u : Nat, (g.acquireLock loc t).isBlocked u = true ↔
        g.isBlocked u = true ∨ (u : Int) ∈ g.waitingFor loc ∧ u ≠ t) ∧
      ∀ loc', ∀ task : Int, task ∈ (g.acquireLock loc t).waitingFor loc' ↔
        task ∈ g.waitingFor loc' ∧ ¬(loc' = loc ∧ task = t) := by
  unfold Graph.acquireLock
  cases hlook : g.waiting.lookup loc with
  | none =>
    have hnil : g.waitingFor loc = [] := by rw [waitingFor, hlook]; rfl
    refine ⟨.refl g, fun u => by rw [hnil]; simp, fun loc' task => ?_⟩
    refine (and_iff_left_of_imp fun hmem heq => ?_).symm
    rw [heq.1, hnil] at hmem
    cases hmem
  | some ts =>
    have hfor : g.waitingFor loc = ts := by rw [waitingFor, hlook]; rfl
    rw [hfor] at hts
    have hset := Relabels.setWaiting g loc (ts.filter fun task => task != t)
    obtain ⟨hr, hw, hb⟩ := (hset.wired h).blockAll (ts.filter fun task => task != t)
      fun task htask => hts task (List.mem_of_mem_filter htask)
    refine ⟨hset.trans hr, fun u => ?_, fun loc' task => ?_⟩
    · refine (hb u).trans ?_
      show g.isBlocked u = true ∨ _ ↔ _
      rw [hfor, List.mem_filter]
      simp
    · have hsame : ∀ g' : Graph,
          g'.waiting = (g.setWaiting loc (ts.filter fun task => task != t)).waiting →
          g'.waitingFor loc' =
            (g.setWaiting loc (ts.filter fun task => task != t)).waitingFor loc' := by
        intro g' hw
        rw [waitingFor, hw, waitingFor]
      show task ∈ Graph.waitingFor (Graph.blockAll _ _) loc' ↔ _
      rw [hsame _ hw, waitingFor_setWaiting]
      by_cases hloc : loc' = loc
      · subst hloc
        simp [hfor]
      · simp [hloc]

/-! ### The mark of an acquisition that has overtaken another one -/

theorem event?_markFinalLockWrite (g : Graph) (k k' : Key) :
    (g.markFinalLockWrite k).event? k' = (g.event? k').map fun e =>
      if k' = k then e.set Event.finalLockWriteName (.bool true) else e := by
  unfold markFinalLockWrite event?
  rw [find?_modifyNode (by exact fun _ => rfl), Option.map_map, Option.map_map]
  congr 1
  funext m
  dsimp only [Function.comp_apply]
  split <;> rfl

/-- Marking an event changes none of its edges. -/
theorem keepsEdges_mark :
    KeepsEdges fun n : Node =>
      { n with event := n.event.set Event.finalLockWriteName (.bool true) } :=
  ⟨fun _ => rfl, fun _ => rfl, fun _ => rfl⟩

theorem kindOf?_markFinalLockWrite (g : Graph) (k k' : Key) :
    (g.markFinalLockWrite k).kindOf? k' = g.kindOf? k' := by
  rw [kindOf?_eq_map, kindOf?_eq_map, event?_markFinalLockWrite, Option.map_map]
  congr 1
  funext e
  dsimp only [Function.comp_apply]
  split <;> rfl

theorem Resembles.markFinalLockWrite (g : Graph) (k : Key) :
    Resembles g (g.markFinalLockWrite k) where
  order := rfl
  chains := rfl
  face := by
    intro k' _
    have hholds : ∀ e : Event, (e.set Event.finalLockWriteName (.bool true)).holds = e.holds := by
      intro e
      unfold Event.holds Event.set Attributes.bool?
      rw [Dictionary.get?_set_of_ne _ (by decide)]
    have hspawner : ∀ e : Event, (e.set Event.finalLockWriteName (.bool true)).startedBy? =
        e.startedBy? := by
      intro e
      unfold Event.startedBy? Event.set Attributes.task?
      rw [Dictionary.get?_set_of_ne _ (by decide)]
    unfold Graph.face
    rw [event?_markFinalLockWrite, Option.map_map]
    congr 1
    funext e
    dsimp only [Function.comp_apply]
    split
    · rw [faceOf, hholds, hspawner]
      rfl
    · rfl
  edge := fun _ => keepsEdges_mark.in_iff
  clock := by
    intro k' _
    unfold Graph.markFinalLockWrite clockOf
    rw [find?_modifyNode (by exact fun _ => rfl), Option.map_map]
    congr 2
    funext m
    dsimp only [Function.comp_apply]
    split <;> rfl

/-- **The mark changes nothing** but an attribute. -/
theorem Wired.markFinalLockWrite (h : g.Wired) (k : Key) : (g.markFinalLockWrite k).Wired := by
  have hin : ∀ r a b, (g.markFinalLockWrite k).In r a b ↔ g.In r a b :=
    fun r a b => keepsEdges_mark.in_iff
  have hlabel : ∀ k', (g.markFinalLockWrite k).isLabel k' = g.isLabel k' := fun k' => by
    rw [isLabel, kindOf?_markFinalLockWrite, ← isLabel]
  have htidy : (g.markFinalLockWrite k).Tidy := keepsEdges_mark.tidy h.tidy
  have hshaped : (g.markFinalLockWrite k).Shaped :=
    h.toShaped.congr htidy rfl rfl (kindOf?_markFinalLockWrite g k) fun hi =>
      Or.inl ((hin ..).mp hi)
  refine (Resembles.markFinalLockWrite g k).wired h hshaped (fun r a b hi => ?_) (fun hlab => ?_)
    fun hlab hi => ?_
  · exact keepsEdges_mark.out_iff.mpr (h.mirrored r a b ((hin r a b).mp hi))
  · rw [hlabel, isLabel_iff_event?] at hlab
    obtain ⟨e, he, -⟩ := hlab
    exact (hin ..).mpr (h.linked (has_iff_event?.mpr (by rw [he]; rfl)))
  · rw [hlabel] at hlab
    exact h.label_end hlab ((hin ..).mp hi)

end Interleaving.Graph
