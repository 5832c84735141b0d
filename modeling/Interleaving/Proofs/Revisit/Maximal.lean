import Interleaving.Proofs.Graph.Forward
import Interleaving.Proofs.Revisit.Proposal

/-!
# Maximal extensions

A backward revisit is accepted when no event that it takes back, nor the read, speaks against it
(`Interleaving.BackwardRevisit.MaximalAt`). For the read this means that no write behind the one it
sees happens before the new write. The search for reads that could see the new write looks no
further than that, so an accepted read is among them, unless the write that it sees is left out: an
exclusive write counts only when two exclusive reads see it
(`Interleaving.Graph.Writing.mem_potentialReads_iff`).
-/

namespace Interleaving

namespace BackwardRevisit

open Interleaving.Graph

variable {v : BackwardRevisit} {k w read : Key} {n : Node} {loc : Location}
  {l older newer : List Key}

/-- The place of an event in the total order; that of a key without an event is in front of all
others. -/
def placeOf (v : BackwardRevisit) (k : Key) : Int := ((v.graph.indexOf? k).map Int.ofNat).getD (-1)

/-- **An event that is no reason against a proposal**: nothing previous reads from it, the write
that it sees, or is, is previous, and no later write to the location is. -/
structure MaximalAt (v : BackwardRevisit) (n : Node) (place : Int) : Prop where
  unread : n.kind.isWrite = true → ∀ r ∈ n.successors .readsFrom, v.previous place r = false
  newest : ∃ m, v.sourceOf n = .ok m ∧ v.previous place m.key = true ∧
    ∀ u ∈ laterWrites (v.graph.chain (if m.key.isInit then n.location else m.location)) m.key,
      v.previous place u = false

/-- **What the test asks of an event.** -/
theorem maximalAt_of_isMaximalAt (h : v.isMaximalAt k = .ok true) (hn : v.graph.node k = .ok n)
    (hkind : n.kind.isMarker = false) : v.MaximalAt n (v.placeOf k) := by
  unfold isMaximalAt at h
  simp only [hn, bind, Except.bind, pure, Except.pure, hkind, Bool.false_eq_true, if_false] at h
  rw [← placeOf] at h
  split at h
  · cases h
  · rename_i hunread
    cases hm : v.sourceOf n with
    | error cause =>
      rw [hm] at h
      cases h
    | ok m =>
      rw [hm] at h
      dsimp only at h
      split at h
      · cases h
      · rename_i hprevious
        refine ⟨fun hwrite r hr => ?_, m, hm, by simpa using hprevious, fun u hu => ?_⟩
        · rw [hwrite, Bool.true_and, Bool.not_eq_true, List.any_eq_false] at hunread
          simpa using hunread r hr
        · have hlater := Except.ok.inj h
          rw [Bool.not_eq_true', List.any_eq_false] at hlater
          simpa using hlater u hu

theorem isMaximalAt_of_allMaximal {ks : List Key} (h : v.allMaximal ks = .ok true) (hk : k ∈ ks) :
    v.isMaximalAt k = .ok true := by
  induction ks with
  | nil => cases hk
  | cons x ks ih =>
    rw [allMaximal] at h
    cases hx : v.isMaximalAt x with
    | error cause =>
      rw [hx] at h
      cases h
    | ok b =>
      rw [hx] at h
      cases b with
      | false => cases h
      | true =>
        rcases List.mem_cons.mp hk with rfl | hk
        · exact hx
        · exact ih h hk

/-- The test is about all events that are taken back and about the read. -/
theorem isMaximalAt_of_isMaximal (h : v.isMaximal = .ok true) (hk : k ∈ v.removed ∨ k = v.read) :
    v.isMaximalAt k = .ok true := by
  refine isMaximalAt_of_allMaximal h ?_
  rw [List.mem_append, removedKeys, (Key.sort_perm _).mem_iff]
  by_cases hread : v.read ∈ v.removed
  · exact Or.inl (hk.elim id fun heq => heq ▸ hread)
  · exact hk.imp_right fun heq => by simp [hread, heq]

/-- The writes after one in a chain. -/
theorem laterWrites_append_cons (h : k ∉ older) : laterWrites (older ++ k :: newer) k = newer := by
  have hdrop : (older ++ k :: newer).drop (older.length + 1) = newer := by
    rw [show older ++ k :: newer = (older ++ [k]) ++ newer by simp,
      show older.length + 1 = (older ++ [k]).length by simp, List.drop_left]
  rw [laterWrites, findIdx?_append_cons h]
  exact hdrop

/-- What happens before the new write is previous to everything. -/
theorem previous_of_happensBefore {place : Int} (hk : k ∈ v.graph.order) (h : v.graph.Shaped)
    (hbefore : v.graph.happensBefore k v.write = true) : v.previous place k = true := by
  obtain ⟨m, hm⟩ := h.find? hk
  obtain rfl := key_of_find? hm
  unfold previous
  rw [h.node? hk, hm]
  simp [hbefore]

/-- A read sees the only source that there is. -/
theorem sourceOf_of_reads (h : v.graph.Wired) (hread : v.graph.ReadsAt k loc)
    (hn : v.graph.find? k = some n) (hin : v.graph.In .readsFrom w k) :
    ∃ m, v.sourceOf n = .ok m ∧ v.graph.find? w = some m := by
  obtain ⟨u, hu, hchain, hpreds⟩ := h.sources hread hn
  have hkind : n.kind.isRead = true := by
    obtain ⟨e, he, hkind, -⟩ := hread
    rw [event?, hn] at he
    cases he
    exact hkind
  have huw : u = w := by
    have hmem : w ∈ n.predecessors .readsFrom := (mem_predecessors hn).mpr hin
    rw [hpreds, List.mem_singleton] at hmem
    exact hmem.symm
  subst huw
  obtain ⟨m, hm⟩ := h.find? hu
  refine ⟨m, ?_, hm⟩
  unfold sourceOf
  rw [if_pos hkind, hpreds]
  exact h.node hu hm

/-- **An accepted read sees the newest write, or one behind which nothing happens before the new
write.** -/
theorem newer_of_isMaximal (h : v.graph.Wired) (hread : v.graph.ReadsAt v.read loc)
    (hin : v.graph.In .readsFrom k v.read) (hmax : v.isMaximal = .ok true)
    (heq : v.graph.chain loc = older ++ k :: newer) (hloc : loc ≠ .thread) :
    ∀ u ∈ newer, v.graph.happensBefore u v.write = false := by
  have hmem := h.mem_of_readsAt hread
  obtain ⟨n, hn⟩ := h.find? hmem
  obtain ⟨m, hm, hfind⟩ := sourceOf_of_reads h hread hn hin
  obtain ⟨hmarker, rfl⟩ : n.kind.isMarker = false ∧ n.location = loc := by
    obtain ⟨e, he, hkind, heq⟩ := hread
    rw [event?, hn] at he
    cases he
    refine ⟨?_, heq⟩
    revert hkind
    show n.event.kind.isRead = true → n.event.kind.isMarker = false
    generalize n.event.kind = kind
    cases kind <;> decide
  -- the check has compared the source with all later writes of its chain
  have hall :=
    maximalAt_of_isMaximalAt (isMaximalAt_of_isMaximal hmax (Or.inr rfl)) (h.node hmem hn) hmarker
  obtain ⟨m', hm', -, hlater⟩ := hall.newest
  rw [hm] at hm'
  cases hm'
  have hkey := key_of_find? hfind
  have hsite : (if m.key.isInit then n.location else m.location) = n.location := by
    split
    · rfl
    · rename_i hinit
      rcases h.mem_chain hloc (show k ∈ v.graph.chain n.location by rw [heq]; simp) with
        hk | ⟨e, he, -, hsame⟩
      · rw [hkey, hk] at hinit
        exact absurd rfl hinit
      · rw [event?, hfind] at he
        cases he
        exact hsame
  have hnodup := h.nodup_chain hloc
  rw [heq] at hnodup
  have hnot : k ∉ older := fun hmem =>
    (List.nodup_append.mp hnodup).2.2 k hmem k List.mem_cons_self rfl
  rw [hsite, heq, hkey, laterWrites_append_cons hnot] at hlater
  intro u hu
  rw [← Bool.not_eq_true]
  -- a write that happens before the new one would be previous to it
  intro hbefore
  have hmem : u ∈ v.graph.order := by
    rcases h.mem_chain hloc (show u ∈ v.graph.chain n.location by rw [heq]; simp [hu]) with
      rfl | hwrite
    · exact h.init_mem
    · exact h.mem_of_writesTo hwrite
  have hprevious : v.previous (v.placeOf v.read) u = true :=
    previous_of_happensBefore hmem h.toShaped hbefore
  rw [hlater u hu] at hprevious
  cases hprevious

end BackwardRevisit

namespace Graph

variable {g : Graph} {k r s w read : Key} {loc : Location} {l ks rs : List Key}

/-- Clocks say what happens before what. -/
theorem Shaped.happensBefore_eq {a b : Key} (h : g.Shaped) (ha : a ∈ g.order) (hb : b ∈ g.order) :
    g.happensBefore a b = (g.clockOf a).before (g.clockOf b) := by
  obtain ⟨m, hm⟩ := h.find? ha
  obtain ⟨n, hn⟩ := h.find? hb
  rw [happensBefore, clockOf, clockOf, hm, hn]
  rfl

/-- Graphs that resemble each other have the same order of events. -/
theorem Resembles.happensBefore {g' : Graph} {a b : Key} (hr : Resembles g g') (h : g.Shaped)
    (h' : g'.Shaped) (ha : a ∈ g.order) (hb : b ∈ g.order) :
    g'.happensBefore a b = g.happensBefore a b := by
  rw [h'.happensBefore_eq (hr.order ▸ ha) (hr.order ▸ hb), h.happensBefore_eq ha hb, hr.clock a ha,
    hr.clock b hb]

theorem mem_of_mapM_ok {α β ε : Type} {f : α → Except ε β} {xs : List α} {ys : List β}
    (h : xs.mapM f = .ok ys) {y : β} : y ∈ ys ↔ ∃ x ∈ xs, f x = .ok y := by
  induction xs generalizing ys with
  | nil =>
    cases h
    simp
  | cons x xs ih =>
    rw [List.mapM_cons] at h
    cases hx : f x with
    | error cause =>
      rw [hx] at h
      cases h
    | ok y' =>
      rw [hx] at h
      cases hxs : xs.mapM f with
      | error cause =>
        simp only [bind, Except.bind, hxs] at h
        cases h
      | ok ys' =>
        simp only [bind, Except.bind, hxs, pure, Except.pure] at h
        cases h
        rw [List.mem_cons, ih hxs]
        simp [hx, eq_comm]

theorem map_of_mapM_ok {α β ε : Type} {f : α → Except ε β} {φ : β → α} {xs : List α} {ys : List β}
    (h : xs.mapM f = .ok ys) (hφ : ∀ x ∈ xs, ∀ y, f x = .ok y → φ y = x) : ys.map φ = xs := by
  induction xs generalizing ys with
  | nil =>
    cases h
    rfl
  | cons x xs ih =>
    rw [List.mapM_cons] at h
    cases hx : f x with
    | error cause =>
      rw [hx] at h
      cases h
    | ok y =>
      rw [hx] at h
      cases hxs : xs.mapM f with
      | error cause =>
        simp only [bind, Except.bind, hxs] at h
        cases h
      | ok ys' =>
        simp only [bind, Except.bind, hxs, pure, Except.pure] at h
        cases h
        rw [List.map_cons, hφ x List.mem_cons_self y hx,
          ih hxs fun x hx => hφ x (List.mem_cons_of_mem _ hx)]

/-- Two elements of a list without repetitions are two different ones. -/
theorem two_le_length_iff {α : Type} {xs : List α} (h : xs.Nodup) :
    2 ≤ xs.length ↔ ∃ a b, a ≠ b ∧ a ∈ xs ∧ b ∈ xs := by
  constructor
  · intro hlen
    obtain ⟨a, b, rest, rfl⟩ : ∃ a b rest, xs = a :: b :: rest := by
      match xs, hlen with
      | a :: b :: rest, _ => exact ⟨a, b, rest, rfl⟩
    refine ⟨a, b, ?_, by simp, by simp⟩
    rintro rfl
    exact (List.nodup_cons.mp h).1 List.mem_cons_self
  · rintro ⟨a, b, hne, ha, hb⟩
    have hpair : [a, b].Nodup := by simpa using hne
    exact (hpair.subperm (by simp [ha, hb])).length_le

/-- A plain write is worth asking for its readers, an exclusive one when two exclusive reads of its
location see it. -/
def Shared (g : Graph) (s : Key) (loc : Location) : Prop :=
  g.isExclusiveWrite s = true →
    ∃ a b, a ≠ b ∧ g.LocksAt a loc ∧ g.LocksAt b loc ∧ g.In .readsFrom s a ∧ g.In .readsFrom s b

namespace Writing

variable (h : g.Writing l w loc)
include h

section Readers

variable {ns : List Node} (hs : s ∈ g.order) (hns : g.readersOf s = .ok ns)
include hs hns

/-- The readers of a write are those events that see it. -/
theorem mem_readersOf {n : Node} : n ∈ ns ↔ g.In .readsFrom s n.key ∧ g.find? n.key = some n := by
  obtain ⟨m, hm⟩ := h.find? hs
  unfold Graph.readersOf at hns
  rw [hm, Option.map_some, Option.getD_some] at hns
  rw [mem_of_mapM_ok hns]
  constructor
  · rintro ⟨r, hr, hn⟩
    have hr := (mem_successors hm).mp hr
    have hmem := h.target_mem hr (by decide)
    have hfind := h.node_eq hmem hn
    obtain rfl := key_of_find? hfind
    exact ⟨h.tidy.known hr, hfind⟩
  · rintro ⟨hin, hfind⟩
    have hout := h.mirrored _ _ _ hin
    exact ⟨n.key, (mem_successors hm).mpr hout, h.node (h.target_mem hout (by decide)) hfind⟩

/-- Each of them is listed once. -/
theorem nodup_readersOf : ns.Nodup := by
  obtain ⟨m, hm⟩ := h.find? hs
  unfold Graph.readersOf at hns
  rw [hm, Option.map_some, Option.getD_some] at hns
  have hkeys : ns.map (·.key) = m.successors .readsFrom := map_of_mapM_ok hns fun r hr n hn => by
    have hmem := h.target_mem ((mem_successors hm).mp hr) (by decide)
    exact key_of_find? (h.node_eq hmem hn)
  have hnodup : (ns.map (·.key)).Nodup := hkeys ▸ Edges.nodup_keys (h.tidy.succ hm)
  exact hnodup.of_map

end Readers

/-- **Which writes are asked for their readers.** -/
theorem hasFreeReaders_iff (hs : s ∈ g.chain loc) : g.hasFreeReaders s = .ok true ↔
    g.Shared s loc := by
  have hmem := h.mem_of_mem_chain hs
  unfold Graph.hasFreeReaders Shared
  split
  · rename_i hexclusive
    obtain ⟨ns, hns, -⟩ := h.readersOf hmem
    have hloc : g.locationOf s = loc := by
      rcases h.mem_chain h.location hs with rfl | hwrite
      · obtain ⟨e, he⟩ := h.event? h.init_mem
        rw [isExclusiveWrite, kindOf?_of_event? he, h.initial he] at hexclusive
        cases hexclusive
      · exact locationOf_eq hwrite
    have hnodup := h.nodup_readersOf hmem hns
    have hmem' : ∀ {n : Node},
        n ∈ ns.filter (fun r => r.location == loc && r.kind.isExclusiveRead) ↔
        g.In .readsFrom s n.key ∧ g.find? n.key = some n ∧ g.LocksAt n.key loc := by
      intro n
      rw [List.mem_filter, h.mem_readersOf hmem hns, Bool.and_eq_true, beq_iff_eq, and_assoc]
      refine and_congr_right fun _ => and_congr_right fun hfind =>
        ⟨fun hn => ⟨n.event, ?_, hn.2, hn.1⟩, ?_⟩
      · rw [event?, hfind]
        rfl
      · rintro ⟨e, he, hk, hl⟩
        rw [event?, hfind] at he
        cases he
        exact ⟨hl, hk⟩
    rw [exclusiveReaders, hns, hloc]
    simp only [Except.map, Except.ok.injEq, decide_eq_true_eq, hexclusive, true_imp_iff]
    -- the check counts nodes, the statement names two keys
    rw [two_le_length_iff (hnodup.filter _)]
    constructor
    · rintro ⟨m, n, hne, hm, hn⟩
      obtain ⟨hms, hmf, hml⟩ := hmem'.mp hm
      obtain ⟨hns', hnf, hnl⟩ := hmem'.mp hn
      refine ⟨m.key, n.key, fun heq => hne ?_, hml, hnl, hms, hns'⟩
      rw [heq, hnf] at hmf
      exact (Option.some.inj hmf).symm
    · rintro ⟨a, b, hne, ha, hb, has, hbs⟩
      obtain ⟨m, hm⟩ := h.find? (h.mem_of_readsAt ha.readsAt)
      obtain ⟨n, hn⟩ := h.find? (h.mem_of_readsAt hb.readsAt)
      obtain rfl := key_of_find? hm
      obtain rfl := key_of_find? hn
      exact ⟨m, n, fun heq => hne (by rw [heq]), hmem'.mpr ⟨has, hm, ha⟩, hmem'.mpr ⟨hbs, hn, hb⟩⟩
  · rename_i hexclusive
    exact iff_of_true rfl fun hex => absurd hex hexclusive

/-- The reads that could see a write instead of some others. -/
theorem mem_concurrentReaders_iff {sources : List Key} (hsources : ∀ s ∈ sources, s ∈ g.order)
    (hrs : g.concurrentReaders w loc sources (fun _ => true) = .ok rs) :
    read ∈ rs ↔ g.ReadsAt read loc ∧ g.happensBefore read w = false ∧
    ∃ s ∈ sources, g.In .readsFrom s read := by
  unfold Graph.concurrentReaders at hrs
  cases hnss : sources.mapM g.readersOf with
  | error cause =>
    rw [hnss] at hrs
    cases hrs
  | ok nss =>
    simp only [hnss, bind, Except.bind, pure, Except.pure, Bool.true_and, Except.ok.injEq] at hrs
    subst hrs
    simp only [List.mem_map, List.mem_filter, List.mem_flatten, mem_of_mapM_ok hnss,
      Bool.and_eq_true, beq_iff_eq, Bool.not_eq_true']
    constructor
    · rintro ⟨n, ⟨⟨ns, ⟨s, hs, hns⟩, hn⟩, hloc, hnot⟩, rfl⟩
      obtain ⟨hin, hfind⟩ := (h.mem_readersOf (hsources s hs) hns).mp hn
      obtain ⟨loc', e, he, hkind, -⟩ := h.reads hin
      rw [event?, hfind] at he
      cases he
      exact ⟨⟨n.event, by rw [event?, hfind]; rfl, hkind, hloc⟩, hnot, s, hs, hin⟩
    · rintro ⟨⟨e, he, -, hloc⟩, hnot, s, hs, hin⟩
      rw [event?, Option.map_eq_some_iff] at he
      obtain ⟨n, hfind, rfl⟩ := he
      obtain rfl := key_of_find? hfind
      obtain ⟨ns, hns, -⟩ := h.readersOf (hsources s hs)
      exact ⟨n, ⟨⟨ns, ⟨s, hs, hns⟩, (h.mem_readersOf (hsources s hs) hns).mpr ⟨hin, hfind⟩⟩,
        hloc, hnot⟩, rfl⟩

/-- **Which reads are offered**: those that do not happen before the write and see one of the writes
that are asked. -/
theorem mem_potentialReads_iff (hread : g.ReadsAt read loc) (hnot : g.happensBefore read w = false)
    (hin : g.In .readsFrom s read) (hrs : g.potentialReads w = .ok rs) :
    read ∈ rs ↔ s ∈ g.splitBefore w (g.chain loc) ∧ g.Shared s loc := by
  unfold Graph.potentialReads at hrs
  dsimp only at hrs
  rw [locationOf_eq h.write, h.filter_chain,
    if_neg (by simpa using splitBefore_ne_nil h.touched)] at hrs
  cases hfree : (g.splitBefore w (g.chain loc)).mapM fun k =>
    (g.hasFreeReaders k).map fun b => (k, b) with
  | error cause =>
    rw [hfree] at hrs
    cases hrs
  | ok free =>
    simp only [hfree, bind, Except.bind] at hrs
    have hsources : ∀ {x}, x ∈ (free.filter (·.2)).map (·.1) ↔
        x ∈ g.splitBefore w (g.chain loc) ∧ g.hasFreeReaders x = .ok true := by
      intro x
      simp only [List.mem_map, List.mem_filter, mem_of_mapM_ok hfree]
      constructor
      · rintro ⟨⟨y, b⟩, ⟨⟨z, hz, heq⟩, hb⟩, rfl⟩
        cases hzb : g.hasFreeReaders z with
        | error cause =>
          rw [hzb] at heq
          cases heq
        | ok b' =>
          rw [hzb] at heq
          cases heq
          exact ⟨hz, hzb.trans (congrArg Except.ok hb)⟩
      · rintro ⟨hx, hb⟩
        exact ⟨(x, true), ⟨⟨x, hx, by rw [hb]; rfl⟩, rfl⟩, rfl⟩
    have hchain : ∀ {x}, x ∈ g.splitBefore w (g.chain loc) → x ∈ g.chain loc :=
      mem_of_mem_splitBefore
    rw [h.mem_concurrentReaders_iff
      (fun x hx => h.mem_of_mem_chain (hchain (hsources.mp hx).1)) hrs]
    obtain ⟨-, u, -, hu⟩ := h.source hread
    constructor
    · rintro ⟨-, -, x, hx, hxr⟩
      obtain rfl : x = s := ((hu x).mp hxr).trans ((hu s).mp hin).symm
      obtain ⟨hsplit, hb⟩ := hsources.mp hx
      exact ⟨hsplit, (h.hasFreeReaders_iff (hchain hsplit)).mp hb⟩
    · rintro ⟨hsplit, hshared⟩
      exact ⟨hread, hnot, s,
        hsources.mpr ⟨hsplit, (h.hasFreeReaders_iff (hchain hsplit)).mpr hshared⟩, hin⟩

/-- **An accepted read is offered**, unless the write that it sees is an exclusive one that no two
exclusive reads see. -/
theorem mem_potentialReads_iff_of_isMaximal {v : BackwardRevisit} (hread : g.ReadsAt read loc)
    (hnot : g.happensBefore read w = false) (hin : g.In .readsFrom s read)
    (hv : BackwardRevisit.new g w read = .ok v) (hmax : v.isMaximal = .ok true)
    (hrs : g.potentialReads w = .ok rs) : read ∈ rs ↔ g.Shared s loc := by
  obtain ⟨v', hv', hp, rfl, hcopy, hwrite⟩ := h.new hread hnot
  rw [hv] at hv'
  cases hv'
  rw [h.mem_potentialReads_iff hread hnot hin hrs, and_iff_right_iff_imp]
  intro _
  obtain ⟨hloc, u, hu, hsource⟩ := h.source hread
  obtain rfl := (hsource s).mp hin
  obtain ⟨older, newer, heq, -⟩ := List.eq_append_cons_of_mem hu
  have hc := h.toShaped.resembles_copy
  have hmem := h.mem_of_readsAt hread
  have hnewer : ∀ k ∈ newer, g.happensBefore k w = false := by
    intro k hk
    have hwired : v.graph.Wired := hp.writing.toWired
    have hall := BackwardRevisit.newer_of_isMaximal hwired hp.revisable.reads
      (by rw [hcopy]; exact (hc.edge hmem).mpr hin) hmax (by rw [hcopy]; exact heq) hloc k hk
    rw [hcopy, hwrite] at hall
    refine Eq.trans ?_ hall
    have hk : k ∈ g.chain loc := by
      rw [heq]
      simp [hk]
    exact (hc.happensBefore h.toShaped h.copy.toShaped (h.mem_of_mem_chain hk)
      (h.mem_of_writesTo h.write)).symm
  rw [heq, show older ++ s :: newer = (older ++ [s]) ++ newer by simp, splitBefore_append hnewer]
  exact List.mem_append_right _ mem_splitBefore_concat

end Writing

end Graph

end Interleaving
