import Interleaving.Proofs.Graph.Conflicts
import Interleaving.Proofs.Tracking.Blocks
import Interleaving.Proofs.Tracking.Ledger

/-!
# The moves of a ledger in another order

The order that explains the graph of a ledger lists the moves of the ledger in another order
(`Interleaving.Engine.Ledger.exists_sorts`). Moves that conflict are in the same order as before:
the edges of threads keep those in order that threads bind, and accesses to a location are in the
same order wherever one of them is a write. So **the moves can be made in the order that explains
the graph**, and the machine comes to the same state (`Interleaving.Engine.Sorts.plays`).
-/

namespace Interleaving

open Interleaving.Machine Interleaving.Graph

variable {a : Engine} {m m₀ : Machine} {es : List Event} {xs ys : List Move} {x y : Move}
  {k : Key} {p : Place} {ns : List Node} {g : Graph} {e : Event}

namespace Machine

theorem Move.key_mem_keys (x : Move) : x.key ∈ x.keys := by
  unfold Move.keys
  split <;> exact List.mem_cons_self

/-- Moves that conflict are bound by threads, or they are about one place. -/
theorem Move.Conflicts.cases (h : x.Conflicts y) :
    x.Binds y ∨ ∃ p, x.effect.report.place? = some p ∧ y.effect.report.place? = some p ∧
    (x.effect.report.alters = true ∨ y.effect.report.alters = true) := by
  cases h with
  | task h => exact Or.inl (.task h)
  | starts h => exact Or.inl (.starts h)
  | joins h => exact Or.inl (.joins h)
  | spawns hx hy => exact Or.inl (.spawns hx hy)
  | place hx hy h => exact Or.inr ⟨_, hx, hy, h⟩

/-- Every move of a sequence can be made at its turn. -/
theorem Plays.exists_canMove (h : m.Plays xs) (hx : x ∈ xs) : ∃ m', CanMove m' x := by
  induction xs generalizing m with
  | nil => cases hx
  | cons z xs ih =>
    rcases List.mem_cons.mp hx with rfl | hx
    · exact ⟨m, h.1⟩
    · exact ih h.2 hx

end Machine

namespace Graph

theorem event?_of_face (h : g.face k = some (faceOf e)) :
    ∃ e₀, g.event? k = some e₀ ∧ faceOf e₀ = faceOf e :=
  Option.map_eq_some_iff.mp h

theorem writesTo_of_face (h : g.face k = some (faceOf e)) (hkind : e.kind.isWrite = true) :
    g.WritesTo k e.location := by
  obtain ⟨e₀, he₀, hface⟩ := event?_of_face h
  rw [faceOf, faceOf, Face.mk.injEq] at hface
  exact ⟨e₀, he₀, by rw [hface.1, hkind], hface.2.1⟩

theorem readsAt_of_face (h : g.face k = some (faceOf e)) (hkind : e.kind.isRead = true) :
    g.ReadsAt k e.location := by
  obtain ⟨e₀, he₀, hface⟩ := event?_of_face h
  rw [faceOf, faceOf, Face.mk.injEq] at hface
  exact ⟨e₀, he₀, by rw [hface.1, hkind], hface.2.1⟩

end Graph

namespace Engine

namespace Ledger

variable (h : Ledger m₀ a m es xs)
include h

theorem exists_canMove (hx : x ∈ xs) : ∃ m', CanMove m' x := h.plays.exists_canMove hx

/-- What a move has shown. -/
theorem shows (hx : x ∈ xs) : x.Shows (x.events fun p => (m.touch p).1) := by
  obtain ⟨m', hcan⟩ := h.exists_canMove hx
  exact hcan.shows fun p hp => h.tracks.touch_pos (h.touched x hx p hp)

theorem nodup_order : (Key.init :: .place 0 0 :: xs.flatMap Move.keys).Nodup :=
  h.order ▸ h.recorded.nodup

theorem nodup_keys : (xs.flatMap Move.keys).Nodup :=
  (List.nodup_cons.mp (List.nodup_cons.mp h.nodup_order).2).2

theorem nodup_map_key : (xs.map Move.key).Nodup :=
  Interleaving.nodup_map_key h.nodup_keys fun x _ => x.key_mem_keys

/-- **A move about a place** accesses its location, and it writes there unless it only reads. -/
theorem accesses (hx : x ∈ xs) (hp : x.effect.report.place? = some p) :
    ∃ k ∈ x.keys, a.graph.Accesses k (m.touch p).1 ∧
      (x.effect.report.alters = true → a.graph.WritesTo k (m.touch p).1) := by
  obtain ⟨m', hcan⟩ := h.exists_canMove hx
  obtain ⟨t, htask⟩ : ∃ t : Nat, x.task = t + 1 :=
    ⟨(x.task - 1).toNat, by have := hcan.one_le; omega⟩
  have hpos := h.tracks.touch_pos (h.touched x hx p hp)
  have hfaces := h.faces x hx
  obtain ⟨task, frame, e, k⟩ := x
  obtain rfl : task = t + 1 := htask
  have hmove : e.IsMove (t + 1) := hcan.move
  -- what the events of the move show is what their faces in the graph show
  have haccess : ∀ {kind}, e.report = .accesses kind p → kind ≠ .lockAcquired →
      Observation.memoryEvents t (m.touch p).1 kind ≠ [] →
      (Move.mk (t + 1) frame e k).keys.map a.graph.face =
        (Observation.memoryEvents t (m.touch p).1 kind).map fun e => some (faceOf e) :=
          fun hreport hkind hevents => by
    rw [hfaces, Move.events, Effect.events_of_accesses hreport hkind hpos hevents]
  have hwrites : ∀ {k : Key} {e₁ : Event}, a.graph.face k = some (faceOf e₁) →
      e₁.kind.isWrite = true → e₁.location = (m.touch p).1 →
      a.graph.Accesses k (m.touch p).1 ∧ a.graph.WritesTo k (m.touch p).1 :=
    fun hface hkind hloc => by
      have hw := hloc ▸ writesTo_of_face hface hkind
      exact ⟨Or.inr hw, hw⟩
  cases hmove with
  | read name ready =>
    cases hp
    have heq : [a.graph.face k] = [some (faceOf (.new t .read _))] :=
      haccess rfl (by decide) (List.cons_ne_nil _ _)
    refine ⟨k, List.mem_singleton_self k, Or.inl (readsAt_of_face (List.cons.inj heq).1 rfl),
      fun halters => ?_⟩
    cases halters
  | write name v ready =>
    cases hp
    have heq : [a.graph.face k] = [some (faceOf (.new t .write _))] :=
      haccess rfl (by decide) (List.cons_ne_nil _ _)
    obtain ⟨haccesses, hw⟩ := hwrites (List.cons.inj heq).1 rfl rfl
    exact ⟨k, List.mem_singleton_self k, haccesses, fun _ => hw⟩
  | release lock ready =>
    cases hp
    have heq : [a.graph.face k] = [some (faceOf (.new t .lockReleaseWrite _))] :=
      haccess rfl (by decide) (List.cons_ne_nil _ _)
    obtain ⟨haccesses, hw⟩ := hwrites (List.cons.inj heq).1 rfl rfl
    exact ⟨k, List.mem_singleton_self k, haccesses, fun _ => hw⟩
  | update name v ready =>
    cases hp
    have heq : [a.graph.face k, a.graph.face k.next] = [some (faceOf (.new t .readExclusive _)),
        some (faceOf (.new t .writeExclusive _))] := haccess rfl (by decide) (List.cons_ne_nil _ _)
    obtain ⟨haccesses, hw⟩ := hwrites (List.cons.inj (List.cons.inj heq).2).1 rfl rfl
    exact ⟨k.next, List.mem_cons_of_mem k (List.mem_singleton_self _), haccesses, fun _ => hw⟩
  | acquire lock ready =>
    cases hp
    have heq : [a.graph.face k, a.graph.face k.next] = [some (faceOf (.new t .lockAcquireRead _)),
        some (faceOf (.new t .lockAcquireWrite _))] :=
          haccess rfl (by decide) (List.cons_ne_nil _ _)
    obtain ⟨haccesses, hw⟩ := hwrites (List.cons.inj (List.cons.inj heq).2).1 rfl rfl
    exact ⟨k.next, List.mem_cons_of_mem k (List.mem_singleton_self _), haccesses, fun _ => hw⟩
  | _ => cases hp

/-- The first event of a move. -/
theorem exists_first (hx : x ∈ xs) : ∃ e more, (x.events fun p => (m.touch p).1) = e :: more ∧
    a.graph.face x.key = some (faceOf e) := by
  have hfaces := h.faces x hx
  have hkeys : ∃ more, x.keys = x.key :: more := by
    unfold Move.keys
    split <;> exact ⟨_, rfl⟩
  obtain ⟨more, hmore⟩ := hkeys
  rw [hmore, List.map_cons] at hfaces
  obtain ⟨e, es, heq, hface, -⟩ := List.map_eq_cons_iff.mp hfaces.symm
  exact ⟨e, es, heq, hface.symm⟩

/-- The halves of a move stand next to each other in an order that keeps pairs together. -/
theorem keys_infix {l : List Key} (hperm : l.Perm (xs.flatMap Move.keys))
    (hpairs : ∀ {k loc}, a.graph.LocksAt k loc → [k, k.next] <:+: .init :: .place 0 0 :: l)
    (hx : x ∈ xs) : x.keys <:+: l := by
  have hmem : ∀ {k}, k ∈ x.keys → k ∈ xs.flatMap Move.keys :=
    fun hk => List.mem_flatMap.mpr ⟨x, hx, hk⟩
  have hsingle : x.effect.report.pairs = false → x.keys <:+: l := fun hnot => by
    obtain ⟨l₁, l₂, rfl⟩ := List.append_of_mem (hperm.mem_iff.mpr (hmem x.key_mem_keys))
    rw [Move.keys, if_neg (by simpa using hnot)]
    exact ⟨l₁, l₂, by simp⟩
  have hshows := h.shows hx
  obtain ⟨e, more, heq, hface⟩ := h.exists_first hx
  rw [heq] at hshows
  cases hshows with
  | own hnot => exact hsingle hnot
  | start hnot => exact hsingle hnot
  | pair hpair _ _ _ _ hkind =>
    obtain ⟨e₀, he₀, hsame⟩ := event?_of_face hface
    have hlock : a.graph.LocksAt x.key e₀.location :=
      ⟨e₀, he₀, by rw [(Face.mk.inj hsame).1, hkind], rfl⟩
    have hkeys : x.keys = [x.key, x.key.next] := by rw [Move.keys, if_pos hpair]
    refine infix_of_disjoint (p := [.init, .place 0 0]) (hkeys ▸ hpairs hlock) (by simp [hkeys])
      fun k hk hfront => ?_
    have hnodup := h.nodup_order
    rw [show Key.init :: .place 0 0 :: xs.flatMap Move.keys = [.init, .place 0 0] ++
      xs.flatMap Move.keys from rfl, List.nodup_append] at hnodup
    exact hnodup.2.2 k hfront k (hmem hk) rfl

end Ledger

/-- **The order that explains a graph**, as an order of moves. -/
structure Sorts (a : Engine) (ns : List Node) (xs ys : List Move) : Prop where
  found : a.graph.consistentOrder = .ok (some ns)
  perm : ys.Perm xs
  order : ns.map (·.key) = .init :: .place 0 0 :: ys.flatMap Move.keys
  explains : a.graph.Explains (ns.map (·.key))
  event : ∀ n ∈ ns, a.graph.event? n.key = some n.event

namespace Ledger

variable (h : Ledger m₀ a m es xs)
include h

/-- **The order that explains the graph lists the moves in some order**, behind the start of the
main task. -/
theorem exists_sorts : ∃ ns ys, Sorts a ns xs ys := by
  obtain ⟨ns, hns⟩ := h.tracks.tracks.consistentOrder
  obtain ⟨hexplains, hevent, hhead, hpairs⟩ :=
    (consistentOrder_exact h.recorded.wellFormed h.tracks.tracks.paired).2.2 ns hns
  have hlinear := hexplains.linear h.recorded.toWired
  have hperm := hexplains.perm
  have hnodup : (ns.map (·.key)).Nodup := hperm.nodup_iff.mpr h.recorded.nodup
  generalize hl : ns.map (·.key) = l at hexplains hhead hpairs hlinear hperm hnodup
  obtain ⟨l, rfl⟩ : ∃ l', l = .init :: l' := by
    cases l with
    | nil => cases hhead
    | cons k l => exact ⟨l, by rw [Option.some.inj hhead]⟩
  -- everything but the first event comes after the start of the main task
  obtain ⟨l, rfl⟩ : ∃ l', l = .place 0 0 :: l' := by
    have hmain : Key.place 0 0 ∈ a.graph.order := by rw [h.order]; simp
    cases l with
    | nil => simpa using hperm.mem_iff.mpr hmain
    | cons c l =>
      have hc : c ∈ a.graph.order := hperm.mem_iff.mp (by simp)
      have hne : c ≠ .init := fun heq => (List.nodup_cons.mp hnodup).1 (heq ▸ List.mem_cons_self)
      rcases (h.threaded.main.2 hc).resolve_left hne with rfl | hpast
      · exact ⟨l, rfl⟩
      · have hbefore := hlinear.before_of_past h.recorded.toWired hc hpast
        rw [before_cons, before_cons] at hbefore
        exact absurd rfl (hbefore.2.resolve_left fun heq => Key.place_ne_init 0 0 heq.1).2.1
  have hrest : l.Perm (xs.flatMap Move.keys) := by
    rw [h.order] at hperm
    exact hperm.cons_inv.cons_inv
  obtain ⟨ys, hys, rfl⟩ := exists_blocks hrest (List.nodup_cons.mp (List.nodup_cons.mp hnodup).2).2
    (fun x _ => List.ne_nil_of_mem x.key_mem_keys) fun x hx => h.keys_infix hrest hpairs hx
  exact ⟨ns, ys, hns, hys, hl, hl.symm ▸ hexplains, hevent⟩

end Ledger

/-- The moves of a list of keys stand in the order of their keys. -/
theorem before_listed {k k' : Key}
    (hnodup : (Key.init :: .place 0 0 :: xs.flatMap Move.keys).Nodup) (hx : x ∈ xs) (hy : y ∈ xs)
    (hne : x ≠ y) (hk : k ∈ x.keys) (hk' : k' ∈ y.keys) :
    Before (.init :: .place 0 0 :: xs.flatMap Move.keys) k k' ↔
    Before (xs.map Move.key) x.key y.key := by
  obtain ⟨hinit, hnodup⟩ := List.nodup_cons.mp hnodup
  obtain ⟨hmain, hnodup⟩ := List.nodup_cons.mp hnodup
  have hout : ∀ {x}, x ∈ xs → ∀ {k}, k ∈ x.keys → k ≠ .init ∧ k ≠ .place 0 0 := fun hx k hk => by
    have hmem := List.mem_flatMap.mpr ⟨_, hx, hk⟩
    exact ⟨fun heq => hinit (heq ▸ List.mem_cons_of_mem _ hmem), fun heq => hmain (heq ▸ hmem)⟩
  have hkx := hout hx hk
  have hky := hout hy hk'
  rw [before_cons, before_cons,
    ← before_flatMap hnodup (fun x _ => x.key_mem_keys) hx hy hne hk hk']
  simp [hkx, hky]

namespace Sorts

variable (hs : Sorts a ns xs ys) (h : Ledger m₀ a m es xs)
include hs h

theorem nodup_order : (Key.init :: .place 0 0 :: ys.flatMap Move.keys).Nodup := by
  rw [← hs.order]
  exact hs.explains.perm.nodup_iff.mpr h.recorded.nodup

/-- **Moves that conflict stay in order.** -/
theorem before_of_conflicts (hx : x ∈ xs) (hy : y ∈ xs) (hconflict : x.Conflicts y)
    (hbefore : Before (xs.map Move.key) x.key y.key) : Before (ys.map Move.key) x.key y.key := by
  have hne : x ≠ y := fun heq => hbefore.ne (heq ▸ rfl)
  have hlater : ∀ {k k'}, k ∈ x.keys → k' ∈ y.keys →
      (Before (ns.map (·.key)) k k' ↔ Before (ys.map Move.key) x.key y.key) := fun hk hk' => by
    rw [hs.order]
    exact before_listed (hs.nodup_order h) (hs.perm.mem_iff.mpr hx)
      (hs.perm.mem_iff.mpr hy) hne hk hk'
  rcases hconflict.cases with hbinds | ⟨p, hpx, hpy, halters⟩
  · have hpast := rel_of_before_map h.threaded.ordered h.nodup_map_key hx hy hbefore hbinds
    exact (hlater x.key_mem_keys y.key_mem_keys).mp
      ((hs.explains.linear h.recorded.toWired).before_of_past h.recorded.toWired
        (h.threaded.key_mem hy) hpast)
  · obtain ⟨kx, hkx, hax, hwx⟩ := h.accesses hx hpx
    obtain ⟨ky, hky, hay, hwy⟩ := h.accesses hy hpy
    have hearlier : Before a.graph.order kx ky := by
      rw [h.order]
      exact (before_listed h.nodup_order hx hy hne hkx hky).mpr hbefore
    exact (hlater hkx hky).mp
      (h.recorded.explained.before_of_conflict hs.explains h.recorded.wellFormed hax hay
        (halters.imp hwx hwy) hearlier)

/-- **The moves can be made in the order that explains the graph**, and the machine comes to the
same state. -/
theorem plays : m₀.Plays ys ∧ Agrees (m₀.play xs) (m₀.play ys) :=
  h.plays.reorder hs.perm h.nodup_map_key fun _ hx _ hy hconflict hbefore =>
    hs.before_of_conflicts h hx hy hconflict hbefore

end Sorts

end Engine

end Interleaving
