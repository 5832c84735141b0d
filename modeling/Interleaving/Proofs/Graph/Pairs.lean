import Interleaving.Graph.Consistency
import Interleaving.Proofs.Graph.Neighbours
import Mathlib.Data.List.Perm.Basic

/-!
# Halves that belong together

An exclusive read and the write that completes it take effect as one. The order that explains a
graph therefore puts every such read right before its write: it is moved down, past all that stood
in between.

`Interleaving.attach` says this of any list: some of its elements are **first halves**, each of
which has a second half further down, and they are taken out and put in again right before their
second halves. Nothing is lost (`Interleaving.attach_perm`), the other elements keep their order
(`Interleaving.before_attach`), and the halves are neighbours (`Interleaving.infix_attach`). Placing
pairs does just this (`Interleaving.Graph.map_key_placePairs`).
-/

namespace Interleaving

/-! ### First halves before their second halves -/

section Attach

variable {α : Type} [DecidableEq α] {first : α → Bool} {second : α → α} {l : List α} {a b c : α}

/-- An element after its first half, if the list has that. -/
def withHalf (first : α → Bool) (second : α → α) (l : List α) (b : α) : List α :=
  (l.find? fun a => first a && second a == b).toList ++ [b]

/-- The list with its first halves right before their second halves. -/
def attach (first : α → Bool) (second : α → α) (l : List α) : List α :=
  (l.filter fun a => !first a).flatMap (withHalf first second l)

/-- Every first half has a second half further down, no two the same, and that is no first half. -/
structure Halved (first : α → Bool) (second : α → α) (l : List α) : Prop where
  nodup : l.Nodup
  before : ∀ {a}, a ∈ l → first a = true → Before l a (second a)
  not_first : ∀ {a}, a ∈ l → first a = true → first (second a) = false
  injective : ∀ {a b}, a ∈ l → b ∈ l → first a = true → first b = true → second a = second b → a = b

theorem Halved.find?_second (h : Halved first second l) (ha : a ∈ l) (hfirst : first a = true) :
    (l.find? fun c => first c && second c == second a) = some a := by
  rw [List.find?_eq_some_iff_append]
  obtain ⟨l₁, l₂, rfl⟩ := List.append_of_mem ha
  refine ⟨by simp [hfirst], l₁, l₂, rfl, fun c hc => ?_⟩
  have hnodup := (List.nodup_append.mp h.nodup).2.2
  have hne : c ≠ a := hnodup c hc a List.mem_cons_self
  by_cases hfc : first c = true
  · have hsecond : second c ≠ second a := fun heq =>
      hne (h.injective (List.mem_append_left _ hc) ha hfc hfirst heq)
    simp [hfc, hsecond]
  · simp [hfc]

theorem withHalf_second (h : Halved first second l) (ha : a ∈ l) (hfirst : first a = true) :
    withHalf first second l (second a) = [a, second a] := by
  unfold withHalf
  rw [h.find?_second ha hfirst]
  rfl

theorem mem_withHalf : c ∈ withHalf first second l b ↔
    c = b ∨ (l.find? fun a => first a && second a == b) = some c := by
  unfold withHalf
  rw [List.mem_append, Option.mem_toList, List.mem_singleton, or_comm]

theorem mem_attach (h : Halved first second l) : c ∈ attach first second l ↔ c ∈ l := by
  unfold attach
  simp only [List.mem_flatMap, List.mem_filter, mem_withHalf]
  constructor
  · rintro ⟨b, ⟨hb, -⟩, rfl | hfind⟩
    · exact hb
    · exact List.mem_of_find?_eq_some hfind
  · intro hc
    by_cases hfirst : first c = true
    · exact ⟨second c, ⟨(h.before hc hfirst).right_mem, by simp [h.not_first hc hfirst]⟩,
        Or.inr (h.find?_second hc hfirst)⟩
    · exact ⟨c, ⟨hc, by simp [hfirst]⟩, Or.inl rfl⟩

theorem nodup_attach (h : Halved first second l) : (attach first second l).Nodup := by
  have hfind : ∀ {b c}, (l.find? fun a => first a && second a == b) = some c →
      first c = true ∧ second c = b := by
    intro b c hfind
    simpa using List.find?_some hfind
  unfold attach
  rw [List.nodup_flatMap]
  constructor
  · intro b hb
    have hb := (List.mem_filter.mp hb).2
    unfold withHalf
    cases hhalf : l.find? fun a => first a && second a == b with
    | none => simp
    | some a =>
      have hne : a ≠ b := by
        rintro rfl
        simp [(hfind hhalf).1] at hb
      simp [hne]
  · refine (h.nodup.filter _).imp_of_mem fun {a b} ha hb hab => ?_
    have ha := (List.mem_filter.mp ha).2
    have hb := (List.mem_filter.mp hb).2
    refine List.disjoint_left.mpr fun c hca hcb => ?_
    rw [mem_withHalf] at hca hcb
    rcases hca with rfl | hca
    · rcases hcb with rfl | hcb
      · exact hab rfl
      · simp [(hfind hcb).1] at ha
    · rcases hcb with rfl | hcb
      · simp [(hfind hca).1] at hb
      · exact hab ((hfind hca).2.symm.trans (hfind hcb).2)

/-- **Nothing is lost.** -/
theorem attach_perm (h : Halved first second l) : (attach first second l).Perm l :=
  (List.perm_ext_iff_of_nodup (nodup_attach h) h.nodup).mpr fun _ => mem_attach h

theorem filter_attach : (attach first second l).filter (fun a => !first a) = l.filter fun a =>
    !first a := by
  have hone : ∀ b, first b = false →
      (withHalf first second l b).filter (fun a => !first a) = [b] := by
    intro b hb
    unfold withHalf
    cases hhalf : l.find? fun a => first a && second a == b with
    | none => simp [hb]
    | some a =>
      have hpair := List.find?_some hhalf
      have hfirst : first a = true := (Bool.and_eq_true_iff.mp hpair).1
      simp [hb, hfirst]
  unfold attach
  rw [List.filter_flatMap]
  have hmap : ∀ ks : List α, (∀ k ∈ ks, first k = false) →
      ks.flatMap (fun b => (withHalf first second l b).filter fun a => !first a) = ks := by
    intro ks hks
    induction ks with
    | nil => rfl
    | cons k ks ih =>
      rw [List.flatMap_cons, hone k (hks k List.mem_cons_self),
        ih fun k hk => hks k (List.mem_cons_of_mem _ hk)]
      rfl
  exact hmap _ fun k hk => by simpa using (List.mem_filter.mp hk).2

/-- **Other elements keep their order.** -/
theorem before_attach (ha : first a = false) (hb : first b = false) :
    Before (attach first second l) a b ↔ Before l a b := by
  have hiff : ∀ l' : List α, Before (l'.filter fun a => !first a) a b ↔ Before l' a b := by
    intro l'
    rw [before_filter]
    simp [ha, hb]
  rw [← hiff, filter_attach, hiff]

/-- **The halves are neighbours.** -/
theorem infix_attach (h : Halved first second l) (ha : a ∈ l) (hfirst : first a = true) :
    [a, second a] <:+: attach first second l := by
  have hmem : second a ∈ l.filter fun a => !first a :=
    List.mem_filter.mpr ⟨(h.before ha hfirst).right_mem, by simp [h.not_first ha hfirst]⟩
  obtain ⟨l₁, l₂, heq⟩ := List.append_of_mem hmem
  refine ⟨l₁.flatMap (withHalf first second l), l₂.flatMap (withHalf first second l), ?_⟩
  unfold attach
  rw [heq, List.flatMap_append, List.flatMap_cons, withHalf_second h ha hfirst, List.append_assoc]

end Attach

/-! ### Placing pairs -/

/-- The key after one in its task. -/
def Key.next (k : Key) : Key := ⟨k.task, k.seq + 1⟩

theorem Key.next_injective {a b : Key} (h : a.next = b.next) : a = b := by
  cases a
  cases b
  simp only [Key.next, Key.mk.injEq] at h ⊢
  omega

namespace Graph

/-- Exclusive reads are completed by writes. -/
theorem not_isExclusiveRead_of_pairsWith {r w : Kind} (h : r.pairsWith w = true) :
    w.isExclusiveRead = false := by
  revert h
  cases r <;> cases w <;> decide

/-- Moving exclusive reads down adds no nodes. -/
theorem mem_of_mem_placePairs {present : List Node} {deferred : List (Key × Node)} {l : List Node}
    {n : Node} (h : n ∈ placePairs present deferred l) : n ∈ l ∨ ∃ k, (k, n) ∈ deferred := by
  induction l generalizing deferred with
  | nil => cases h
  | cons m more ih =>
    unfold placePairs at h
    dsimp only at h
    split at h
    · rcases ih h with h | ⟨k, h⟩
      · exact Or.inl (List.mem_cons_of_mem _ h)
      · rcases List.mem_cons.mp h with heq | h
        · cases heq
          exact Or.inl List.mem_cons_self
        · exact Or.inr ⟨k, h⟩
    · split at h
      · rename_i r hr
        rcases List.mem_cons.mp h with rfl | h
        · obtain ⟨before, after, heq, -⟩ := List.lookup_eq_some_iff.mp hr
          exact Or.inr ⟨_, by rw [heq]; exact List.mem_append_right before List.mem_cons_self⟩
        · rcases List.mem_cons.mp h with rfl | h
          · exact Or.inl List.mem_cons_self
          · rcases ih h with h | ⟨k, h⟩
            · exact Or.inl (List.mem_cons_of_mem _ h)
            · exact Or.inr ⟨k, (List.mem_filter.mp h).1⟩
      · rcases List.mem_cons.mp h with rfl | h
        · exact Or.inl List.mem_cons_self
        · rcases ih h with h | h
          · exact Or.inl (List.mem_cons_of_mem _ h)
          · exact Or.inr h

/-! ### Checking pairs -/

/-- Whether another write stands between an exclusive read and the one that completes it. -/
def isTorn (g : Graph) (next : Option Key) (r : Node) : Bool :=
  r.kind.isExclusiveRead &&
    match g.pairedWrite? r with
    | some w => some w.key != next
    | none => false

/-- Checking the first reader and then the others. -/
theorem checkReaders_cons (g : Graph) (l : Location) (next : Option Key) (count : Nat) (k : Key)
    (more : List Key) : checkReaders l next count (k :: more) g = (g.node k).bind fun r =>
      if r.location ≠ l then checkReaders l next count more g
      else
        let count' := if r.kind.isExclusiveRead then count + 1 else count
        if g.isTorn next r then .ok (count', .inconsistent)
        else checkReaders l next count' more
            (match next with | some w => g.link r.key w .fromRead | none => g) := by
  rw [checkReaders]
  cases g.node k with
  | error e => rfl
  | ok r => cases next <;> rfl

/-! ### Moving pairs together -/

section Renaming

variable {f : Node → Node} (hkey : ∀ n, (f n).key = n.key) (hkind : ∀ n, (f n).kind = n.kind)

/-- What is deferred is found under its key. -/
theorem lookup_deferred (f : Node → Node) (deferred : List (Key × Node)) (k : Key) :
    (deferred.map fun d => (d.1, f d.2)).lookup k = (deferred.lookup k).map f := by
  induction deferred with
  | nil => rfl
  | cons d more ih =>
    rw [List.map_cons, List.lookup_cons, List.lookup_cons, ih]
    cases k == d.1 <;> rfl

include hkey hkind

/-- **Pairs are placed by keys and kinds alone.** -/
theorem placePairs_map (present : List Node) (deferred : List (Key × Node)) (ns : List Node) :
    placePairs (present.map f) (deferred.map fun d => (d.1, f d.2)) (ns.map f) =
      (placePairs present deferred ns).map f := by
  induction ns generalizing deferred with
  | nil => rfl
  | cons n more ih =>
    have hhead : (more.map f).head?.map (·.key) = more.head?.map (·.key) := by
      cases more with
      | nil => rfl
      | cons m more => exact congrArg some (hkey m)
    have hpair : (present.map f).find? (fun w => w.key == (⟨n.key.task, n.key.seq + 1⟩ : Key)) =
        (present.find? fun w => w.key == (⟨n.key.task, n.key.seq + 1⟩ : Key)).map f := by
      rw [List.find?_map]
      simp only [Function.comp_def, hkey]
    have hpostponed : ∀ pair? : Option Node,
        ((pair?.map f).filter fun w => n.kind.isExclusiveRead && n.kind.pairsWith w.kind &&
            more.head?.map (·.key) != some w.key) =
          (pair?.filter fun w => n.kind.isExclusiveRead && n.kind.pairsWith w.kind &&
            more.head?.map (·.key) != some w.key).map f := by
      intro pair?
      cases pair? with
      | none => rfl
      | some w =>
        simp only [Option.map_some, Option.filter_some, hkey, hkind]
        exact (apply_ite (Option.map f) _ (some w) none).symm
    simp only [List.map_cons, placePairs, hkey, hkind, hhead, hpair, hpostponed, lookup_deferred]
    cases (present.find? fun w => w.key == (⟨n.key.task, n.key.seq + 1⟩ : Key)).filter fun w =>
        n.kind.isExclusiveRead && n.kind.pairsWith w.kind &&
            more.head?.map (·.key) != some w.key with
    | some w =>
      simp only [Option.map_some, hkey]
      exact ih ((w.key, n) :: deferred)
    | none =>
      cases deferred.lookup n.key with
      | some r =>
        have hrest := ih (deferred.filter fun d => d.1 != n.key)
        simp only [Option.map_some, Option.map_none, List.map_cons, List.filter_map,
          Function.comp_def] at hrest ⊢
        rw [← hrest]
      | none =>
        simp only [Option.map_none, List.map_cons]
        rw [ih]

end Renaming

variable {first : Key → Bool} {ns : List Node}

/-- The nodes of an order in which every exclusive read is completed further down. -/
structure Completed (first : Key → Bool) (ns : List Node) : Prop where
  nodup : (ns.map (·.key)).Nodup
  first_iff : ∀ {n}, n ∈ ns → first n.key = n.kind.isExclusiveRead
  completed : ∀ {r}, r ∈ ns → r.kind.isExclusiveRead = true →
    ∃ w ∈ ns, w.key = r.key.next ∧ r.kind.pairsWith w.kind = true ∧
      Before (ns.map (·.key)) r.key w.key

theorem Completed.eq_of_key (h : Completed first ns) {m n : Node} (hm : m ∈ ns) (hn : n ∈ ns)
    (hkey : m.key = n.key) : m = n := List.inj_on_of_nodup_map h.nodup hm hn hkey

theorem Completed.halved (h : Completed first ns) : Halved first Key.next (ns.map (·.key)) where
  nodup := h.nodup
  before := by
    intro a ha hfirst
    obtain ⟨r, hr, rfl⟩ := List.mem_map.mp ha
    obtain ⟨w, -, hkey, -, hbefore⟩ := h.completed hr (h.first_iff hr ▸ hfirst)
    exact hkey ▸ hbefore
  not_first := by
    intro a ha hfirst
    obtain ⟨r, hr, rfl⟩ := List.mem_map.mp ha
    obtain ⟨w, hw, hkey, hpair, -⟩ := h.completed hr (h.first_iff hr ▸ hfirst)
    rw [← hkey, h.first_iff hw]
    exact not_isExclusiveRead_of_pairsWith hpair
  injective := fun _ _ _ _ heq => Key.next_injective heq

/-- Looking a key up when another one has been taken out. -/
theorem lookup_filter_key {β : Type} (l : List (Key × β)) (k k' : Key) :
    (l.filter fun d => d.1 != k).lookup k' = if k' = k then none else l.lookup k' := by
  induction l with
  | nil => simp
  | cons d l ih =>
    obtain ⟨a, b⟩ := d
    by_cases ha : a = k
    · rw [List.filter_cons_of_neg (by simp [ha]), ih, List.lookup_cons]
      by_cases hk : k' = k
      · rw [if_pos hk, if_pos hk]
      · rw [if_neg hk, if_neg hk, ha, beq_eq_false_iff_ne.mpr hk]
    · rw [List.filter_cons_of_pos (by simpa using ha), List.lookup_cons, List.lookup_cons, ih]
      by_cases hk : k' = k
      · rw [if_pos hk, if_pos hk, hk, beq_eq_false_iff_ne.mpr (Ne.symm ha)]
      · rw [if_neg hk, if_neg hk]

/-- What is kept of the reads passed over: each under the key of the write that completes it. -/
def Defers (done more : List Node) (deferred : List (Key × Node)) : Prop :=
  ∀ n ∈ more, deferred.lookup n.key = done.find? fun r => r.kind.isExclusiveRead &&
    r.key.next == n.key

/-- An exclusive read stands before the node under the key after its own. -/
theorem Completed.before (h : Completed first ns) {r n : Node} (hr : r ∈ ns)
    (hex : r.kind.isExclusiveRead = true) (hn : n ∈ ns) (hkey : r.key.next = n.key) :
    n.kind.isExclusiveRead = false ∧ Before (ns.map (·.key)) r.key n.key := by
  obtain ⟨w, hw, hwkey, hpair, hbefore⟩ := h.completed hr hex
  obtain rfl := h.eq_of_key hw hn (hwkey.trans hkey)
  exact ⟨not_isExclusiveRead_of_pairsWith hpair, hbefore⟩

/-- No read whose completion an exclusive read would be. -/
theorem Completed.find?_of_exclusive (h : Completed first ns) {done more : List Node} {n : Node}
    (hns : ns = done ++ n :: more) (hex : n.kind.isExclusiveRead = true) :
    (done.find? fun r => r.kind.isExclusiveRead && r.key.next == n.key) = none := by
  have hn : n ∈ ns := hns ▸ List.mem_append_right _ List.mem_cons_self
  refine List.find?_eq_none.mpr fun r hr hmatch => ?_
  obtain ⟨hr', hkey⟩ := Bool.and_eq_true_iff.mp hmatch
  have hnot := (h.before (hns ▸ List.mem_append_left _ hr) hr' hn (by simpa using hkey)).1
  rw [hex] at hnot
  cases hnot

/-- No other read is completed by the same write. -/
theorem Completed.find?_next (h : Completed first ns) {done more : List Node} {n : Node}
    (hns : ns = done ++ n :: more) :
    (done.find? fun r => r.kind.isExclusiveRead && r.key.next == n.key.next) = none := by
  refine List.find?_eq_none.mpr fun r hr hmatch => ?_
  have hsame : r.key.next = n.key.next := by simpa using (Bool.and_eq_true_iff.mp hmatch).2
  have hnodup := h.nodup
  rw [hns, List.map_append] at hnodup
  exact (List.nodup_append.mp hnodup).2.2 _ (List.mem_map_of_mem hr) _ List.mem_cons_self
    (Key.next_injective hsame)

/-- The read that a node completes has been passed over. -/
theorem Completed.find?_append (h : Completed first ns) {done more : List Node} {n : Node}
    (hns : ns = done ++ n :: more) :
    (ns.find? fun r => r.kind.isExclusiveRead && r.key.next == n.key) =
      done.find? fun r => r.kind.isExclusiveRead && r.key.next == n.key := by
  have hn : n ∈ ns := hns ▸ List.mem_append_right _ List.mem_cons_self
  have hnone : ((n :: more).find? fun r => r.kind.isExclusiveRead &&
      r.key.next == n.key) = none := by
    refine List.find?_eq_none.mpr fun r hr hmatch => ?_
    obtain ⟨hex, hkey⟩ := Bool.and_eq_true_iff.mp hmatch
    have hbefore := (h.before (hns ▸ List.mem_append_right _ hr) hex hn (by simpa using hkey)).2
    have hnodup := h.nodup
    rw [hns, List.map_append] at hbefore hnodup
    have hdisj := (List.nodup_append.mp hnodup).2.2
    have hout : ∀ m ∈ n :: more, m.key ∉ done.map (·.key) :=
      fun m hm hin => hdisj _ hin _ (List.mem_map_of_mem hm) rfl
    rcases before_append.mp hbefore with hb | ⟨-, ⟨hin, -⟩ | ⟨-, hb⟩⟩
    · exact hout n List.mem_cons_self hb.right_mem
    · exact hout r hr hin
    · rw [List.map_cons] at hb
      exact absurd rfl (before_cons.mp hb).1
  rw [hns, List.find?_append, hnone, Option.or_none]

theorem Completed.withHalf (h : Completed first ns) (k : Key) :
    withHalf first Key.next (ns.map (·.key)) k =
      ((ns.find? fun r => r.kind.isExclusiveRead && r.key.next == k).map (·.key)).toList ++
      [k] := by
  unfold Interleaving.withHalf
  rw [List.find?_map, ← List.head?_filter, ← List.head?_filter]
  congr 4
  refine List.filter_congr fun r hr => ?_
  rw [Function.comp_apply, h.first_iff hr]

/-- What is kept stays right when a node that completes nothing, or has been placed, is passed. -/
theorem Defers.tail {done more : List Node} {n : Node} {deferred : List (Key × Node)}
    (hdefers : Defers done (n :: more) deferred) (hex : n.kind.isExclusiveRead = false) :
    Defers (done ++ [n]) more deferred := by
  intro m hm
  rw [hdefers m (List.mem_cons_of_mem _ hm), List.find?_append]
  simp [hex]

theorem not_postponed {n : Node} (hex : n.kind.isExclusiveRead = false) {o : Option Node}
    {k : Option Key} :
    (o.filter fun w => n.kind.isExclusiveRead && n.kind.pairsWith w.kind &&
      k != some w.key) = none := by
  cases o <;> simp [hex]

theorem Completed.find?_key (h : Completed first ns) {n : Node} (hn : n ∈ ns) :
    (ns.find? fun m => m.key == n.key) = some n := by
  cases hfind : ns.find? fun m => m.key == n.key with
  | none =>
    have hne := List.find?_eq_none.mp hfind n hn
    simp at hne
  | some m =>
    have hkey := List.find?_some hfind
    rw [h.eq_of_key (List.mem_of_find?_eq_some hfind) hn (by simpa using hkey)]

/-- Where the reads passed over are kept, the rest of the order is placed. -/
theorem Completed.placePairs (h : Completed first ns) (done more : List Node)
    (deferred : List (Key × Node)) (hns : ns = done ++ more) (hdefers : Defers done more deferred) :
    (Graph.placePairs ns deferred more).map (·.key) =
      ((more.map (·.key)).filter fun k => !first k).flatMap
      (Interleaving.withHalf first Key.next (ns.map (·.key))) := by
  -- by the length, as a read and the write behind it are placed at once
  induction hlen : more.length using Nat.strong_induction_on generalizing done more deferred with
  | _ len ih =>
    cases more with
    | nil => rfl
    | cons n more =>
      have hn : n ∈ ns := hns ▸ List.mem_append_right _ List.mem_cons_self
      have hns' : ns = (done ++ [n]) ++ more := by rw [hns]; simp
      have hnodup := h.nodup
      have hlook := hdefers n List.mem_cons_self
      have hfresh : ∀ m ∈ more, m.key ≠ n.key := by
        intro m hm heq
        rw [hns, List.map_append, List.map_cons] at hnodup
        exact (List.nodup_cons.mp (List.nodup_append.mp hnodup).2.1).1
          (heq ▸ List.mem_map_of_mem hm)
      unfold Graph.placePairs
      by_cases hex : n.kind.isExclusiveRead = true
      · obtain ⟨w, hw, hkey, hpair, -⟩ := h.completed hn hex
        have hpresent := h.find?_key hw
        have hfirst : first n.key = true := by rw [h.first_iff hn, hex]
        rw [hkey] at hpresent
        rw [show (⟨n.key.task, n.key.seq + 1⟩ : Key) = n.key.next from rfl, hpresent, List.map_cons,
          List.filter_cons_of_neg (by simp [hfirst])]
        by_cases hnext : (more.head?.map (·.key)) = some w.key
        · -- the write comes right after the read, so nothing is moved
          obtain ⟨w', more, rfl⟩ : ∃ w' more', more = w' :: more' := by
            cases more with
            | nil => cases hnext
            | cons w' more => exact ⟨w', more, rfl⟩
          have hw' : w' ∈ ns := by rw [hns]; simp
          have hsame : w'.key = w.key := by simpa using hnext
          obtain rfl := h.eq_of_key hw' hw hsame
          have hexw := not_isExclusiveRead_of_pairsWith hpair
          have hfirstw : first w'.key = false := by rw [h.first_iff hw', hexw]
          have hpost : (Option.filter (fun w => n.kind.isExclusiveRead && n.kind.pairsWith w.kind &&
              ((w' :: more).head?.map (·.key)) != some w.key) (some w')) = none := by
            simp
          have hns'' : ns = (done ++ [n]) ++ w' :: more := hns'
          have hdefers' : Defers (done ++ [n, w']) more deferred := by
            intro m hm
            have hne : n.key.next ≠ m.key := by
              rw [← hkey]
              rw [hns'', List.map_append, List.map_cons] at hnodup
              have hnot := (List.nodup_cons.mp (List.nodup_append.mp hnodup).2.1).1
              exact fun heq => hnot (heq ▸ List.mem_map_of_mem hm)
            rw [hdefers m (by simp [hm]), List.find?_append]
            simp [hexw, hne]
          have hrest := ih more.length (by simp only [← hlen, List.length_cons]; omega)
            (done ++ [n, w']) more deferred (by rw [hns]; simp) hdefers' rfl
          dsimp only
          rw [hpost, hlook, h.find?_of_exclusive hns hex, List.map_cons, List.map_cons,
            Graph.placePairs, not_postponed hexw, hdefers w' (by simp), hkey, h.find?_next hns,
            List.map_cons, hrest, List.filter_cons_of_pos (by rw [← hkey]; simp [hfirstw]),
            List.flatMap_cons, h.withHalf, ← hkey, h.find?_append hns'', List.find?_append,
            hkey, h.find?_next hns]
          simp [hex]
        · -- the read is passed over until its write comes
          have hpost : (Option.filter (fun w => n.kind.isExclusiveRead && n.kind.pairsWith w.kind &&
              (more.head?.map (·.key)) != some w.key) (some w)) = some w := by
            simp [hex, hpair, hnext]
          dsimp only
          rw [hpost]
          refine ih more.length (by rw [← hlen]; simp) _ more _ hns' (fun m hm => ?_) rfl
          rw [List.lookup_cons, List.find?_append]
          by_cases hm' : m.key = w.key
          · rw [hm', hkey, h.find?_next hns]
            simp [hex]
          · rw [beq_eq_false_iff_ne.mpr hm', hdefers m (List.mem_cons_of_mem _ hm)]
            simp [hkey ▸ Ne.symm hm']
      · have hex : n.kind.isExclusiveRead = false := by simpa using hex
        have hfirst : first n.key = false := by rw [h.first_iff hn, hex]
        dsimp only
        rw [not_postponed hex, hlook, List.map_cons, List.filter_cons_of_pos (by simp [hfirst]),
          List.flatMap_cons, h.withHalf, h.find?_append hns]
        dsimp only
        -- a write takes the read along that was passed over for it
        cases hfind : done.find? fun r => r.kind.isExclusiveRead && r.key.next == n.key with
        | none =>
          rw [List.map_cons,
            ih more.length (by rw [← hlen]; simp) _ more deferred hns' (hdefers.tail hex) rfl]
          rfl
        | some r =>
          have hrest := ih more.length (by rw [← hlen]; simp) _ more
            (deferred.filter fun d => d.1 != n.key) hns' (fun m hm => ?_) rfl
          · rw [List.map_cons, List.map_cons, hrest]
            rfl
          · rw [lookup_filter_key, if_neg (hfresh m hm)]
            exact hdefers.tail hex m hm

/-- **Placing pairs attaches every exclusive read to the write that completes it.** -/
theorem map_key_placePairs (h : Completed first ns) :
    (Graph.placePairs ns [] ns).map (·.key) = attach first Key.next (ns.map (·.key)) :=
  h.placePairs [] ns [] rfl fun _ _ => rfl

end Graph

end Interleaving
