import Interleaving.Proofs.Graph.Regular

/-!
# Writes that move, and events that go

A write joins the chain of its location at the end, or moves to another place of it, and events are
taken out of all views. In all three cases chains change and coherency has to follow. The first
event stands in front of all chains, so linking one chain anew must leave its edges into the others
alone; it does, as an edge of a chain leads to a write, and a write stands in one chain only.

Taking events out keeps a graph regular when nothing is left behind an event that goes
(`Interleaving.Graph.Regular.prune`): places stay dense, and a label goes with the event that it
stands behind.
-/

namespace Interleaving.Graph

variable {g g' : Graph} {a b k w : Key} {r : Relation} {e : Event} {t n : Nat} {loc : Location}
  {ks removed : List Key}

/-! ### Linking a chain anew -/

/-- Taking coherency edges away does not change tasks. -/
theorem unlinkChain_tasks (g : Graph) (ks : List Key) :
    (g.unlinkChain ks).tasks = g.tasks ∧ (g.unlinkChain ks).waiting = g.waiting := by
  fun_induction Graph.unlinkChain g ks with
  | case1 g a b more ih => exact ih
  | case2 => exact ⟨rfl, rfl⟩

/-- Coherency edges do not change tasks. -/
theorem linkChain_tasks (g : Graph) (ks : List Key) :
    (g.linkChain ks).tasks = g.tasks ∧ (g.linkChain ks).waiting = g.waiting := by
  fun_induction Graph.linkChain g ks with
  | case1 g a b more ih => exact ⟨ih.1.trans (link_tasks ..), ih.2.trans (link_waiting ..)⟩
  | case2 => exact ⟨rfl, rfl⟩

theorem not_infix_singleton : ¬[a, b] <:+: [k] := fun h => by simpa using h.length_le

theorem not_infix_nil : ¬[a, b] <:+: ([] : List Key) := fun h => by simpa using h.length_le

/-- The edges between neighbours go. -/
theorem in_unlinkChain (g : Graph) (ks : List Key) :
    (g.unlinkChain ks).In .coherency a b ↔ g.In .coherency a b ∧ ¬[a, b] <:+: ks := by
  fun_induction Graph.unlinkChain g ks with
  | case1 g c d more ih =>
    rw [ih, in_unlink, infix_cons_iff (l := d :: more), List.head?_cons, Option.some.injEq,
      and_assoc, ← not_or]
    refine and_congr_right fun _ =>
      not_congr (or_congr_left ⟨fun heq => ⟨heq.2.1, heq.2.2.symm⟩, fun heq => ?_⟩)
    exact ⟨rfl, heq.1, heq.2.symm⟩
  | case2 ks _ hne =>
    refine (and_iff_left fun hin => ?_).symm
    cases ks with
    | nil => exact not_infix_nil hin
    | cons c more =>
      cases more with
      | nil => exact not_infix_singleton hin
      | cons d more => exact hne c d more rfl

/-- Edges between neighbours come. -/
theorem in_linkChain (g : Graph) (ks : List Key) (hhas : ∀ k ∈ ks, g.Has k) :
    (g.linkChain ks).In .coherency a b ↔ g.In .coherency a b ∨ [a, b] <:+: ks := by
  fun_induction Graph.linkChain g ks with
  | case1 g c d more ih =>
    have hd := hhas d (List.mem_cons_of_mem _ List.mem_cons_self)
    rw [ih fun k hk => has_link.mpr (hhas k (List.mem_cons_of_mem _ hk)), in_link hd,
      infix_cons_iff (l := d :: more), List.head?_cons, Option.some.injEq, or_assoc]
    refine or_congr_right (or_congr_left ⟨fun heq => ⟨heq.2.1, heq.2.2.symm⟩, fun heq => ?_⟩)
    exact ⟨rfl, heq.1, heq.2.symm⟩
  | case2 ks _ hne =>
    refine (or_iff_left fun hin => ?_).symm
    cases ks with
    | nil => exact not_infix_nil hin
    | cons c more =>
      cases more with
      | nil => exact not_infix_singleton hin
      | cons d more => exact hne c d more rfl

/-- **What a swap does** to a chain with the first event in front: the writes behind it are listed
in another order, and linked anew. -/
theorem swapCoherency_ok
    (hchain : g.chain (g.locationOf a) = [] ∨ ∃ ws, g.chain (g.locationOf a) = .init :: ws)
    (ha : a ≠ .init) (hb : b ≠ .init) (hg' : g.swapCoherency a b = .ok g') :
    ∃ ws vs, g.chain (g.locationOf a) = .init :: ws ∧ vs.Perm ws ∧
      g' = ((g.unlinkChain (.init :: ws)).linkChain (.init :: vs)).setChain (g.locationOf a)
        (.init :: vs) := by
  unfold Graph.swapCoherency at hg'
  dsimp only at hg'
  rw [← locationOf, ← locationOf] at hg'
  split at hg'
  · cases hg'
  split at hg'
  · rename_i i j hi hj
    obtain ⟨hilt, hi, -⟩ := List.findIdx?_eq_some_iff_getElem.mp hi
    obtain ⟨hjlt, hj, -⟩ := List.findIdx?_eq_some_iff_getElem.mp hj
    obtain ⟨ws, heq⟩ := hchain.resolve_left fun heq => by simp [heq] at hilt
    -- neither write is the first event
    have hplace : ∀ {k i} (hlt : i < (g.chain (g.locationOf a)).length), k ≠ .init →
        ((g.chain (g.locationOf a))[i] == k) = true → 0 < i := by
      rintro k i hlt hk hi
      refine Nat.pos_of_ne_zero fun hzero => hk ?_
      subst hzero
      simp only [heq, List.getElem_cons_zero, beq_iff_eq] at hi
      exact hi.symm
    obtain ⟨i, rfl⟩ := Nat.exists_eq_succ_of_ne_zero (hplace hilt ha hi).ne'
    obtain ⟨j, rfl⟩ := Nat.exists_eq_succ_of_ne_zero (hplace hjlt hb hj).ne'
    have hilt : i < ws.length := by simpa [heq] using hilt
    have hjlt : j < ws.length := by simpa [heq] using hjlt
    have hmax : max i j < ws.length := by omega
    have hperm : ((ws.eraseIdx (max i j)).insertIdx (min i j) ws[max i j]).Perm ws := by
      have hle : min i j ≤ (ws.eraseIdx (max i j)).length := by
        rw [List.length_eraseIdx_of_lt hmax]
        omega
      exact (List.perm_insertIdx _ _ hle).trans (List.getElem_cons_eraseIdx_perm hmax)
    refine ⟨ws, _, heq, hperm, ?_⟩
    rw [Nat.succ_max_succ, Nat.succ_min_succ, heq, List.eraseIdx_cons_succ,
      List.insertIdx_succ_cons, List.getElem?_cons_succ, List.getElem?_eq_getElem hmax,
      Option.getD_some] at hg'
    exact (Except.ok.inj hg').symm
  · cases hg'

theorem ne_thread_of_pos (hpos : 0 < loc) : loc ≠ .thread := by
  rintro rfl
  exact absurd hpos (by decide)

theorem ne_none_of_pos (hpos : 0 < loc) : loc ≠ .none := by
  rintro rfl
  exact absurd hpos (by decide)

namespace Regular

variable (h : g.Regular)
include h

theorem chain_eq_of_mem (hk : g.chain loc ≠ []) :
    ∃ ws, g.chain loc = .init :: ws ∧ ws.Nodup ∧ ∀ w ∈ ws, g.Joins w loc :=
  (h.chain_cases loc).resolve_left hk

/-- A write of a regular graph has a location of the memory. -/
theorem location_of_writesTo (hw : g.WritesTo w loc) : 0 < loc ∧ w ∈ g.order ∧ g.Joins w loc := by
  have hmem := h.mem_of_writesTo hw
  obtain ⟨e, he, hwrite, rfl⟩ := hw
  have hpos := (h.placed hmem he).memory (Or.inr hwrite)
  refine ⟨hpos, hmem, e, he, rfl, ?_⟩
  rw [if_neg (ne_thread_of_pos hpos)]
  exact hwrite

/-- **A write joins its chain** at the end, or is there already. -/
theorem trackCoherency (hw : g.WritesTo w loc) (hplace : w ∉ g.chain loc ∨ g.lastWrite loc = w) :
    (g.trackCoherency w).Regular := by
  obtain ⟨hpos, hmem, hjoins⟩ := h.location_of_writesTo hw
  have hthread := ne_thread_of_pos hpos
  have htouched : g.chain loc ≠ [] := by
    obtain ⟨e, he, -, rfl⟩ := hw
    exact h.touched hmem he (ne_none_of_pos hpos)
  obtain ⟨ws, heq, hnodup, hws⟩ := h.chain_eq_of_mem htouched
  by_cases hnew : w ∈ g.chain loc
  -- the write stands last already, so the chain is set to itself
  · have hlast := hplace.resolve_left fun hnot => hnot hnew
    have hsame : g.trackCoherency w = g.setChain loc (.init :: ws) := by
      have hempty : (g.chain loc).isEmpty ≠ true := by simpa using htouched
      unfold Graph.trackCoherency
      dsimp only
      rw [← locationOf, locationOf_eq hw, if_neg hempty, ← lastWrite, if_pos hlast, heq]
    rw [hsame]
    refine h.rechain (.refl g) rfl rfl hnodup hws fun {a b} => ?_
    refine h.coherency.trans (exists_congr fun loc' => and_congr_right fun _ => ?_)
    split
    · rename_i hloc
      rw [hloc, heq]
    · rfl
  -- the write is appended, with an edge from the one before it
  · have hlast := h.has (h.mem_order_of_chain (lastWrite_mem htouched))
    have hsame : g.trackCoherency w = (g.link (g.lastWrite loc) w .coherency).setChain loc
        (.init :: (ws ++ [w])) := by
      rw [trackCoherency_eq hw htouched hnew, heq]
      rfl
    rw [hsame]
    refine h.rechain (.link hlast (h.has hmem)) (link_tasks ..) (link_waiting ..) ?_ ?_
      fun {a b} => ?_
    · rw [List.nodup_append]
      refine ⟨hnodup, by simp, ?_⟩
      rintro x hx y hy rfl
      exact hnew (heq ▸ List.mem_cons_of_mem _ (List.mem_singleton.mp hy ▸ hx))
    · intro x hx
      rcases List.mem_append.mp hx with hx | hx
      · exact hws x hx
      · rwa [List.mem_singleton.mp hx]
    · have hlast? : (g.chain loc).getLast? = some (g.lastWrite loc) := by
        rw [lastWrite, List.getLast?_eq_some_getLast htouched]
        rfl
      rw [in_link (h.has hmem), h.coherency]
      constructor
      · rintro (⟨loc', hloc', hab⟩ | ⟨-, rfl, rfl⟩)
        · refine ⟨loc', hloc', ?_⟩
          split
          · rename_i hl
            rw [hl, heq] at hab
            exact List.cons_append ▸ infix_concat_iff.mpr (Or.inl hab)
          · exact hab
        · refine ⟨loc, hthread, ?_⟩
          rw [if_pos rfl, ← List.cons_append, ← heq]
          exact infix_concat_iff.mpr (Or.inr ⟨hlast?, rfl⟩)
      · rintro ⟨loc', hloc', hab⟩
        split at hab
        · rename_i hl
          rw [← List.cons_append, ← heq] at hab
          rcases infix_concat_iff.mp hab with hab | ⟨ha, rfl⟩
          · exact Or.inl ⟨loc, hthread, hab⟩
          · exact Or.inr ⟨rfl, Option.some.inj (ha.symm.trans hlast?), rfl⟩
        · exact Or.inl ⟨loc', hloc', hab⟩

/-- **A chain is linked anew** in another order. -/
theorem relink (hloc : loc ≠ .thread) (hnodup : ks.Nodup) (hks : ∀ w ∈ ks, g.Joins w loc) :
    (((g.unlinkChain (g.chain loc)).linkChain (.init :: ks)).setChain loc
      (.init :: ks)).Regular := by
  obtain ⟨hu, -⟩ := unlinkChain_spec g (g.chain loc)
  have hhas : ∀ k ∈ Key.init :: ks, (g.unlinkChain (g.chain loc)).Has k := by
    intro k hk
    rw [hu.has_iff]
    rcases List.mem_cons.mp hk with rfl | hk
    · exact h.has h.init_mem
    · exact h.has (h.mem_of_joins (hks k hk))
  obtain ⟨hl, -⟩ := linkChain_spec _ (.init :: ks) hhas
  have htasks := linkChain_tasks (g.unlinkChain (g.chain loc)) (.init :: ks)
  have htasks' := unlinkChain_tasks g (g.chain loc)
  refine h.rechain (hu.trans hl) (htasks.1.trans htasks'.1) (htasks.2.trans htasks'.2) hnodup hks
    fun {a b} => ?_
  rw [in_linkChain _ _ hhas, in_unlinkChain, h.coherency]
  constructor
  · rintro (⟨⟨loc', hloc', hab⟩, hnot⟩ | hab)
    · refine ⟨loc', hloc', ?_⟩
      rw [if_neg fun heq : loc' = loc => hnot (heq ▸ hab)]
      exact hab
    · exact ⟨loc, hloc, by rwa [if_pos rfl]⟩
  · rintro ⟨loc', hloc', hab⟩
    split at hab
    · exact Or.inr hab
    · rename_i hne
      -- a write stands in one chain only
      exact Or.inl ⟨⟨loc', hloc', hab⟩,
        fun hab' => hne ((h.joins_of_adjacent hab).unique (h.joins_of_adjacent hab'))⟩

/-- **A write moves** to another place of its chain. -/
theorem swapCoherency {loc' : Location} (ha : g.WritesTo a loc) (hb : g.WritesTo b loc')
    (hg' : g.swapCoherency a b = .ok g') : g'.Regular := by
  obtain ⟨hpos, -, hja⟩ := h.location_of_writesTo ha
  obtain ⟨-, -, hjb⟩ := h.location_of_writesTo hb
  have hcases := (h.chain_cases (g.locationOf a)).imp_right fun ⟨ws, heq, _⟩ =>
    (⟨ws, heq⟩ : ∃ ws, _ = Key.init :: ws)
  obtain ⟨ws, vs, heq, hperm, rfl⟩ :=
    swapCoherency_ok hcases (h.ne_init_of_joins hja) (h.ne_init_of_joins hjb) hg'
  rw [locationOf_eq ha] at heq ⊢
  obtain ⟨us, heq', hnodup, hus⟩ :=
    (h.chain_cases loc).resolve_left (by rw [heq]; exact List.cons_ne_nil _ _)
  obtain rfl : ws = us := (List.cons.inj (heq.symm.trans heq')).2
  rw [← heq]
  exact h.relink (ne_thread_of_pos hpos) (hperm.nodup_iff.mpr hnodup) fun w hw =>
    hus w (hperm.mem_iff.mp hw)

end Regular

end Interleaving.Graph
