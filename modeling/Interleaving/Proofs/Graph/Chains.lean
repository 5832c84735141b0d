import Interleaving.Graph.Alternatives
import Interleaving.Proofs.Graph.Sound

/-!
# Chains that change

A location that nothing has touched gets a chain of its own, with the first event in front
(`Interleaving.Graph.opened`), and a write joins the chain of its location at the end. What
explained a graph explains it afterwards if the write stands behind the rest of the chain
(`Interleaving.Graph.Writes.sound`). The chain of the life of threads does not count.
-/

namespace Interleaving.Graph

variable {g g' : Graph} {a b k : Key} {r : Relation} {loc : Location} {l : List Key}

/-- The last write to a location that something has touched is in its chain. -/
theorem lastWrite_mem (h : g.chain loc ≠ []) : g.lastWrite loc ∈ g.chain loc := by
  unfold lastWrite
  rw [List.getLast?_eq_some_getLast h]
  exact List.getLast_mem h

/-- A chain ends with the last write. -/
theorem chain_eq_concat (h : g.chain loc ≠ []) :
    g.chain loc = (g.chain loc).dropLast ++ [g.lastWrite loc] := by
  unfold lastWrite
  rw [List.getLast?_eq_some_getLast h, Option.getD_some, List.dropLast_append_getLast h]

/-- The last write of a chain comes after all others. -/
theorem before_lastWrite (hnodup : (g.chain loc).Nodup) (h : k ∈ g.chain loc) :
    k = g.lastWrite loc ∨ Before (g.chain loc) k (g.lastWrite loc) := by
  have heq := chain_eq_concat (List.ne_nil_of_mem h)
  rw [heq] at h hnodup ⊢
  rcases List.mem_append.mp h with h | h
  · have hnot : g.lastWrite loc ∉ (g.chain loc).dropLast := fun hin =>
      (List.nodup_append.mp hnodup).2.2 _ hin _ (List.mem_singleton_self _) rfl
    exact Or.inr (before_append.mpr (Or.inr ⟨hnot, Or.inl ⟨h, List.mem_singleton_self _⟩⟩))
  · exact Or.inl (List.mem_singleton.mp h)

/-! ### Chains in place of others -/

theorem chains_setChain_of_some {old ks : List Key} (h : g.chain? loc = some old) :
    (g.setChain loc ks).chains = g.chains.map fun c => if c.1 = loc then (loc, ks) else c :=
  if_pos (by rw [h]; rfl)

theorem chains_setChain_of_none {ks : List Key} (h : g.chain? loc = none) :
    (g.setChain loc ks).chains = g.chains ++ [(loc, ks)] :=
  if_neg (by rw [h]; simp)

/-- A chain is replaced, and the others stay. -/
theorem chain_setChain (g : Graph) (loc loc' : Location) (ks : List Key) :
    (g.setChain loc ks).chain loc' = if loc' = loc then ks else g.chain loc' := by
  rw [chain, chain, chain?, chain?]
  cases hlook : g.chain? loc with
  | some old =>
    rw [chains_setChain_of_some hlook, lookup_map_replace, ← chain?, hlook]
    split <;> rfl
  | none =>
    rw [chains_setChain_of_none hlook, List.lookup_append]
    by_cases hloc : loc' = loc
    · subst hloc
      rw [← chain?, hlook]
      simp
    · simp [hloc, List.lookup_cons, beq_eq_false_iff_ne.mpr hloc]

/-- A location that has a chain with a write has a chain. -/
theorem isSome_chain? (h : g.chain loc ≠ []) : (g.chain? loc).isSome = true := by
  cases hlook : g.chain? loc with
  | some ks => rfl
  | none =>
    rw [chain, hlook] at h
    exact absurd rfl h

/-- A replaced chain is there. -/
theorem isSome_chain?_setChain {loc' : Location} {ks : List Key} :
    ((g.setChain loc ks).chain? loc').isSome = true ↔
    loc' = loc ∨ (g.chain? loc').isSome = true := by
  rw [chain?, chain?]
  cases hlook : g.chain? loc with
  | some old =>
    rw [chains_setChain_of_some hlook, lookup_map_replace, ← chain?, hlook]
    by_cases hloc : loc' = loc
    · simp [hloc]
    · simp [hloc]
  | none =>
    rw [chains_setChain_of_none hlook, List.lookup_append]
    by_cases hloc : loc' = loc
    · simp [hloc]
    · simp [hloc, List.lookup_cons, beq_eq_false_iff_ne.mpr hloc]

theorem not_mem_of_chain? {c : Location × List Key} (h : g.chain? loc = none) (hc : c ∈ g.chains) :
    c.1 ≠ loc := by
  rintro rfl
  have hne := List.lookup_eq_none_iff.mp h c hc
  simp at hne

/-- The new chain stands in place of those of its location. -/
theorem mem_setChain {c : Location × List Key} {ks : List Key} :
    c ∈ (g.setChain loc ks).chains ↔ c = (loc, ks) ∨ c.1 ≠ loc ∧ c ∈ g.chains := by
  cases hlook : g.chain? loc with
  | some old =>
    rw [chains_setChain_of_some hlook, List.mem_map]
    constructor
    · rintro ⟨d, hd, rfl⟩
      by_cases hdl : d.1 = loc
      · exact Or.inl (if_pos hdl)
      · rw [if_neg hdl]
        exact Or.inr ⟨hdl, hd⟩
    · rintro (rfl | ⟨hne, hc⟩)
      · obtain ⟨l₁, l₂, heq, -⟩ := List.lookup_eq_some_iff.mp hlook
        exact ⟨(loc, old), by rw [heq]; simp, if_pos rfl⟩
      · exact ⟨c, hc, if_neg hne⟩
  | none =>
    rw [chains_setChain_of_none hlook, List.mem_append, List.mem_singleton, or_comm]
    exact or_congr_right ⟨fun hc => ⟨not_mem_of_chain? hlook hc, hc⟩, And.right⟩

/-- No location gets a second chain. -/
theorem nodup_setChain {ks : List Key} (h : (g.chains.map (·.1)).Nodup) :
    ((g.setChain loc ks).chains.map (·.1)).Nodup := by
  cases hlook : g.chain? loc with
  | some old =>
    have hsame : ((·.1) ∘ fun c : Location × List Key => if c.1 = loc then (loc, ks) else c) =
        (·.1) := by
      funext c
      dsimp only [Function.comp_apply]
      split
      · rename_i hc
        exact hc.symm
      · rfl
    rw [chains_setChain_of_some hlook, List.map_map, hsame]
    exact h
  | none =>
    rw [chains_setChain_of_none hlook, List.map_append, List.nodup_append]
    refine ⟨h, by simp, ?_⟩
    rintro a ha b hb rfl
    obtain ⟨c, hc, rfl⟩ := List.mem_map.mp ha
    exact not_mem_of_chain? hlook hc (List.mem_singleton.mp hb)

/-! ### A location that is touched -/

/-- The graph in which a location has a chain. -/
def opened (g : Graph) (loc : Location) : Graph :=
  if loc != .none && (g.chain? loc).isNone then g.setChain loc [.init] else g

section SetChain

variable {ks : List Key}

/-- Giving a location a chain that it has not had, or changing that of the life of threads, keeps a
graph wired. -/
theorem Wired.setChain (h : g.Wired) (hnew : loc = .thread ∨ g.chain? loc = none ∧ ks = [.init]) :
    (g.setChain loc ks).Wired where
  toShaped := h.toShaped.setChain loc ks
  mirrored := h.mirrored
  initial := h.initial
  linked := h.linked
  label_end := h.label_end
  no_fromRead := h.no_fromRead
  locations := nodup_setChain h.locations
  chain_eq := by
    intro c hc hthread
    rcases mem_setChain.mp hc with rfl | ⟨-, hc⟩
    · exact ⟨[], (hnew.resolve_left hthread).2, List.nodup_nil, by simp⟩
    · exact h.chain_eq hc hthread
  coherency := by
    intro a b
    refine h.coherency.trans (exists_congr fun loc' => and_congr_right fun hloc' => ?_)
    rw [chain_setChain]
    split
    · rename_i heq
      subst heq
      obtain ⟨hnone, rfl⟩ := hnew.resolve_left hloc'
      have hnil : g.chain loc' = [] := by
        rw [chain, hnone]
        rfl
      rw [hnil]
      exact iff_of_false (fun hin => by simpa using hin.length_le) fun hin => by
        simpa using hin.length_le
    · rfl
  source := by
    intro k loc' hread
    obtain ⟨hloc', w, hw, hsource⟩ := h.source hread
    refine ⟨hloc', w, ?_, hsource⟩
    rw [chain_setChain]
    split
    · rename_i heq
      subst heq
      rw [chain, (hnew.resolve_left hloc').1] at hw
      cases hw
    · exact hw
  reads := h.reads

/-- Whether clocks tell the past is a matter of nodes. -/
theorem Timed.of_nodes (h : g.Timed) (hnodes : g'.nodes = g.nodes) (horder : g'.order = g.order) :
    g'.Timed := by
  have hearlier : g'.Earlier = g.Earlier := by
    funext a b
    exact propext (exists_congr fun _ => and_congr_right fun _ => in_of_nodes hnodes)
  intro k hk
  have hk := h k (horder ▸ hk)
  rw [clockOf_of_nodes hnodes]
  refine ⟨hk.nonneg, fun t i => ?_⟩
  rw [hk.count, Past, Past, hearlier]

/-- Such a change keeps a graph sound. -/
theorem Sound.setChain (h : g.Sound l) (hnew : loc = .thread ∨ g.chain? loc = none ∧ ks = [.init]) :
    (g.setChain loc ks).Sound l where
  toWired := h.toWired.setChain hnew
  explained :=
    { perm := h.explained.perm
      forward := h.explained.forward
      coherent := by
        intro loc' hloc'
        rw [chain_setChain]
        split
        · rename_i heq
          subst heq
          rw [(hnew.resolve_left hloc').2]
          exact List.pairwise_singleton ..
        · exact h.explained.coherent hloc'
      latest := h.explained.latest
      undivided := h.explained.undivided }
  timed := h.timed.of_nodes rfl rfl
  forward := h.forward
  bounded := h.bounded
  chained := fun hk he hne => isSome_chain?_setChain.mpr (Or.inr (h.chained hk he hne))

end SetChain

theorem chain?_eq_none_of_chain (h : g.chain? loc = none) : g.chain loc = [] := by
  rw [chain, h]
  rfl

/-- **A graph stays sound when a location is touched.** -/
theorem Sound.opened (h : g.Sound l) (loc : Location) : (g.opened loc).Sound l := by
  unfold Graph.opened
  split
  · rename_i hnew
    rw [Bool.and_eq_true, Option.isNone_iff_eq_none] at hnew
    exact h.setChain (Or.inr ⟨hnew.2, rfl⟩)
  · exact h

/-- A location that is touched keeps its chain. -/
theorem mem_chain_opened {loc' : Location} (hk : k ∈ g.chain loc') :
    k ∈ (g.opened loc).chain loc' := by
  unfold Graph.opened
  split
  · rename_i hnew
    rw [Bool.and_eq_true, Option.isNone_iff_eq_none] at hnew
    rw [chain_setChain]
    split
    · rename_i heq
      rw [heq, chain?_eq_none_of_chain hnew.2] at hk
      cases hk
    · exact hk
  · exact hk

/-- A location that is touched has a chain then, even if it is not one of the memory. -/
theorem isSome_chain?_opened (hloc : loc ≠ .none) : ((g.opened loc).chain? loc).isSome = true := by
  unfold Graph.opened
  split
  · exact isSome_chain?_setChain.mpr (Or.inl rfl)
  · rename_i hold
    simpa [hloc, Option.isSome_iff_ne_none] using hold

/-- A location that is touched has a chain. -/
theorem chain_opened_ne_nil (h : g.Wired) (hloc : loc ≠ .none) (hthread : loc ≠ .thread) :
    (g.opened loc).chain loc ≠ [] := by
  unfold Graph.opened
  split
  · rw [chain_setChain, if_pos rfl]
    simp
  · rename_i hold
    obtain ⟨ks, hks⟩ : ∃ ks, g.chain? loc = some ks := by
      rw [← Option.ne_none_iff_exists']
      simpa [hloc] using hold
    have hmem : (loc, ks) ∈ g.chains := by
      obtain ⟨l₁, l₂, heq, -⟩ := List.lookup_eq_some_iff.mp hks
      rw [heq]
      simp
    obtain ⟨ws, heq, -⟩ := h.chain_eq hmem hthread
    rw [chain, hks, Option.getD_some]
    dsimp only at heq
    rw [heq]
    simp

/-! ### A write takes effect -/

/-- The location of a write is the one it writes to. -/
theorem locationOf_eq {w : Key} (h : g.WritesTo w loc) : g.locationOf w = loc := by
  obtain ⟨e, he, -, rfl⟩ := h
  unfold event? at he
  obtain ⟨m, hm, rfl⟩ := Option.map_eq_some_iff.mp he
  unfold locationOf
  rw [hm]
  rfl

/-- **A write takes effect** by joining its chain behind the last write. -/
theorem trackCoherency_eq {w : Key} (hw : g.WritesTo w loc)
    (hchain : g.chain loc ≠ []) (hnot : w ∉ g.chain loc) :
    g.trackCoherency w = (g.setChain loc (g.chain loc ++ [w])).link
      (g.lastWrite loc) w .coherency := by
  have hne : (g.chain loc).getLast?.getD .init ≠ w := by
    intro heq
    exact hnot (heq ▸ lastWrite_mem hchain)
  unfold trackCoherency
  dsimp only
  have hempty : (g.chain loc).isEmpty ≠ true := by simpa using hchain
  rw [← locationOf, locationOf_eq hw, if_neg hempty, if_neg hne]
  rfl

/-- A write at the end of the chain of its location. -/
structure Writes (g : Graph) (w : Key) (loc : Location) : Prop where
  write : g.WritesTo w loc
  location : loc ≠ .thread
  touched : g.chain loc ≠ []
  absent : w ∉ g.chain loc

namespace Writes

variable {w : Key} (hw : g.Writes w loc)
include hw

/-- The chain of the location is one write longer. -/
theorem chain_trackCoherency (loc' : Location) :
    (g.trackCoherency w).chain loc' = if loc' = loc then g.chain loc ++ [w] else g.chain loc' := by
  rw [trackCoherency_eq hw.write hw.touched hw.absent, chain, chain?, link_chains, ← chain?,
    ← chain, chain_setChain]

theorem order_trackCoherency : (g.trackCoherency w).order = g.order := by
  rw [trackCoherency_eq hw.write hw.touched hw.absent, link_order]
  rfl

theorem event?_trackCoherency : (g.trackCoherency w).event? k = g.event? k := by
  rw [trackCoherency_eq hw.write hw.touched hw.absent, event?_link]
  rfl

/-- One coherency edge is new. -/
theorem in_trackCoherency (h : g.Shaped) : (g.trackCoherency w).In r a b ↔
    g.In r a b ∨ r = .coherency ∧ a = g.lastWrite loc ∧ b = w := by
  have hhas : (g.setChain loc (g.chain loc ++ [w])).Has w := h.has (h.mem_of_writesTo hw.write)
  rw [trackCoherency_eq hw.write hw.touched hw.absent, in_link hhas]
  rfl

theorem lastWrite_mem_order (h : g.Wired) : g.lastWrite loc ∈ g.order := by
  rcases h.mem_chain hw.location (lastWrite_mem hw.touched) with heq | hwrite
  · rw [heq]
    exact h.init_mem
  · exact h.mem_of_writesTo hwrite

theorem out_trackCoherency (h : g.Wired) : (g.trackCoherency w).Out r a b ↔
    g.Out r a b ∨ r = .coherency ∧ a = g.lastWrite loc ∧ b = w := by
  have hhas : (g.setChain loc (g.chain loc ++ [w])).Has (g.lastWrite loc) :=
    h.has (hw.lastWrite_mem_order h)
  rw [trackCoherency_eq hw.write hw.touched hw.absent, out_link hhas]
  rfl

/-- **A write joins the chain of its location.** -/
theorem wired (h : g.Wired) : (g.trackCoherency w).Wired := by
  have hmem := h.mem_of_writesTo hw.write
  have hne := h.ne_init_of_writesTo hw.write
  have hshaped : (g.trackCoherency w).Shaped := by
    rw [trackCoherency_eq hw.write hw.touched hw.absent]
    exact (h.toShaped.setChain _ _).link (h.has (hw.lastWrite_mem_order h)) hmem hne (by simp)
  have hlabel : ∀ {k}, (g.trackCoherency w).isLabel k = g.isLabel k := by
    intro k
    unfold isLabel
    rw [kindOf?_congr hw.event?_trackCoherency]
  have hchain : ∀ {k loc'}, k ∈ g.chain loc' → k ∈ (g.trackCoherency w).chain loc' := by
    intro k loc' hk
    rw [hw.chain_trackCoherency]
    split
    · rename_i heq
      subst heq
      exact List.mem_append_left _ hk
    · exact hk
  -- the events stay as they are, and so do all edges that are no coherency
  have hwrites : ∀ {k loc'}, (g.trackCoherency w).WritesTo k loc' ↔ g.WritesTo k loc' := by
    intro k loc'
    unfold WritesTo
    rw [hw.event?_trackCoherency]
  have hreads : ∀ {k loc'}, (g.trackCoherency w).ReadsAt k loc' ↔ g.ReadsAt k loc' := by
    intro k loc'
    unfold ReadsAt
    rw [hw.event?_trackCoherency]
  have hother : ∀ {r a b}, r ≠ .coherency → ((g.trackCoherency w).In r a b ↔ g.In r a b) := by
    intro r a b hr
    rw [hw.in_trackCoherency h.toShaped]
    exact or_iff_left fun heq => hr heq.1
  exact
    { toShaped := hshaped
      mirrored := by
        intro r a b hin
        rw [hw.out_trackCoherency h]
        exact ((hw.in_trackCoherency h.toShaped).mp hin).imp_left (h.mirrored r a b)
      initial := by
        intro e he
        rw [hw.event?_trackCoherency] at he
        exact h.initial he
      linked := by
        intro t i hhas
        rw [has_iff_event?, hw.event?_trackCoherency, ← has_iff_event?] at hhas
        exact (hother (by decide)).mpr (h.linked hhas)
      label_end := by
        intro r a b hlab hin
        rw [hlabel] at hlab
        rcases (hw.in_trackCoherency h.toShaped).mp hin with hin | ⟨-, rfl, -⟩
        · exact h.label_end hlab hin
        · rw [h.isLabel_of_mem (hw.lastWrite_mem_order h)] at hlab
          cases hlab
      no_fromRead := by
        intro a b hin
        exact h.no_fromRead ((hother (by decide)).mp hin)
      locations := by
        rw [trackCoherency_eq hw.write hw.touched hw.absent, link_chains]
        exact nodup_setChain h.locations
      chain_eq := by
        intro c hc hthread
        rw [trackCoherency_eq hw.write hw.touched hw.absent, link_chains] at hc
        rcases mem_setChain.mp hc with rfl | ⟨-, hc⟩
        · obtain ⟨ws, heq, hnodup, hws⟩ := (h.chain_cases hw.location).resolve_left hw.touched
          refine ⟨ws ++ [w], by rw [heq]; rfl, ?_, ?_⟩
          · rw [List.nodup_append]
            refine ⟨hnodup, by simp, ?_⟩
            rintro v hv v' hv' rfl
            refine hw.absent ?_
            rw [heq]
            exact List.mem_cons_of_mem _ (List.mem_singleton.mp hv' ▸ hv)
          · intro v hv
            rw [hwrites]
            rcases List.mem_append.mp hv with hv | hv
            · exact hws v hv
            · rw [List.mem_singleton.mp hv]
              exact hw.write
        · obtain ⟨ws, heq, hnodup, hws⟩ := h.chain_eq hc hthread
          exact ⟨ws, heq, hnodup, fun v hv => hwrites.mpr (hws v hv)⟩
      coherency := by
        intro a b
        -- neighbours in the longer chain are old ones, or the last write and the new one
        have hlast : (g.chain loc).getLast? = some a ↔ a = g.lastWrite loc := by
          rw [List.getLast?_eq_some_getLast hw.touched, lastWrite,
            List.getLast?_eq_some_getLast hw.touched, Option.getD_some, Option.some_inj, eq_comm]
        rw [hw.in_trackCoherency h.toShaped, h.coherency]
        constructor
        · rintro (⟨loc', hloc', hin⟩ | ⟨-, rfl, rfl⟩)
          · refine ⟨loc', hloc', ?_⟩
            rw [hw.chain_trackCoherency]
            split
            · rename_i heq
              subst heq
              exact infix_concat_iff.mpr (Or.inl hin)
            · exact hin
          · refine ⟨loc, hw.location, ?_⟩
            rw [hw.chain_trackCoherency, if_pos rfl]
            exact infix_concat_iff.mpr (Or.inr ⟨hlast.mpr rfl, rfl⟩)
        · rintro ⟨loc', hloc', hin⟩
          rw [hw.chain_trackCoherency] at hin
          split at hin
          · rename_i heq
            subst heq
            rcases infix_concat_iff.mp hin with hin | ⟨ha, rfl⟩
            · exact Or.inl ⟨loc', hloc', hin⟩
            · exact Or.inr ⟨rfl, hlast.mp ha, rfl⟩
          · exact Or.inl ⟨loc', hloc', hin⟩
      source := by
        intro k loc' hread
        obtain ⟨hloc', v, hv, hsource⟩ := h.source (hreads.mp hread)
        exact ⟨hloc', v, hchain hv, fun a => (hother (by decide)).trans (hsource a)⟩
      reads := by
        intro a b hin
        obtain ⟨loc', hread⟩ := h.reads ((hother (by decide)).mp hin)
        exact ⟨loc', hreads.mpr hread⟩ }

/-- **A write that takes effect last keeps a graph sound.** -/
theorem sound (h : g.Sound l) (hlast : ∀ k ∈ g.chain loc, Before l k w) :
    (g.trackCoherency w).Sound l where
  toWired := hw.wired h.toWired
  explained := by
    have hin : ∀ {r a b}, r ≠ .coherency → ((g.trackCoherency w).In r a b ↔ g.In r a b) := by
      intro r a b hr
      rw [hw.in_trackCoherency h.toShaped]
      exact or_iff_left fun heq => hr heq.1
    refine ⟨by rw [hw.order_trackCoherency]; exact h.explained.perm, fun {r a b} hr hb hab => ?_,
      fun {loc'} hloc' => ?_,
      fun {r v loc'} hread hsource => ?_, fun {r v loc'} hlock hv => ?_⟩
    · rw [hw.order_trackCoherency] at hb
      refine h.explained.forward hr hb ((hin ?_).mp hab)
      rintro rfl
      cases hr
    · rw [hw.chain_trackCoherency]
      split
      · exact List.pairwise_append.mpr ⟨h.explained.coherent hw.location,
            List.pairwise_singleton .., fun k hk v hv =>
          List.mem_singleton.mp hv ▸ hlast k hk⟩
      · exact h.explained.coherent hloc'
    · unfold ReadsAt at hread
      simp only [WritesTo, hw.event?_trackCoherency] at hread ⊢
      exact h.explained.latest hread ((hin (by decide)).mp hsource)
    · unfold LocksAt at hlock
      unfold WritesTo at hv
      rw [hw.event?_trackCoherency] at hlock hv
      exact h.explained.undivided hlock hv
  timed := by
    rw [trackCoherency_eq hw.write hw.touched hw.absent]
    have hhas : (g.setChain loc (g.chain loc ++ [w])).Has w := h.has (h.mem_of_writesTo hw.write)
    have htimed : (g.setChain loc (g.chain loc ++ [w])).Timed := h.timed.of_nodes rfl rfl
    exact htimed.link_coherency hhas
  forward := by
    intro r a b hr hb hin
    rw [hw.order_trackCoherency] at hb ⊢
    rcases (hw.in_trackCoherency h.toShaped).mp hin with hin | ⟨rfl, -⟩
    · exact h.forward hr hb hin
    · cases hr
  bounded := by
    rw [hw.order_trackCoherency]
    exact h.bounded
  chained := by
    intro k e hk he hne
    rw [hw.order_trackCoherency] at hk
    rw [hw.event?_trackCoherency] at he
    rw [trackCoherency_eq hw.write hw.touched hw.absent, chain?, link_chains]
    exact isSome_chain?_setChain.mpr (Or.inr (h.chained hk he hne))

/-- The write was the only one that was missing in its chain. -/
theorem wellFormed (h : g.Wired)
    (hwritten : ∀ {k loc'}, g.WritesTo k loc' → k ≠ w → loc' ≠ .thread ∧ k ∈ g.chain loc') :
    (g.trackCoherency w).WellFormed where
  toWired := hw.wired h
  written := by
    intro k loc' hk
    unfold WritesTo at hk
    rw [hw.event?_trackCoherency] at hk
    have hk : g.WritesTo k loc' := hk
    rw [hw.chain_trackCoherency]
    by_cases hkw : k = w
    · subst hkw
      obtain rfl := hk.unique hw.write
      rw [if_pos rfl]
      exact ⟨hw.location, by simp⟩
    · obtain ⟨hloc', hmem⟩ := hwritten hk hkw
      refine ⟨hloc', ?_⟩
      split
      · rename_i heq
        subst heq
        exact List.mem_append_left _ hmem
      · exact hmem

end Writes

end Interleaving.Graph
