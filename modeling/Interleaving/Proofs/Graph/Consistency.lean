import Interleaving.Graph.Consistency
import Interleaving.Proofs.Graph.Copy
import Interleaving.Proofs.Graph.WellFormed

/-!
# Consistent graphs are those with an explanation

The graph looks for an order that explains it by edges alone: it copies itself, orders every read
before the write that overwrites what the read saw, refuses chains in which the halves of a pair are
torn apart, sorts the copy and moves first halves down to their second halves. For a well-formed
graph whose exclusive reads are completed (`Interleaving.Graph.Paired`) **this finds an order just
when some order explains the graph**, and the order it finds is one of these
(`Interleaving.Graph.consistentOrder_exact`).
-/

namespace Interleaving

namespace Graph

variable {g c : Graph} {a b k v w : Key} {r : Relation} {e : Event} {loc : Location}
  {l ks : List Key}

/-! ### What is checked -/

/-- A copy of a graph with edges from reads to writes that overwrite what they saw. -/
structure Checks (g c : Graph) (E : Key → Key → Prop) : Prop where
  shaped : c.Shaped
  order : c.order = g.order
  event : ∀ k, c.event? k = if k ∈ g.order then g.event? k else none
  in_iff : ∀ r a b, c.In r a b ↔ b ∈ g.order ∧ g.In r a b ∨ r = .fromRead ∧ E a b
  out_iff : ∀ r a b, c.Out r a b ↔ a ∈ g.order ∧ b ∈ g.order ∧ g.Out r a b ∨ r = .fromRead ∧ E a b

theorem Shaped.checks (h : g.Shaped) : Checks g g.copy fun _ _ => False where
  shaped := h.copy
  order := rfl
  event := fun _ => h.event?_copy
  in_iff := fun r a b => by rw [h.in_copy]; simp
  out_iff := fun r a b => by rw [h.out_copy]; simp

namespace Checks

variable {E : Key → Key → Prop}

theorem congr (hc : Checks g c E) {E' : Key → Key → Prop} (heq : ∀ a b, E a b ↔ E' a b) :
    Checks g c E' := by
  have hE : E = E' := by
    funext a b
    exact propext (heq a b)
  exact hE ▸ hc

theorem event_of_mem (hc : Checks g c E) (hk : k ∈ g.order) : c.event? k = g.event? k := by
  rw [hc.event, if_pos hk]

/-- One more edge. -/
theorem link (hc : Checks g c E) (ha : a ∈ g.order) (hb : b ∈ g.order) (hne : b ≠ .init) :
    Checks g (c.link a b .fromRead) fun x y => E x y ∨ x = a ∧ y = b := by
  have ha' : c.Has a := hc.shaped.has (hc.order ▸ ha)
  have hb' : b ∈ c.order := hc.order ▸ hb
  refine ⟨hc.shaped.link ha' hb' hne (fun hr => by cases hr), (link_order ..).trans hc.order,
    fun k => ?_, fun r x y => ?_,
    fun r x y => ?_⟩
  · rw [event?_link, hc.event]
  · rw [in_link (hc.shaped.has hb'), hc.in_iff]
    tauto
  · rw [out_link ha', hc.out_iff]
    tauto

end Checks

/-- A key reads a location from a write, and the next write to the location is another one. -/
def Overwrites (g : Graph) (loc : Location) (ks : List Key) (a b : Key) : Prop :=
  ∃ w, [w, b] <:+: ks ∧ g.Out .readsFrom w a ∧ g.ReadsAt a loc

/-- Some exclusive read of a location sees a write, and the write that completes it is not the next
one. -/
def Torn (g : Graph) (loc : Location) (ks : List Key) : Prop :=
  ∃ w ∈ ks, ∃ k, g.Out .readsFrom w k ∧ g.LocksAt k loc ∧ ¬[w, k.next] <:+: ks

/-- What checking the readers of a write comes to, when `next` is the next write: some exclusive
read is torn, or every reader is ordered before `next`. -/
def ReadersChecked (g : Graph) (loc : Location) (next : Option Key) (ks : List Key)
    (E : Key → Key → Prop) (result : Except Error (Nat × Verdict)) : Prop :=
  (∃ k ∈ ks, g.LocksAt k loc ∧ next ≠ some k.next) ∧ (∃ m, result = .ok (m, .inconsistent)) ∨
    (∀ k ∈ ks, g.LocksAt k loc → next = some k.next) ∧
      ∃ m c, m ≤ 1 ∧ result = .ok (m, .consistent c) ∧
        Checks g c fun a b => E a b ∨ a ∈ ks ∧ g.ReadsAt a loc ∧ next = some b

theorem ReadersChecked.cons {next : Option Key} {E E' : Key → Key → Prop}
    {result : Except Error (Nat × Verdict)} (hr : ReadersChecked g loc next ks E' result)
    (hlock : g.LocksAt k loc → next = some k.next)
    (hE : ∀ a b, E' a b ↔ E a b ∨ a = k ∧ g.ReadsAt k loc ∧ next = some b) :
    ReadersChecked g loc next (k :: ks) E result := by
  refine hr.imp ?_ ?_
  · rintro ⟨⟨k', hk', htorn⟩, hres⟩
    exact ⟨⟨k', List.mem_cons_of_mem _ hk', htorn⟩, hres⟩
  · rintro ⟨hall, m, c, hle, hres, hc⟩
    refine ⟨fun k' hk' => ?_, m, c, hle, hres, hc.congr fun a b => ?_⟩
    · rcases List.mem_cons.mp hk' with rfl | hk'
      · exact hlock
      · exact hall k' hk'
    · rw [hE, List.mem_cons]
      constructor
      · rintro ((hab | ⟨rfl, hab⟩) | ⟨ha, hab⟩)
        · exact Or.inl hab
        · exact Or.inr ⟨Or.inl rfl, hab⟩
        · exact Or.inr ⟨Or.inr ha, hab⟩
      · rintro (hab | ⟨rfl | ha, hab⟩)
        · exact Or.inl (Or.inl hab)
        · exact Or.inl (Or.inr ⟨rfl, hab⟩)
        · exact Or.inr ⟨ha, hab⟩

/-- Every exclusive read is followed in its task by the write that completes it. -/
def Completes (g : Graph) : Prop :=
  ∀ {k e}, g.event? k = some e → e.kind.isExclusiveRead = true →
    ∃ e', g.event? k.next = some e' ∧ e.kind.pairsWith e'.kind = true ∧ e'.location = e.location

/-- Program order leads to the next place of the task. -/
theorem Shaped.eq_next (h : g.Shaped) (hin : g.In .programOrder a b) (hne : a ≠ .init) :
    b = a.next := by
  obtain ⟨t, i, rfl⟩ : ∃ t i : Nat, b = .place t i := by
    rcases h.mem_or_label (has_of_in hin) with hb | hlabel
    · exact (h.key hb).resolve_left fun heq => h.no_cause (heq ▸ hin)
    · obtain ⟨t, n, heq, -⟩ := h.label hlabel
      exact ⟨t, n, heq⟩
  have hprior := h.programOrder hin
  cases i with
  | zero => exact absurd hprior hne
  | succ i =>
    rw [hprior]
    rfl

section Checking

variable (h : g.WellFormed) (hp : g.Completes)
include h hp

/-- The write that completes an exclusive read. -/
theorem WellFormed.completion (hk : g.LocksAt k loc) :
    k ∈ g.order ∧ k.next ∈ g.order ∧ g.In .programOrder k k.next ∧
      ∀ {e e'}, g.event? k = some e → g.event? k.next = some e' →
        e.kind.pairsWith e'.kind = true := by
  have hk' := h.mem_of_readsAt hk.readsAt
  obtain ⟨t, i, rfl⟩ := (h.key hk').resolve_left (h.ne_init_of_readsAt hk.readsAt)
  obtain ⟨e, he, hexclusive, -⟩ := hk
  obtain ⟨e', he', hpair, -⟩ := hp he hexclusive
  have hnext : Key.place t (i + 1) ∈ g.order := by
    refine (h.mem_iff he').mpr fun hblock => ?_
    rw [hblock] at hpair
    revert hpair
    generalize e.kind = kind
    cases kind <;> decide
  refine ⟨hk', hnext, h.linked (h.has hnext), fun he₁ he₂ => ?_⟩
  rw [he] at he₁
  rw [he'] at he₂
  cases he₁
  cases he₂
  exact hpair

theorem WellFormed.pairedWrite? {E : Key → Key → Prop} (hc : Checks g c E) {m : Node}
    (hm : c.find? k = some m) (hk : g.LocksAt k loc) :
    ∃ w, c.pairedWrite? m = some w ∧ w.key = k.next := by
  obtain ⟨hk', hnext, hin, hpair⟩ := h.completion hp hk
  have hkey := key_of_find? hm
  obtain ⟨w, hw⟩ := hc.shaped.find? (hc.order ▸ hnext)
  have hsucc : ∀ b ∈ m.successors .programOrder, b = k.next := by
    intro b hb
    rcases (hc.out_iff ..).mp ((mem_successors hm).mp hb) with ⟨-, -, hout⟩ | ⟨hr, -⟩
    · exact h.eq_next (h.tidy.known hout) (h.ne_init_of_readsAt hk.readsAt)
    · cases hr
  have hmem : k.next ∈ m.successors .programOrder :=
    (mem_successors hm).mpr ((hc.out_iff ..).mpr (Or.inl ⟨hk', hnext, h.mirrored _ _ _ hin⟩))
  obtain ⟨rest, hrest⟩ : ∃ rest, m.successors .programOrder = k.next :: rest := by
    cases hlist : m.successors .programOrder with
    | nil =>
      rw [hlist] at hmem
      cases hmem
    | cons b rest => exact ⟨rest, by rw [hsucc b (by rw [hlist]; exact List.mem_cons_self)]⟩
  have hwkey := key_of_find? hw
  have hkind : m.kind.pairsWith w.kind = true := by
    have hm' : c.event? k = some m.event := by rw [Graph.event?, hm]; rfl
    have hw' : c.event? k.next = some w.event := by rw [Graph.event?, hw]; rfl
    rw [hc.event_of_mem hk'] at hm'
    rw [hc.event_of_mem hnext] at hw'
    exact hpair hm' hw'
  refine ⟨w, ?_, hwkey⟩
  unfold Graph.pairedWrite?
  rw [hrest, List.findSome?_cons, hc.shaped.node? (hc.order ▸ hnext), hw]
  simp [hwkey, hkey, Key.next, hkind]

theorem WellFormed.checkReaders {E : Key → Key → Prop} {next : Option Key} {n : Nat}
    (hc : Checks g c E) (hnodup : ks.Nodup) (hks : ∀ k ∈ ks, ∃ loc', g.ReadsAt k loc')
    (hnext : loc ≠ .thread → ∀ w, next = some w → w ∈ g.order ∧ w ≠ .init)
    (hn : n = 0 ∨ n = 1 ∧ ∃ k₀, k₀ ∉ ks ∧ next = some k₀.next) :
    ReadersChecked g loc next ks E (Graph.checkReaders loc next n ks c) := by
  induction ks generalizing n c E with
  | nil => exact Or.inr ⟨by simp, n, c, by omega, rfl, hc.congr (by simp)⟩
  | cons k ks ih =>
    rw [List.nodup_cons] at hnodup
    obtain ⟨loc', hread⟩ := hks k List.mem_cons_self
    have hmem := h.mem_of_readsAt hread
    obtain ⟨m, hm⟩ := hc.shaped.find? (hc.order ▸ hmem)
    have hevent : g.event? k = some m.event := by
      rw [← hc.event_of_mem hmem, Graph.event?, hm]
      rfl
    have hkey := key_of_find? hm
    have hmore : ∀ k ∈ ks, ∃ loc', g.ReadsAt k loc' := fun k hk => hks k (List.mem_cons_of_mem _ hk)
    have hseen : n = 0 ∨ n = 1 ∧ ∃ k₀, k₀ ∉ ks ∧ next = some k₀.next := by
      refine hn.imp_right ?_
      rintro ⟨hone, k₀, hk₀, heq⟩
      exact ⟨hone, k₀, fun hin => hk₀ (List.mem_cons_of_mem _ hin), heq⟩
    rw [Graph.checkReaders, hc.shaped.node (hc.order ▸ hmem) hm]
    dsimp only [bind, Except.bind]
    -- readers of other locations are passed over
    by_cases hloc : m.location = loc
    · have hreads : g.ReadsAt k loc := by
        obtain ⟨e, he, hkind, -⟩ := hread
        rw [hevent] at he
        cases he
        exact ⟨_, hevent, hkind, hloc⟩
      have hthread : loc ≠ .thread := (h.source hreads).1
      rw [if_neg (by simpa using hloc)]
      by_cases hex : m.kind.isExclusiveRead = true
      · have hlock : g.LocksAt k loc := ⟨_, hevent, hex, hloc⟩
        obtain ⟨w, hw, hwkey⟩ := h.pairedWrite? hp hc hm hlock
        rw [hw, hex]
        by_cases hnx : next = some k.next
        · -- the completing write comes next, so no other exclusive read has passed
          subst hnx
          have hzero : n = 0 := by
            refine hn.resolve_right ?_
            rintro ⟨-, k₀, hk₀, heq⟩
            rw [Option.some_inj] at heq
            exact hk₀ (Key.next_injective heq ▸ List.mem_cons_self)
          obtain ⟨hw', hwinit⟩ := hnext hthread _ rfl
          have hlink := hc.link hmem hw' hwinit
          rw [if_neg (by simp [hwkey]), hkey, if_pos rfl]
          exact (ih hlink hnodup.2 hmore (Or.inr ⟨by omega, k, hnodup.1, rfl⟩)).cons (fun _ => rfl)
              fun a b => by
            simp [hreads, eq_comm]
        -- another write comes in between, so the check fails at this reader
        · rw [if_pos (by simpa [hwkey] using Ne.symm hnx)]
          exact Or.inl ⟨⟨k, List.mem_cons_self, hlock, hnx⟩, _, rfl⟩
      · have hnot : ¬g.LocksAt k loc := by
          rintro ⟨e, he, hkind, -⟩
          rw [hevent] at he
          cases he
          exact hex hkind
        rw [if_neg (by simp [hex]), if_neg hex]
        -- a plain read is linked to the next write, if there is one
        cases next with
        | none =>
          exact (ih hc hnodup.2 hmore hseen).cons (fun hlock => absurd hlock hnot)
            fun a b => by simp
        | some w =>
          obtain ⟨hw', hwinit⟩ := hnext hthread _ rfl
          have hlink := hc.link hmem hw' hwinit
          dsimp only
          rw [hkey]
          exact (ih hlink hnodup.2 hmore hseen).cons (fun hlock => absurd hlock hnot) fun a b => by
            simp [hreads, eq_comm]
    · have hnot : ¬g.ReadsAt k loc := by
        rintro ⟨e, he, -, heq⟩
        rw [hevent] at he
        cases he
        exact hloc heq
      rw [if_pos hloc]
      exact (ih hc hnodup.2 hmore hseen).cons (fun hlock => absurd hlock.readsAt hnot) fun a b => by
        simp [hnot]

omit hp in
theorem WellFormed.readers {E : Key → Key → Prop} (hc : Checks g c E) :
    (((c.find? w).map (·.successors .readsFrom)).getD []).Nodup ∧
      ∀ k, k ∈ ((c.find? w).map (·.successors .readsFrom)).getD [] ↔
        w ∈ g.order ∧ g.Out .readsFrom w k := by
  cases hw : c.find? w with
  | none =>
    refine ⟨List.nodup_nil, fun k => iff_of_false List.not_mem_nil ?_⟩
    rintro ⟨hmem, -⟩
    have hhas := hc.shaped.has (hc.order ▸ hmem)
    rw [Has, hw] at hhas
    cases hhas
  | some m =>
    refine ⟨List.nodup_iff_count_le_one.mpr fun k => ?_, fun k => ?_⟩
    · rw [Option.map_some, Option.getD_some, Node.successors,
        Edges.count_keys (hc.shaped.tidy.succ hw)]
      split <;> omega
    · rw [Option.map_some, Option.getD_some, mem_successors hw, hc.out_iff]
      constructor
      · rintro (⟨hw, -, hout⟩ | ⟨hr, -⟩)
        · exact ⟨hw, hout⟩
        · cases hr
      · rintro ⟨hw, hout⟩
        obtain ⟨loc', hread⟩ := h.reads (h.tidy.known hout)
        exact Or.inl ⟨hw, h.mem_of_readsAt hread, hout⟩

omit hp in
theorem WellFormed.mem_of_reader (hout : g.Out .readsFrom w k) : w ∈ g.order :=
  (h.mem_or_label (has_of_out hout)).resolve_right fun hlabel =>
    h.label_end hlabel (h.tidy.known hout)

omit hp in
theorem WellFormed.torn_cons (hws : loc ≠ .thread → w :: ks <:+ g.chain loc) :
    Torn g loc (w :: ks) ↔
      (∃ k, g.Out .readsFrom w k ∧ g.LocksAt k loc ∧ ks.head? ≠ some k.next) ∨ Torn g loc ks := by
  have hnot : ∀ {k}, g.LocksAt k loc → w ∉ ks := by
    intro k hlock
    have hthread := (h.source hlock.readsAt).1
    exact (List.nodup_cons.mp ((h.nodup_chain hthread).sublist (hws hthread).sublist)).1
  unfold Torn
  constructor
  · rintro ⟨w', hw', k, hout, hlock, hnext⟩
    rw [infix_cons_iff, not_or, not_and] at hnext
    rcases List.mem_cons.mp hw' with rfl | hw'
    · exact Or.inl ⟨k, hout, hlock, hnext.1 rfl⟩
    · exact Or.inr ⟨w', hw', k, hout, hlock, hnext.2⟩
  · rintro (⟨k, hout, hlock, hnext⟩ | ⟨w', hw', k, hout, hlock, hnext⟩)
    · refine ⟨w, List.mem_cons_self, k, hout, hlock, ?_⟩
      rw [infix_cons_iff, not_or, not_and]
      exact ⟨fun _ => hnext, fun hin => hnot hlock (hin.subset List.mem_cons_self)⟩
    · refine ⟨w', List.mem_cons_of_mem _ hw', k, hout, hlock, ?_⟩
      rw [infix_cons_iff, not_or, not_and]
      exact ⟨fun heq => absurd (heq ▸ hw') (hnot hlock), hnext⟩

/-- Checking a chain finds a torn pair, or orders the readers of every write before the next one. -/
theorem WellFormed.checkChain {E : Key → Key → Prop} (hc : Checks g c E) (loc : Location)
    (ks : List Key) (hws : loc ≠ .thread → ks <:+ g.chain loc) :
    Torn g loc ks ∧ Graph.checkChain loc ks c = .ok .inconsistent ∨
      ¬Torn g loc ks ∧ ∃ c', Graph.checkChain loc ks c = .ok (.consistent c') ∧
        Checks g c' fun a b => E a b ∨ Overwrites g loc ks a b := by
  induction ks generalizing c E with
  | nil => exact Or.inr ⟨by simp [Torn], c, rfl, hc.congr (by simp [Overwrites])⟩
  | cons w ks ih =>
    have hmore : loc ≠ .thread → ks <:+ g.chain loc :=
      fun hloc => (List.suffix_cons w ks).trans (hws hloc)
    obtain ⟨hnodup, hmem⟩ := h.readers (w := w) hc
    have hnext : loc ≠ .thread → ∀ v, ks.head? = some v → v ∈ g.order ∧ v ≠ .init := by
      intro hloc v hv
      have hadj : [w, v] <:+: g.chain loc :=
        (infix_cons_iff.mpr (Or.inl ⟨rfl, hv⟩)).trans (hws hloc).isInfix
      have hwrite := h.writesTo_of_adjacent hloc hadj
      exact ⟨h.mem_of_writesTo hwrite, h.ne_init_of_writesTo hwrite⟩
    have hreads : ∀ k ∈ ((c.find? w).map (·.successors .readsFrom)).getD [],
        ∃ loc', g.ReadsAt k loc' :=
      fun k hk => h.reads (h.tidy.known ((hmem k).mp hk).2)
    rw [Graph.checkChain]
    dsimp only [bind, Except.bind]
    rw [h.torn_cons hws]
    rcases h.checkReaders hp hc hnodup hreads hnext (Or.inl rfl) with
      ⟨⟨k, hk, hlock, htorn⟩, m, hres⟩ | ⟨hall, m, c', hle, hres, hc'⟩
    · rw [hres]
      exact Or.inl ⟨Or.inl ⟨k, ((hmem k).mp hk).2, hlock, htorn⟩, rfl⟩
    · rw [hres]
      dsimp only
      rw [if_neg (by omega)]
      -- no pair is torn at this write, so the rest of the chain decides
      have hwhole : ¬∃ k, g.Out .readsFrom w k ∧ g.LocksAt k loc ∧ ks.head? ≠ some k.next := by
        rintro ⟨k, hout, hlock, htorn⟩
        exact htorn (hall k ((hmem k).mpr ⟨h.mem_of_reader hout, hout⟩) hlock)
      rcases ih hc' hmore with ⟨htorn, hrest⟩ | ⟨htorn, c'', hrest, hc''⟩
      · exact Or.inl ⟨Or.inr htorn, hrest⟩
      · refine Or.inr ⟨not_or.mpr ⟨hwhole, htorn⟩, c'', hrest, hc''.congr fun a b => ?_⟩
        rw [or_assoc]
        refine or_congr_right ?_
        unfold Overwrites
        simp only [infix_cons_iff, hmem]
        constructor
        · rintro (⟨⟨hw, hout⟩, hread, hb⟩ | ⟨w', hadj, hout, hread⟩)
          · exact ⟨w, Or.inl ⟨rfl, hb⟩, hout, hread⟩
          · exact ⟨w', Or.inr hadj, hout, hread⟩
        · rintro ⟨w', ⟨rfl, hb⟩ | hadj, hout, hread⟩
          · exact Or.inl ⟨⟨h.mem_of_reader hout, hout⟩, hread, hb⟩
          · exact Or.inr ⟨w', hadj, hout, hread⟩

/-- Checking all chains finds a torn pair, or orders every read before the write that overwrites
what it saw. -/
theorem WellFormed.checkChains {E : Key → Key → Prop}
    {cs : List (Location × List Key)} (hc : Checks g c E) (hcs : ∀ d ∈ cs, d ∈ g.chains) :
    (∃ d ∈ cs, Torn g d.1 d.2) ∧ Graph.checkChains cs c = .ok .inconsistent ∨
      (∀ d ∈ cs, ¬Torn g d.1 d.2) ∧ ∃ c', Graph.checkChains cs c = .ok (.consistent c') ∧
        Checks g c' fun a b => E a b ∨ ∃ d ∈ cs, Overwrites g d.1 d.2 a b := by
  induction cs generalizing c E with
  | nil => exact Or.inr ⟨by simp, c, rfl, hc.congr (by simp)⟩
  | cons d cs ih =>
    obtain ⟨loc, ks⟩ := d
    have hchain := h.chain_of_mem (hcs _ List.mem_cons_self)
    rw [Graph.checkChains]
    dsimp only [bind, Except.bind]
    rcases h.checkChain hp hc loc ks (fun _ => hchain ▸ List.suffix_refl _) with
      ⟨htorn, hres⟩ | ⟨hwhole, c', hres, hc'⟩
    · rw [hres]
      exact Or.inl ⟨⟨_, List.mem_cons_self, htorn⟩, rfl⟩
    · rw [hres]
      dsimp only
      rcases ih hc' fun d hd => hcs d (List.mem_cons_of_mem _ hd) with ⟨⟨d, hd, htorn⟩, hrest⟩ |
        ⟨hall, c'', hrest, hc''⟩
      · exact Or.inl ⟨⟨d, List.mem_cons_of_mem _ hd, htorn⟩, hrest⟩
      · refine Or.inr ⟨?_, c'', hrest, hc''.congr fun a b => ?_⟩
        · intro d hd
          rcases List.mem_cons.mp hd with rfl | hd
          · exact hwhole
          · exact hall d hd
        · simp only [List.mem_cons, exists_eq_or_imp, or_assoc]

end Checking

/-! ### The copy that is sorted -/

/-- An event reads from a write, and another write to the location is the next one. -/
def FromRead (g : Graph) (a b : Key) : Prop := ∃ d ∈ g.chains, Overwrites g d.1 d.2 a b

/-- No exclusive read is torn from the write that completes it. -/
def Whole (g : Graph) : Prop := ∀ d ∈ g.chains, ¬Torn g d.1 d.2

section Sorting

variable (h : g.WellFormed)
include h

theorem WellFormed.fromRead_iff :
    g.FromRead a b ↔ ∃ loc w, [w, b] <:+: g.chain loc ∧ g.Out .readsFrom w a ∧ g.ReadsAt a loc := by
  constructor
  · rintro ⟨⟨loc, ks⟩, hd, w, hadj, hout, hread⟩
    exact ⟨loc, w, (h.chain_of_mem hd).symm ▸ hadj, hout, hread⟩
  · rintro ⟨loc, w, hadj, hout, hread⟩
    exact ⟨(loc, g.chain loc), mem_chains_of_mem (hadj.subset List.mem_cons_self), w, hadj,
      hout, hread⟩

theorem WellFormed.whole_iff :
    g.Whole ↔ ∀ {w k loc}, g.Out .readsFrom w k → g.LocksAt k loc →
    [w, k.next] <:+: g.chain loc := by
  constructor
  · intro hwhole w k loc hout hlock
    obtain ⟨hthread, w', hw', hsource⟩ := h.source hlock.readsAt
    obtain rfl := (hsource w).mp (h.tidy.known hout)
    by_contra hnot
    exact hwhole _ (mem_chains_of_mem hw') ⟨w, hw', k, hout, hlock, hnot⟩
  · rintro hall ⟨loc, ks⟩ hd ⟨w, -, k, hout, hlock, hnot⟩
    exact hnot (h.chain_of_mem hd ▸ hall hout hlock)

theorem Checks.formed {E : Key → Key → Prop} (hc : Checks g c E) : c.Formed := by
  have hlabel : ∀ k, c.isLabel k = false := by
    intro k
    rw [← Bool.not_eq_true, isLabel_iff_event?]
    rintro ⟨e, he, hblock⟩
    rw [hc.event] at he
    split at he
    · rename_i hk
      exact (h.mem_iff he).mp hk hblock
    · cases he
  have hhas : ∀ {k}, c.Has k ↔ k ∈ c.order := fun {k} =>
    ⟨fun hk => (hc.shaped.mem_or_label hk).resolve_right (by simp [hlabel]), hc.shaped.has⟩
  refine ⟨hc.shaped.tidy, hc.shaped.nodup, hc.shaped.first, ?_, fun _ => hlabel _, ?_, ?_,
    hc.shaped.no_cause, ?_⟩
  · intro k
    rw [hhas, hlabel]
    simp
  · intro k n _ hk
    rw [hlabel] at hk
    cases hk
  · intro r a b ha
    rw [hlabel] at ha
    cases ha
  · intro b hb hne
    have hb := hc.order ▸ hhas.mp hb
    obtain ⟨t, i, rfl⟩ := (h.key hb).resolve_left hne
    exact ⟨.programOrder, .prior t i, (hc.in_iff ..).mpr (Or.inl ⟨hb, h.linked (h.has hb)⟩)⟩

theorem Checks.mirrored {E : Key → Key → Prop} (hc : Checks g c E) : c.Mirrored := by
  intro r a b hin
  rw [hc.out_iff]
  rcases (hc.in_iff ..).mp hin with ⟨hb, hin⟩ | hE
  · have hout := h.mirrored _ _ _ hin
    have ha : a ∈ g.order :=
      (h.mem_or_label (has_of_out hout)).resolve_right fun hlabel => h.label_end hlabel hin
    exact Or.inl ⟨ha, hb, hout⟩
  · exact Or.inr hE

/-- The first event stands before all others when program order goes forward. -/
theorem WellFormed.before_init (hpo : ∀ {a b}, b ∈ g.order → g.In .programOrder a b → Before l a b)
    (hk : k ∈ g.order) (hne : k ≠ .init) : Before l .init k := by
  obtain ⟨t, i, rfl⟩ := (h.key hk).resolve_left hne
  induction i with
  | zero => exact hpo hk (h.linked (h.has hk))
  | succ i ih =>
    have hprior : Key.place t i ∈ g.order := h.mem_of_lt hk (Nat.lt_succ_self i)
    exact (ih hprior (Key.place_ne_init t i)).trans (hpo hk (h.linked (h.has hk)))

/-! ### Orders that keep the edges of the copy forward -/

/-- An order in which all edges of the copy go forward and the halves of every pair are
neighbours. -/
structure Keeps (g : Graph) (l : List Key) : Prop extends g.Linear l where
  fromRead : ∀ {a b}, g.FromRead a b → Before l a b
  pair : ∀ {k loc}, g.LocksAt k loc → [k, k.next] <:+: l

theorem Keeps.coherent (hl : Keeps g l) (hloc : loc ≠ .thread) :
    (g.chain loc).Pairwise (Before l) := by
  refine pairwise_of_adjacent Before.trans fun a b hab => ?_
  have hb := h.mem_of_writesTo (h.writesTo_of_adjacent hloc hab)
  exact hl.edge hb (h.coherency.mpr ⟨loc, hloc, hab⟩)

/-- **An order that keeps the edges explains the graph.** -/
theorem Keeps.explains (hl : Keeps g l) : g.Explains l where
  perm := hl.perm
  forward := fun _ => hl.edge
  coherent := hl.coherent h
  latest := by
    intro r w loc hread hin
    refine ⟨hl.edge (h.mem_of_readsAt hread) hin, fun v hv hvr => ?_⟩
    obtain ⟨hloc, w', hw', hsource⟩ := h.source hread
    obtain rfl := (hsource w).mp hin
    rcases before_total (h.written hv).2 hw' with rfl | hvw | hwv
    · exact Or.inl rfl
    · exact Or.inr (rel_of_before (hl.coherent h hloc) hvw)
    · -- the write would come after the one that overwrites what the read saw
      obtain ⟨x, hx, hxv⟩ := exists_infix_of_before (h.nodup_chain hloc) hwv
      have hrx := hl.fromRead (h.fromRead_iff.mpr ⟨loc, w, hx, h.mirrored _ _ _ hin, hread⟩)
      have hrv : Before l r v := hrx.trans_le (hxv.imp_right (rel_of_before (hl.coherent h hloc)))
      exact absurd hvr hrv.asymm
  undivided := by
    intro r v loc hlock _ hrv hvn
    have hnodup : l.Nodup := hl.perm.nodup_iff.mpr h.nodup
    exact hrv.asymm ((Before.of_adjacent hnodup (hl.pair hlock)).2 v hvn (Ne.symm hrv.ne))

theorem Keeps.head? (hl : Keeps g l) : l.head? = some .init := by
  have hinit : Key.init ∈ l := hl.perm.mem_iff.mpr h.init_mem
  cases l with
  | nil => cases hinit
  | cons k l =>
    by_contra hne
    have hk : k ≠ .init := fun heq => hne (congrArg some heq)
    have hbefore :=
      h.before_init (fun hb hin => hl.edge hb hin) (hl.perm.mem_iff.mp List.mem_cons_self) hk
    exact (before_cons.mp hbefore).1 rfl

variable (hp : g.Paired)
include hp

/-- The exclusive reads of a graph. -/
def lockReads (g : Graph) (k : Key) : Bool := (g.event? k).any fun e => e.kind.isExclusiveRead

omit h hp in
theorem lockReads_iff : g.lockReads k = true ↔ ∃ loc, g.LocksAt k loc := by
  unfold lockReads LocksAt
  rw [Option.any_eq_true]
  exact ⟨fun ⟨e, he, hex⟩ => ⟨_, e, he, hex, rfl⟩, fun ⟨_, e, he, hex, _⟩ => ⟨e, he, hex⟩⟩

/-- In a sorted copy every exclusive read is completed further down. -/
theorem Checks.completed (hc : Checks g c g.FromRead) {ns : List Node} (hs : Sorted c ns) :
    Completed g.lockReads ns := by
  have hevent : ∀ {n}, n ∈ ns → n.key ∈ g.order ∧ g.event? n.key = some n.event := by
    intro n hn
    have hmem := hc.order ▸ hs.mem.mp (List.mem_map_of_mem hn)
    refine ⟨hmem, ?_⟩
    rw [← hc.event_of_mem hmem, Graph.event?, hs.table n hn]
    rfl
  refine ⟨hs.nodup, fun {n} hn => ?_, fun {r} hr hex => ?_⟩
  · rw [lockReads, (hevent hn).2]
    rfl
  · obtain ⟨hr', hre⟩ := hevent hr
    obtain ⟨-, hnext, hin, hpair⟩ := h.completion hp.completed ⟨_, hre, hex, rfl⟩
    obtain ⟨w, hw, hkey⟩ := List.mem_map.mp (hs.mem.mpr (hc.order ▸ hnext))
    refine ⟨w, hw, hkey, hpair hre (hkey ▸ (hevent hw).2), ?_⟩
    rw [hkey]
    exact (hs.forward (hc.order ▸ hnext) ((hc.in_iff ..).mpr (Or.inl ⟨hnext, hin⟩))).1

/-- **Sorting the copy and placing pairs keeps the edges.** -/
theorem Checks.keeps (hc : Checks g c g.FromRead) (hwhole : g.Whole) {ns : List Node}
    (hs : Sorted c ns) : Keeps g ((placePairs ns [] ns).map (·.key)) := by
  have hcomp := hc.completed h hp hs
  have hhalved := hcomp.halved
  rw [map_key_placePairs hcomp]
  have hperm : (ns.map (·.key)).Perm g.order :=
    (List.perm_ext_iff_of_nodup hs.nodup h.nodup).mpr fun k => hc.order ▸ hs.mem
  have hpair : ∀ {k loc}, g.LocksAt k loc →
      [k, k.next] <:+: attach g.lockReads Key.next (ns.map (·.key)) := by
    intro k loc hlock
    exact infix_attach hhalved (hperm.mem_iff.mpr (h.mem_of_readsAt hlock.readsAt))
      (lockReads_iff.mpr ⟨loc, hlock⟩)
  have hnodup := nodup_attach hhalved
  have hedge : ∀ {r a b}, c.In r a b →
      Before (attach g.lockReads Key.next (ns.map (·.key))) a b := by
    intro r a b hin
    have hb : b ∈ c.order := by
      rcases (hc.in_iff ..).mp hin with ⟨hb, -⟩ | ⟨-, hfr⟩
      · exact hc.order ▸ hb
      · obtain ⟨loc, w, hadj, -, hread⟩ := h.fromRead_iff.mp hfr
        exact hc.order ▸ h.mem_of_writesTo (h.writesTo_of_adjacent (h.source hread).1 hadj)
    obtain ⟨hbefore, hout⟩ := hs.forward hb hin
    cases ha : g.lockReads a with
    | true =>
      -- the only edges out of an exclusive read are those to the write that completes it
      obtain ⟨loc, hlock⟩ := lockReads_iff.mp ha
      have hnext : b = a.next := by
        rcases (hc.out_iff ..).mp hout with ⟨-, -, hout⟩ | ⟨-, hfr⟩
        · exact (hp.alone hlock hout).2
        · obtain ⟨loc', w, hadj, hout, hread⟩ := h.fromRead_iff.mp hfr
          obtain rfl := hread.unique hlock.readsAt
          exact eq_of_adjacent (h.nodup_chain (h.source hread).1) hadj
            (h.whole_iff.mp hwhole hout hlock)
      exact hnext ▸ (Before.of_adjacent hnodup (hpair hlock)).1
    | false =>
      cases hb : g.lockReads b with
      | false => exact (before_attach ha hb).mpr hbefore
      | true =>
        obtain ⟨loc, hlock⟩ := lockReads_iff.mp hb
        have hsecond := hhalved.before hbefore.right_mem hb
        have hnext : Before (attach g.lockReads Key.next (ns.map (·.key))) a b.next :=
          (before_attach ha (hhalved.not_first hbefore.right_mem hb)).mpr (hbefore.trans hsecond)
        exact (Before.of_adjacent hnodup (hpair hlock)).2 a hnext hbefore.ne
  exact ⟨⟨(attach_perm hhalved).trans hperm,
    fun hb hin => hedge ((hc.in_iff ..).mpr (Or.inl ⟨hb, hin⟩))⟩,
    fun hfr => hedge ((hc.in_iff ..).mpr (Or.inr ⟨rfl, hfr⟩)), hpair⟩

/-! ### Explanations keep the edges of the copy forward -/

omit hp in
/-- In an explanation the next write comes after all reads of the one before. -/
theorem Explains.before_of_adjacent (hl : g.Explains l) (hread : g.ReadsAt a loc)
    (hin : g.In .readsFrom w a) (hadj : [w, b] <:+: g.chain loc) : Before l a b := by
  have hloc := (h.source hread).1
  have hwrite := h.writesTo_of_adjacent hloc hadj
  have hwb : Before l w b :=
    rel_of_before (hl.coherent hloc) (Interleaving.before_of_adjacent (h.nodup_chain hloc) hadj)
  have ha : a ∈ l := hl.perm.mem_iff.mpr (h.mem_of_readsAt hread)
  have hb : b ∈ l := hl.perm.mem_iff.mpr (h.mem_of_writesTo hwrite)
  have hne : a ≠ b := by
    rintro rfl
    exact hread.not_writesTo hwrite
  refine before_of_not_before ha hb hne fun hba => ?_
  rcases (hl.latest hread hin).2 b hwrite hba with rfl | hbw
  · exact Before.irrefl l b hwb
  · exact hwb.asymm hbw

/-- The halves of a pair are neighbours in the chain if an order explains the graph. -/
theorem Explains.whole (hl : g.Explains l) : g.Whole := by
  refine h.whole_iff.mpr fun {w k loc} hout hlock => ?_
  obtain ⟨-, hnext, hpo, -⟩ := h.completion hp.completed hlock
  have hread := hlock.readsAt
  have hin := h.tidy.known hout
  obtain ⟨hloc, w', hw', hsource⟩ := h.source hread
  obtain rfl := (hsource w).mp hin
  have hwrite : g.WritesTo k.next loc := by
    obtain ⟨e, he, hex, rfl⟩ := hlock
    obtain ⟨e', he', hpair, heq⟩ := hp.completed he hex
    refine ⟨e', he', ?_, heq⟩
    revert hpair
    generalize e.kind = r
    generalize e'.kind = w
    cases r <;> cases w <;> decide
  have hkn : Before l k k.next := hl.forward rfl hnext hpo
  have hwn : Before l w k.next := (hl.latest hread hin).1.trans hkn
  have hchain : Before (g.chain loc) w k.next := by
    refine before_of_not_before hw' (h.written hwrite).2 hwn.ne fun hnw => ?_
    exact hwn.asymm (rel_of_before (hl.coherent hloc) hnw)
  obtain ⟨x, hx, hxn⟩ := exists_infix_of_before (h.nodup_chain hloc) hchain
  rcases hxn with rfl | hxn
  · exact hx
  · -- a write in between would come between the halves
    have hkx := hl.before_of_adjacent h hread hin hx
    exact absurd (rel_of_before (hl.coherent hloc) hxn)
      (hl.undivided hlock (h.writesTo_of_adjacent hloc hx) hkx)

omit hp in
/-- The edges of the copy go up in an explanation. -/
theorem Explains.ranked (hl : g.Explains l) (hc : Checks g c g.FromRead) : c.Ranked l.idxOf := by
  intro r a b hin
  rcases (hc.in_iff ..).mp hin with ⟨hb, hin⟩ | ⟨-, hfr⟩
  · exact ((hl.linear h.toWired).edge hb hin).2
  · obtain ⟨loc, w, hadj, hout, hread⟩ := h.fromRead_iff.mp hfr
    exact (hl.before_of_adjacent h hread (h.tidy.known hout) hadj).2

/-! ### The check is exact -/

omit hp in
/-- What the check of a graph goes through: some pair is torn, or the copy is sorted, or nothing
sorts the copy. -/
theorem WellFormed.consistentOrder_steps (hp : g.Completes) :
    ¬g.Whole ∧ g.consistentOrder = .ok none ∨
      g.Whole ∧ ∃ c, Checks g c g.FromRead ∧
        ((∃ ns, g.consistentOrder = .ok (some (placePairs ns [] ns)) ∧ Sorted c ns) ∨
          g.consistentOrder = .ok none ∧ ∀ rank, ¬c.Ranked rank) := by
  rcases h.checkChains hp h.checks (fun d (hd : d ∈ g.chains) => hd) with ⟨⟨d, hd, htorn⟩, hres⟩ |
    ⟨hwhole, c, hres, hc⟩
  · refine Or.inl ⟨fun hwhole => hwhole d hd htorn, ?_⟩
    have hres : Graph.checkChains g.copy.chains g.copy = .ok .inconsistent := hres
    simp [consistentOrder, bind, Except.bind, hres, pure, Except.pure]
  · have hres : Graph.checkChains g.copy.chains g.copy = .ok (.consistent c) := hres
    have hc : Checks g c g.FromRead := hc.congr fun a b => by simp [FromRead]
    refine Or.inr ⟨hwhole, c, hc, ?_⟩
    rcases (hc.formed h).topologicalOrder_cases (hc.mirrored h) with
      ⟨ns, hsort, hs⟩ | ⟨⟨i, j, hcycle⟩, hrank⟩
    · exact Or.inl
        ⟨ns, by simp [consistentOrder, bind, Except.bind, hres, hsort, pure, Except.pure], hs⟩
    · exact Or.inr ⟨by simp [consistentOrder, bind, Except.bind, hres, hcycle, pure, Except.pure],
        hrank⟩

/-- What the check of a graph comes to: an order that keeps the edges, or no order explains the
graph. -/
theorem WellFormed.consistentOrder_cases :
    (∃ ns, g.consistentOrder = .ok (some ns) ∧ Keeps g (ns.map (·.key)) ∧
        ∀ n ∈ ns, g.event? n.key = some n.event) ∨
      g.consistentOrder = .ok none ∧ ¬∃ l, g.Explains l := by
  rcases h.consistentOrder_steps hp.completed with
    ⟨htorn, hnone⟩ | ⟨hwhole, c, hc, ⟨ns, hns, hs⟩ | ⟨hnone, hrank⟩⟩
  · exact Or.inr ⟨hnone, fun ⟨l, hl⟩ => htorn (hl.whole h hp)⟩
  · refine Or.inl ⟨placePairs ns [] ns, hns, hc.keeps h hp hwhole hs, fun n hn => ?_⟩
    have hn : n ∈ ns := (mem_of_mem_placePairs hn).resolve_right fun ⟨_, hnil⟩ =>
      List.not_mem_nil hnil
    have hmem := hc.order ▸ hs.mem.mp (List.mem_map_of_mem hn)
    rw [← hc.event_of_mem hmem, Graph.event?, hs.table n hn]
    rfl
  · exact Or.inr ⟨hnone, fun ⟨l, hl⟩ => hrank _ (hl.ranked h hc)⟩

omit hp in
/-- **In a graph that passes the check no pair is torn**, and all edges go up in some numbering of
the events, those from reads to the writes that overwrite what they saw included. -/
theorem WellFormed.ranked_of_consistentOrder (hp : g.Completes) {ns : List Node}
    (hns : g.consistentOrder = .ok (some ns)) :
    g.Whole ∧ ∃ rank : Key → Nat, (∀ {r a b}, b ∈ g.order → g.In r a b → rank a < rank b) ∧
      ∀ {a b}, g.FromRead a b → rank a < rank b := by
  rcases h.consistentOrder_steps hp with ⟨-, hnone⟩ | ⟨hwhole, c, hc, ⟨sorted, -, hs⟩ | ⟨hnone, -⟩⟩
  · rw [hns] at hnone
    cases hnone
  · refine ⟨hwhole, (sorted.map (·.key)).idxOf, fun hb hin => ?_, fun hfr => ?_⟩
    · exact (hs.forward (hc.order ▸ hb) ((hc.in_iff ..).mpr (Or.inl ⟨hb, hin⟩))).1.2
    · obtain ⟨loc, w, hadj, -, hread⟩ := h.fromRead_iff.mp hfr
      have hb := h.mem_of_writesTo (h.writesTo_of_adjacent (h.source hread).1 hadj)
      exact (hs.forward (hc.order ▸ hb) ((hc.in_iff ..).mpr (Or.inr ⟨rfl, hfr⟩))).1.2
  · rw [hns] at hnone
    cases hnone

/-- **The check of a graph is exactly sequential consistency.** It never fails, it finds an order
just when some order explains the graph, and the order that it finds is an explanation with the
first event in front and every exclusive read right before the write that completes it. -/
theorem consistentOrder_exact :
    (∃ o, g.consistentOrder = .ok o) ∧
      ((∃ ns, g.consistentOrder = .ok (some ns)) ↔ ∃ l, g.Explains l) ∧
      ∀ ns, g.consistentOrder = .ok (some ns) →
        g.Explains (ns.map (·.key)) ∧ (∀ n ∈ ns, g.event? n.key = some n.event) ∧
          (ns.map (·.key)).head? = some .init ∧
          ∀ {k loc}, g.LocksAt k loc → [k, k.next] <:+: ns.map (·.key) := by
  rcases h.consistentOrder_cases hp with ⟨ns, hns, hkeeps, hevent⟩ | ⟨hnone, hnot⟩
  · refine ⟨⟨_, hns⟩, iff_of_true ⟨ns, hns⟩ ⟨_, hkeeps.explains h⟩, fun ns' hns' => ?_⟩
    rw [hns] at hns'
    cases hns'
    exact ⟨hkeeps.explains h, hevent, hkeeps.head? h, hkeeps.pair⟩
  · refine ⟨⟨_, hnone⟩, iff_of_false ?_ hnot, fun ns hns => ?_⟩
    · rintro ⟨ns, hns⟩
      rw [hnone] at hns
      cases hns
    · rw [hnone] at hns
      cases hns

end Sorting

end Graph

end Interleaving
