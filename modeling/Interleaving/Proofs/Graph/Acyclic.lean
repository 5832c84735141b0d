import Interleaving.Proofs.Graph.Bare
import Interleaving.Proofs.Graph.Trimming

/-!
# Graphs without cycles

When the edges of a graph do not run in a cycle (`Interleaving.Graph.Acyclic`), the number of events
that come before an event is its **depth** (`Interleaving.Graph.depth`): it goes up along every
edge, and stays below the number of all events. The other way round, edges that go up in some
numbering do not run in a cycle (`Interleaving.Graph.Ranked.acyclic`).
-/

namespace Interleaving.Graph

variable {g : Graph} {a b k : Key} {rank : Key → Nat}

/-- An edge of any kind leads from one key to another one. -/
def Leads (g : Graph) (a b : Key) : Prop := ∃ r, g.In r a b

/-- **The edges of a graph do not run in a cycle.** -/
def Acyclic (g : Graph) : Prop := ∀ k, ¬Relation.TransGen g.Leads k k

theorem Ranked.lt_of_path (h : g.Ranked rank) (hab : Relation.TransGen g.Leads a b) :
    rank a < rank b := by
  induction hab with
  | single hab =>
    obtain ⟨r, hin⟩ := hab
    exact h r _ _ hin
  | tail _ hbc ih =>
    obtain ⟨r, hin⟩ := hbc
    exact ih.trans (h r _ _ hin)

theorem Ranked.acyclic (h : g.Ranked rank) : g.Acyclic :=
  fun _ hk => Nat.lt_irrefl _ (h.lt_of_path hk)

/-- Time is made of edges. -/
theorem Past.path (h : g.Past a b) : Relation.TransGen g.Leads a b :=
  Relation.TransGen.mono (fun _ _ hab => hab.imp fun _ hin => hin.2) _ _ h

/-- The number of events that come before one. -/
noncomputable def depth (g : Graph) (k : Key) : Nat := {a | Relation.TransGen g.Leads a k}.ncard

section Sources

variable (hsource : ∀ {r a b}, g.In r a b → a ∈ g.order)
include hsource

/-- What comes before something is an event. -/
theorem mem_of_path (hab : Relation.TransGen g.Leads a b) : a ∈ g.order := by
  obtain ⟨c, ⟨r, hin⟩, -⟩ := Relation.TransGen.head'_iff.mp hab
  exact hsource hin

theorem finite_path (k : Key) : {a | Relation.TransGen g.Leads a k}.Finite :=
  (List.finite_toSet g.order).subset fun _ ha => mem_of_path hsource ha

/-- **Depth goes up along paths.** -/
theorem depth_lt (hacyclic : g.Acyclic) (hab : Relation.TransGen g.Leads a b) :
    g.depth a < g.depth b := by
  refine Set.ncard_lt_ncard ⟨fun c hc => ?_, fun hsub => ?_⟩ (finite_path hsource b)
  · exact Relation.TransGen.trans hc hab
  · exact hacyclic a (hsub hab)

/-- Without a cycle the edges go up in some numbering. -/
theorem ranked_depth (hacyclic : g.Acyclic) : g.Ranked g.depth :=
  fun r _ _ hin => depth_lt hsource hacyclic (.single ⟨r, hin⟩)

end Sources

namespace Framed

variable (h : g.Framed)
include h

/-- The depth of an event is less than the number of all events. -/
theorem depth_lt_length (hacyclic : g.Acyclic) (hk : k ∈ g.order) : g.depth k < g.order.length := by
  have hlt : g.depth k < {a | a ∈ g.order}.ncard := by
    refine Set.ncard_lt_ncard ⟨fun c hc => mem_of_path h.source_mem hc,
      fun hsub => ?_⟩ (List.finite_toSet g.order)
    exact hacyclic k (hsub hk)
  refine hlt.trans_le ?_
  rw [← List.coe_toFinset, Set.ncard_coe_finset]
  exact List.toFinset_card_le _

/-- A graph without labels. -/
theorem bare (hlabel : ∀ k, g.isLabel k = false) : g.Bare where
  tidy := h.tidy
  mirrored := h.mirrored
  nodup := h.nodup
  first := h.first
  has_iff := by
    intro k
    refine ⟨fun hk => (h.mem_or_label hk).resolve_right ?_, h.has⟩
    rw [hlabel]
    exact Bool.false_ne_true
  label := hlabel
  key := h.key
  programOrder := fun hk => ⟨h.programOrder, fun heq => heq ▸ h.linked (h.has hk)⟩
  no_cause := h.no_cause

end Framed

end Interleaving.Graph
