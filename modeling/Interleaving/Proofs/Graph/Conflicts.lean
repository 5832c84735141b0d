import Interleaving.Proofs.Graph.Consistency

/-!
# Orders that explain a graph

A graph has many orders that explain it, and all of them agree where it matters: what happens before
an event comes before it (`Interleaving.Graph.Linear.before_of_past`), and **two accesses to a
location one of which is a write are in the same order in all of them**
(`Interleaving.Graph.Explains.before_of_conflict`).
-/

namespace Interleaving.Graph

variable {g : Graph} {a b k : Key} {loc : Location} {l l' : List Key}

/-- What happens before an event comes before it in every order that keeps the edges forward. -/
theorem Linear.before_of_past (hl : g.Linear l) (h : g.Wired) (hb : b ∈ g.order) (hp : g.Past a b) :
    Before l a b := by
  induction hp with
  | single hab =>
    obtain ⟨r, -, hin⟩ := hab
    exact hl.edge hb hin
  | tail _ hbc ih =>
    obtain ⟨r, -, hin⟩ := hbc
    exact (ih (h.source_mem hin)).trans (hl.edge hb hin)

/-- An access to a location. -/
def Accesses (g : Graph) (k : Key) (loc : Location) : Prop := g.ReadsAt k loc ∨ g.WritesTo k loc

namespace Explains

variable (hl : g.Explains l) (hl' : g.Explains l')
include hl hl'

/-- What stands in a chain is in the order of the chain. -/
theorem before_of_chain (hloc : loc ≠ .thread) (ha : a ∈ g.chain loc) (hb : b ∈ g.chain loc)
    (hab : Before l a b) : Before l' a b := by
  rcases before_total ha hb with rfl | hchain | hchain
  · exact absurd hab (Before.irrefl l a)
  · exact rel_of_before (hl'.coherent hloc) hchain
  · exact absurd hab (rel_of_before (hl.coherent hloc) hchain).asymm

variable (h : g.WellFormed)
include h

/-- A read that comes before a write. -/
theorem before_of_read (ha : g.ReadsAt a loc) (hb : g.WritesTo b loc) (hab : Before l a b) :
    Before l' a b := by
  obtain ⟨hloc, w, hw, hsource⟩ := h.source ha
  have hin := (hsource w).mpr rfl
  have hwb := (hl.latest ha hin).1.trans hab
  refine before_of_not_before (hl'.perm.mem_iff.mpr (h.mem_of_readsAt ha))
    (hl'.perm.mem_iff.mpr (h.mem_of_writesTo hb)) hab.ne fun hba => ?_
  -- the read would see the write, or one behind it
  rcases (hl'.latest ha hin).2 b hb hba with rfl | hbw
  · exact Before.irrefl l b hwb
  · exact (hl'.before_of_chain hl hloc (h.written hb).2 hw hbw).asymm hwb

/-- A write that comes before a read. -/
theorem before_of_write (ha : g.WritesTo a loc) (hb : g.ReadsAt b loc) (hab : Before l a b) :
    Before l' a b := by
  obtain ⟨hloc, w, hw, hsource⟩ := h.source hb
  have hin := (hsource w).mpr rfl
  rcases (hl.latest hb hin).2 a ha hab with rfl | haw
  · exact (hl'.latest hb hin).1
  · exact (hl.before_of_chain hl' hloc (h.written ha).2 hw haw).trans (hl'.latest hb hin).1

/-- **Accesses that conflict are in the same order** in all orders that explain a graph. -/
theorem before_of_conflict (ha : g.Accesses a loc) (hb : g.Accesses b loc)
    (hw : g.WritesTo a loc ∨ g.WritesTo b loc) (hab : Before l a b) : Before l' a b := by
  rcases hw with ha | hb
  · rcases hb with hb | hb
    · exact hl.before_of_write hl' h ha hb hab
    · exact hl.before_of_chain hl' (h.written ha).1 (h.written ha).2 (h.written hb).2 hab
  · rcases ha with ha | ha
    · exact hl.before_of_read hl' h ha hb hab
    · exact hl.before_of_chain hl' (h.written ha).1 (h.written ha).2 (h.written hb).2 hab

end Explains

end Interleaving.Graph
