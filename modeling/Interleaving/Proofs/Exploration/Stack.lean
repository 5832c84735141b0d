import Interleaving.Proofs.Exploration.Calls
import Interleaving.Proofs.Graph.Stamps

/-!
# What waits on the stack

Alternatives are pushed by many hands: by a run that records a read or a write, by a backward
revisit that is spread, by an acquisition that is added again while another alternative is tried.
Each of them waits on the stack with a graph of its own until it is tried, perhaps many runs later.

Whatever calls the engine has seen, as long as none of them broke off, **every alternative on its
stack is sound** (`Interleaving.Engine.sound_of_calls`): it is about the latest event of its graph,
and the change that it proposes is one to that event (`Interleaving.Alternative.Sound`). So nothing
is taken out when it is tried, and no write gets into a chain twice
(`Interleaving.Alternative.Harmless`). The same holds in the middle of the choice of an alternative
(`Interleaving.Engine.Choosing`), where alternatives come and go.
-/

namespace Interleaving

variable {N fuel : Nat} {item : Alternative} {g g' : Graph} {k w : Key} {a b c : Engine}

/-! ### Sound alternatives -/

/-- **An alternative that is sound on its graph**: what it is about is the latest event there, no
chain lists anything twice, and the change that it proposes is one to that event. -/
structure Alternative.Sound (item : Alternative) (g : Graph) : Prop where
  graph : item.graph = some g
  known : item.kind ∈ Alternative.Kind.known
  first : ∃ m, g.node item.first = .ok m ∧ m.key = item.first
  latest : g.order.getLast? = some item.first
  chains : ∀ loc, (g.chain loc).Nodup
  /-- A read sees one write, and another one is in the chain. -/
  readFrom : item.kind = .readFrom → ∃ m source, g.node item.first = .ok m ∧ m.kind.isRead = true ∧
    m.predecessors .readsFrom = [source] ∧ source ≠ item.second ∧ item.second ∈ g.chain m.location
  /-- A write takes effect last or has not taken effect, and another one does not happen before
  it. -/
  writeBefore : item.kind = .writeBefore → item.second ∈ g.chain (g.locationOf item.first) ∧
    item.second.isInit = false ∧ g.happensBefore item.second item.first = false ∧
      (item.first ∉ g.chain (g.locationOf item.first) ∨
        (g.chain (g.locationOf item.first)).getLast? = some item.first)
  /-- A write takes effect last, and at most one event is to be added again. -/
  placed : item.kind = .writeLast ∨ item.kind = .backward ∨ item.kind = .lockBackward →
    item.additional.length ≤ 1 ∧ (g.chain (g.locationOf item.first)).getLast? = some item.first

/-- **An alternative that does no harm when it is tried**: once its change is made, nothing stands
after the event that it is about, and if that is a write, it is not put into a chain that lists
it. -/
structure Alternative.Harmless (item : Alternative) (g : Graph) : Prop where
  readFrom : item.kind = .readFrom → ∀ g', g.changeReadsFrom item.first item.second = .ok g' →
    g'.restrict item.first = .ok g'
  writeBefore : item.kind = .writeBefore →
    ∀ g', (g.trackCoherency item.first).swapCoherency item.first item.second = .ok g' →
    g'.restrict item.first = .ok g'
  writeLast : item.kind = .writeLast →
    (g.trackCoherency item.first).restrict item.first = .ok (g.trackCoherency item.first)
  tracked : item.kind ≠ .readFrom → ∀ loc, ((g.trackCoherency item.first).chain loc).Nodup

namespace Graph

/-- **A write is put into a chain once.** -/
theorem Laid.nodup_trackCoherency (h : g.Laid) (hne : w ≠ .init)
    (hplace : w ∉ g.chain (g.locationOf w) ∨ g.lastWrite (g.locationOf w) = w) (loc : Location) :
    ((g.trackCoherency w).chain loc).Nodup := by
  obtain ⟨ks, hks, hnodup, hnew⟩ : ∃ ks, (if (g.chain (g.locationOf w)).isEmpty then [.init] else
      g.chain (g.locationOf w)) = ks ∧ ks.Nodup ∧ (ks.getLast?.getD .init ≠ w → w ∉ ks) := by
    refine ⟨_, rfl, ?_⟩
    split
    · exact ⟨List.nodup_singleton _, fun _ hin => hne (List.mem_singleton.mp hin)⟩
    · exact ⟨h.nodup_chain _, hplace.resolve_right⟩
  unfold Graph.trackCoherency
  dsimp only
  rw [← locationOf, hks]
  split
  · rw [chain_setChain]
    split
    · exact hnodup
    · exact h.nodup_chain loc
  · rename_i hlast
    rw [chain, chain?, link_chains, ← chain?, ← chain, chain_setChain]
    split
    · refine List.nodup_append.mpr ⟨hnodup, List.nodup_singleton w, ?_⟩
      rintro x hx y hy rfl
      exact hnew hlast (List.mem_singleton.mp hy ▸ hx)
    · exact h.nodup_chain loc

variable (h : g.Poised k N)
include h

theorem Poised.node : ∃ m, g.find? k = some m ∧ g.node k = .ok m ∧ m.key = k := by
  obtain ⟨m, hm⟩ := h.toShaped.find? h.mem
  exact ⟨m, hm, h.toShaped.node h.mem hm, key_of_find? hm⟩

theorem Poised.getLast : g.order.getLast? = some k := by
  obtain ⟨o, ho⟩ := h.latest
  rw [ho, List.getLast?_concat]

/-- Nothing stands after the event in a graph with the same order. -/
theorem Poised.restrict (horder : g'.order = g.order) : g'.restrict k = .ok g' :=
  restrict_last (horder ▸ h.latest) (horder ▸ h.nodup)

end Graph

open Interleaving.Graph

theorem getLast_of_lastWrite {loc : Location} (h : w ∉ g.chain loc ∨ g.lastWrite loc = w)
    (hne : w ≠ .init) : w ∉ g.chain loc ∨ (g.chain loc).getLast? = some w := by
  refine h.imp_right fun hlast => ?_
  unfold lastWrite at hlast
  cases hget : (g.chain loc).getLast? with
  | none =>
    rw [hget] at hlast
    exact absurd hlast.symm hne
  | some x =>
    rw [hget] at hlast
    exact congrArg some hlast

/-- **An alternative that is ready is sound and does no harm.** -/
theorem Alternative.Ready.sound (h : item.Ready N) : ∃ g, item.Sound g ∧ item.Harmless g := by
  cases h with
  | @readFrom read write source g m additional graph find kind sources ne mem length admits =>
    obtain ⟨m', hm', hnode, hkey⟩ := graph.node
    obtain rfl : m' = m := Option.some.inj (hm'.symm.trans find)
    have hknown : Alternative.Kind.readFrom ∈ Alternative.Kind.known := by decide
    refine ⟨g, ⟨rfl, hknown, ⟨m', hnode, hkey⟩, graph.getLast, graph.nodup_chain,
      fun _ => ?_, by simp,
      by simp⟩, fun _ g' hg' =>
        graph.restrict (Inherits.changeReadsFrom hg').order, by simp, by simp,
      fun hne => absurd rfl hne⟩
    refine ⟨m', source, hnode, kind, sources, ne, ?_⟩
    rw [locationOf, find] at mem
    exact mem
  | @writeBefore moved before g graph mem ne not last =>
    obtain ⟨m, -, hnode, hkey⟩ := graph.node
    have hknown : Alternative.Kind.writeBefore ∈ Alternative.Kind.known := by decide
    have hinit : before.isInit = false := by
      obtain ⟨t, i, rfl⟩ :=
        (((graph.strung _).resolve_left (List.ne_nil_of_mem mem)).cases mem).resolve_left ne
      exact decide_eq_false (Int.not_lt.mpr (Int.natCast_nonneg t))
    refine ⟨g, ⟨rfl, hknown, ⟨m, hnode, hkey⟩, graph.getLast, graph.nodup_chain, by simp,
      fun _ => ⟨mem, hinit, not, getLast_of_lastWrite last graph.ne_init⟩, by simp⟩, by simp,
        fun _ g' hg' => ?_, by simp,
      fun _ => graph.nodup_trackCoherency graph.ne_init last⟩
    exact graph.restrict
      ((Inherits.swapCoherency hg').order.trans (Inherits.trackCoherency g moved).order)
  | @placed kind write g additional kinds graph counted last length admits =>
    obtain ⟨m, -, hnode, hkey⟩ := graph.node
    obtain ⟨ks, hks⟩ := last
    have hlast : (g.chain (g.locationOf write)).getLast? = some write := by
      rw [hks, List.getLast?_concat]
    have hknown : kind ∈ Alternative.Kind.known := by rcases kinds with rfl | rfl | rfl <;> decide
    refine ⟨g, ⟨rfl, hknown, ⟨m, hnode, hkey⟩, graph.getLast, graph.nodup_chain, ?_, ?_,
      fun _ => ⟨length, hlast⟩⟩, ?_, ?_,
      fun _ => graph.restrict (Inherits.trackCoherency g write).order,
      fun _ => graph.nodup_trackCoherency graph.ne_init (Or.inr (lastWrite_of_chain hks))⟩
    all_goals
      intro hkind
      rcases kinds with rfl | rfl | rfl <;> cases hkind

/-! ### Sound stacks -/

namespace Engine

/-- **An engine with a sound stack**: its alternatives are sound and do no harm, and no chain of its
graph lists anything twice. -/
structure Sound (a : Engine) : Prop where
  items : ∀ item ∈ a.agenda.items, ∃ g, item.Sound g ∧ item.Harmless g
  chains : ∀ loc, (a.graph.chain loc).Nodup

/-- The engine in the middle of the choice of an alternative: those that were taken off the stack
made no consistent graph. -/
inductive Choosing (a : Engine) : Engine → Prop
  | start : Choosing a a.choosing
  | next {b c : Engine} {item : Alternative} {agenda : Agenda} (h : Choosing a b)
      (hpop : b.agenda.pop? = some (item, agenda))
      (hrun : (process item).run (b.taken item agenda) = .ok none c) : Choosing a c

theorem Upright.sound (h : a.Upright N) : a.Sound :=
  ⟨fun item hitem => (h.items item hitem).sound, h.live.nodup_chain⟩

theorem Upright.of_choosing (h : a.Upright N) (hb : a.Choosing b) : b.Upright N := by
  induction hb with
  | start => exact h.choosing
  | next _ hpop hrun ih => exact ih.process hpop hrun

/-- **The stack is sound after any calls**, in whatever order, as long as none of them breaks off,
and it stays sound while the next alternative is chosen. The bound is far beyond what counts of
events can reach. -/
theorem sound_of_calls {calls : List Call} (hcalls : ∀ call ∈ calls, call.Observed)
    (hlength : calls.length < 2 ^ 60) (hperform : Engine.initial.performAll? fuel calls = some a) :
    a.Sound ∧ ∀ b, a.Choosing b → b.Sound := by
  have h := Upright.initial.performAll? (by omega) hcalls hperform
  exact ⟨h.sound, fun b hb => (h.of_choosing hb).sound⟩

theorem Call.observed_of_events {o : Observation} {e : Event} (ho : o.events = .ok [e]) :
    (Call.update e).Observed := by
  intro e' he'
  cases he'
  exact ⟨o, [e], ho, List.mem_singleton_self e⟩

/-- Two threads share a variable: one writes it before and after the other reads it. -/
def racing : List Call :=
  [.start 0, .update ((Event.new 0 .threadStart .thread).set Event.startedByName (.task (-1))),
    .update ((Event.new 1 .threadStart .thread).set Event.startedByName (.task 0)),
    .update (.new 0 .write 65537), .update (.new 1 .read 65537), .update (.new 0 .write 65537)]

theorem racing_observed : ∀ call ∈ racing, call.Observed := by
  have hwrite : (Call.update (.new 0 .write 65537)).Observed :=
    Call.observed_of_events (o := .memory 1 .write 65537) (by decide +kernel)
  simp only [racing, List.mem_cons, List.not_mem_nil, or_false]
  rintro call (rfl | rfl | rfl | rfl | rfl | rfl)
  · exact fun e he => nomatch he
  · exact Call.observed_of_events (o := .threadStart 1 0) (by decide +kernel)
  · exact Call.observed_of_events (o := .threadStart 2 1) (by decide +kernel)
  · exact hwrite
  · exact Call.observed_of_events (o := .memory 2 .read 65537) (by decide +kernel)
  · exact hwrite

/-- Afterwards the read may see the write that came after it, or none at all. -/
theorem sound_racing : racing.length < 2 ^ 60 ∧ ∃ a, Engine.initial.performAll? 0 racing = some a ∧
    a.agenda.items.map (·.kind) = [.backward, .readFrom] ∧ a.Sound ∧ ∀ b, a.Choosing b →
      b.Sound := by
  have hdone : (Engine.initial.performAll? 0 racing).map (fun a => a.agenda.items.map (·.kind)) =
      some [.backward, .readFrom] := by decide +kernel
  obtain ⟨a, ha, hkinds⟩ := Option.map_eq_some_iff.mp hdone
  exact ⟨by decide, a, ha, hkinds, sound_of_calls racing_observed (by decide) ha⟩

end Engine

end Interleaving
