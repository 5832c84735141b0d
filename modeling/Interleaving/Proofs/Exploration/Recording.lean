import Interleaving.Proofs.Exploration.Revisits

/-!
# Recording does not break off

An event of a task that may take it is recorded (`Interleaving.Graph.Entry`), and this is what each
handler makes of the graph: the event enters with its edges, a write takes effect last, a task that
finds a lock held is blocked, and a release lets the waiting tasks go on. None of them breaks off.
-/

namespace Interleaving.Engine

open Interleaving.Graph

variable {g g' : Graph} {e : Event} {t n : Nat} {loc : Location} {l : List Key} {w : Key}

/-- The graph with a read that sees the last write to its location. -/
def readLast (g : Graph) (e : Event) (k : Key) : Graph :=
  (g.noted e).setReadsFrom k (g.lastWrite e.location)

/-- **A read** sees the last write. -/
theorem recordRead_brings (h : Entry g l e t n) :
    Brings (recordRead e) g fun _ g' => g' = readLast g e (.place t n) := by
  refine (Brings.onGraph h.addEvent).next (.get fun a ha => ?_)
  dsimp only
  rw [ha, h.lastWrite_noted]
  split
  · exact .modifyGraph _
  · exact (Brings.modifyGraph _).andThen (pushEach_brings _ _)

/-- **A write** takes effect last. -/
theorem recordWrite_brings (h : Entry g l e t n)
    (hw : (g.noted e).Writing (l ++ [.place t n]) (.place t n) e.location) :
    Brings (recordWrite e) g fun _ g' => g' = (g.noted e).trackCoherency (.place t n) := by
  obtain ⟨placings, hplacings⟩ := hw.coherentPlacings
  obtain ⟨reads, hreads, hall⟩ := hw.potentialReads
  refine (Brings.onGraph h.addEvent).next ((Brings.ask hplacings).next ?_)
  refine (pushEach_brings _ _).andThen ((Brings.ask hreads).next ?_)
  refine (maximalRevisits_brings hw fun r hr => ⟨(hall r hr).1, (hall r hr).2.1⟩).bind
    fun views g' hviews => ?_
  obtain ⟨rfl, hviews⟩ := hviews
  refine (pushRevisits_brings (fun v hv => (hviews v ?_).1) _).andThen (.modifyGraph _)
  exact List.mem_reverse.mp hv

/-- What a read shows in a copy. -/
theorem not_exclusive_copy (h : g.Wired) {r : Key} (hread : g.ReadsAt r loc)
    (hnot : ¬g.LocksAt r loc) :
    ((g.copy.kindOf? r).map (·.isExclusiveRead)).getD false = false := by
  have hmem := h.mem_of_readsAt hread
  obtain ⟨e, he, -, hloc⟩ := hread
  rw [kindOf?_congr (show g.copy.event? r = g.event? r by rw [h.event?_copy, if_pos hmem]),
    kindOf?_of_event? he]
  exact Bool.eq_false_iff.mpr fun hex => hnot ⟨e, he, hex, hloc⟩

/-- **The write of an atomic update** takes effect last. The read before it has seen the last write,
so no exclusive read is revisited, and no task is blocked. -/
theorem recordExclusiveWrite_brings (h : Entry g l e t n)
    (hw : (g.noted e).Writing (l ++ [.place t n]) (.place t n) e.location)
    (hp : (g.noted e).Paired) {own : Key} (hown : (g.noted e).In .programOrder own (.place t n))
    (hsource : (g.noted e).In .readsFrom ((g.noted e).lastWrite e.location) own) :
    Brings (recordExclusiveWrite e) g fun _ g' => g' = (g.noted e).trackCoherency (.place t n) := by
  obtain ⟨reads, hreads, hall⟩ := hw.potentialReads
  refine (Brings.onGraph h.addEvent).next ((Brings.ask hreads).next ?_)
  refine (maximalRevisits_brings hw fun r hr => ⟨(hall r hr).1, (hall r hr).2.1⟩).bind
    fun views g' hviews => ?_
  obtain ⟨rfl, hviews⟩ := hviews
  refine (Brings.modifyGraph _).andThen
    (pushExclusiveRevisits_brings fun v hv => ⟨(hviews v hv).1, ?_⟩)
  obtain ⟨-, hcopy, hmem⟩ := hviews v hv
  obtain ⟨hread, hnot, hsplit⟩ := hall v.read hmem
  rw [hcopy]
  exact not_exclusive_copy hw.toWired hread (hw.not_exclusive hp hown hsource hread hnot hsplit)

/-! ### Locks -/

/-- **An attempt at a lock that is held** blocks the task. -/
theorem recordLockRead_brings_held (hheld : g.Held e.location) :
    Brings (recordLockRead e) g fun _ g' => g' = g.blockForLock e.task e.location := by
  unfold Held at hheld
  refine .get fun a ha => .get fun b hb => ?_
  rw [ha, hb, if_pos hheld]
  exact (Brings.modifyGraph _).andThen (.requestBlock _)

/-- **The read of an acquisition** of a lock that is free sees the last write. -/
theorem recordLockRead_brings (h : Entry g l e t n) (hfree : ¬g.Held e.location) :
    Brings (recordLockRead e) g fun _ g' => g' = readLast g e (.place t n) := by
  unfold Held at hfree
  refine .get fun a ha => .get fun b hb => ?_
  rw [ha, hb, if_neg hfree]
  refine (Brings.onGraph h.addEvent).next (.get fun c hc => ?_)
  dsimp only
  rw [hc]
  split
  · exact .modifyGraph _
  · exact (Brings.modifyGraph _).andThen (pushEach_brings _ _)

/-- The lock read before a lock write is found. -/
theorem pairedLockRead_brings (h : g.Wired) {own : Key} {e₀ : Event} (hw : g.WritesTo w loc)
    (hown : g.In .programOrder own w) (he₀ : g.event? own = some e₀)
    (hkind : e₀.kind = .lockAcquireRead) (hloc : e₀.location = loc) :
    Brings (pairedLockRead w) g fun k g' => k = own ∧ g' = g := by
  obtain ⟨m, hm⟩ := h.find? (h.mem_of_writesTo hw)
  obtain ⟨t, i, rfl⟩ := (h.key (h.mem_of_writesTo hw)).resolve_left (h.ne_init_of_writesTo hw)
  have hpreds : m.predecessors .programOrder = [own] := by
    refine eq_singleton (Edges.nodup_keys (h.tidy.pred hm)) fun a => ?_
    rw [mem_predecessors hm]
    exact ⟨fun hin => (h.programOrder hin).trans (h.programOrder hown).symm, fun heq => heq ▸ hown⟩
  have hmem := h.source_mem hown
  obtain ⟨r, hr⟩ := h.find? hmem
  have hevent : r.event = e₀ := by
    rw [event?, hr] at he₀
    exact Option.some.inj he₀
  refine .get fun a ha => ?_
  dsimp only
  rw [ha, hm, Option.map_some, Option.getD_some, hpreds]
  refine (Brings.ask (h.node hmem hr)).next ?_
  have hsame : r.kind = .lockAcquireRead ∧ r.location = g.locationOf (.place t i) := by
    rw [locationOf_eq hw, Node.kind, Node.location, hevent]
    exact ⟨hkind, hloc⟩
  rw [if_neg (by simp [hsame])]
  exact .pure ⟨key_of_find? hr, rfl⟩

/-- **The write of an acquisition** takes effect last, and the other tasks that wait for the lock
are blocked. -/
theorem recordLockWrite_brings (h : Entry g l e t n)
    (hw : (g.noted e).Writing (l ++ [.place t n]) (.place t n) e.location) {own : Key} {e₀ : Event}
    (hown : (g.noted e).In .programOrder own (.place t n)) (he₀ : (g.noted e).event? own = some e₀)
    (hkind : e₀.kind = .lockAcquireRead) (hloc : e₀.location = e.location)
    (hwaiting : ∀ task ∈ (g.noted e).waitingFor e.location, 0 ≤ task) :
    Brings (recordLockWrite e) g fun _ g' => ∃ g'', Resembles (g.noted e) g'' ∧ g''.Wired ∧
      Awaits ((g.noted e).acquireLock e.location t) g'' ∧ g' = g''.trackCoherency (.place t n) := by
  obtain ⟨hr, -, -⟩ := hw.toWired.acquireLock t e.location hwaiting
  have hwired := hr.wired hw.toWired
  have hw' := hr.resembles.writing hw hwired
  have hmem := hw.source_mem hown
  have hown' := (hr.resembles.edge (hw.mem_of_writesTo hw.write)).mpr hown
  have he₀' := (hr.event _ hmem).trans he₀
  have hread : ((g.noted e).acquireLock e.location t).ReadsAt own e.location :=
    ⟨e₀, he₀', by rw [hkind]; rfl, hloc⟩
  obtain ⟨reads, hreads, hall⟩ := hw'.alternativeLockReads
  refine .get fun a ha => ?_
  rw [ha, h.task, if_neg (by simp [h.free])]
  refine (Brings.onGraph h.addEvent).next
    ((Brings.modifyGraph _).andThen ((Brings.ask hreads).next ?_))
  split
  · exact (Brings.modifyGraph _).mono fun _ _ heq =>
      ⟨_, hr.resembles, hwired, ⟨fun _ => rfl, fun _ => rfl⟩, heq⟩
  · refine (pairedLockRead_brings hwired hw'.write hown' he₀' hkind hloc).next ?_
    refine (lockRevisits_brings hw' hread hall).bind fun views g'' hviews => ?_
    obtain ⟨hr', hawaits, hwired', hviews⟩ := hviews
    refine (pushRevisits_brings (fun v hv => hviews v (List.mem_reverse.mp hv)) _).andThen ?_
    exact (Brings.modifyGraph _).mono fun _ _ heq =>
      ⟨_, hr.resembles.trans hr', hwired', hawaits, heq⟩

/-- **A task that is blocked** has no write to record. -/
theorem recordLockWrite_brings_blocked (hblocked : g.isBlocked e.task = true) :
    Brings (recordLockWrite e) g fun _ g' => g' = g := by
  refine .get fun a ha => ?_
  rw [ha, if_pos hblocked]
  exact .pure rfl

/-- **A release** takes effect last, and the tasks that wait for the lock go on. -/
theorem recordLockRelease_brings (h : Entry g l e t n) :
    Brings (recordLockRelease e) g fun _ g' =>
      g' = ((g.noted e).unblockForLock e.location).trackCoherency (.place t n) :=
  (Brings.onGraph h.addEvent).next ((Brings.modifyGraph _).andThen (.modifyGraph _))

/-! ### Markers -/

/-- **An assumption** enters by itself. -/
theorem recordAssume_brings (h : Entry g l e t n) :
    Brings (recordAssume e) g fun _ g' => g' = g.noted e := by
  refine (Brings.onGraph h.addEvent).next ?_
  split
  · exact .requestBlock _
  · exact .pure rfl

/-- **The end of a thread** enters by itself. -/
theorem recordMarker_brings_finish (h : Entry g l e t n) (hkind : e.kind = .threadFinish) :
    Brings (recordMarker e) g fun _ g' => g' = g.noted e := by
  refine (Brings.onGraph h.addEvent).next ?_
  rw [hkind]
  exact .pure rfl

/-- **The start of the main task** comes after the first event. -/
theorem recordMarker_brings_first (h : Entry g l e t n) (hkind : e.kind = .threadStart)
    (ht : t = 0) :
    Brings (recordMarker e) g fun _ g' => g' = (g.noted e).trackThreadCreates (.place t n) := by
  refine (Brings.onGraph h.addEvent).next ?_
  rw [hkind]
  refine (Brings.modifyGraph _).andThen ?_
  rw [if_neg (by rw [h.task, ht]; simp)]
  exact .pure rfl

/-- **The start of a thread** comes after the spawn. -/
theorem recordMarker_brings_start (h : Entry g l e t n) (hkind : e.kind = .threadStart) (ht : t ≠ 0)
    (hstart : ((g.noted e).trackThreadCreates (.place t n)).trackThreadStarts
      (.place t n) = .ok g') :
    Brings (recordMarker e) g fun _ g'' => g'' = g' := by
  refine (Brings.onGraph h.addEvent).next ?_
  rw [hkind]
  refine (Brings.modifyGraph _).andThen ?_
  rw [if_pos (by rw [h.task]; exact_mod_cast ht)]
  exact .changeGraph hstart

/-- **A join** comes after the end of the other task. -/
theorem recordMarker_brings_join (h : Entry g l e t n) (hkind : e.kind = .threadJoin)
    (hjoin : (g.noted e).trackThreadJoins (.place t n) = .ok g') :
    Brings (recordMarker e) g fun _ g'' => g'' = g' := by
  refine (Brings.onGraph h.addEvent).next ?_
  rw [hkind]
  exact .changeGraph hjoin

end Interleaving.Engine
