import Interleaving.Proofs.Exploration.Ready

/-!
# Recording upholds the stack

Whatever event enters a live graph, the alternatives that it opens are ready. A read that sees the
last write may see an older one (`Interleaving.Graph.Newcomer.ready`), a write that has not taken
effect may do so before another one, and the proposals of backward revisits are applied to copies in
which the write has not taken effect either.

A new event of the program raises the bound on clocks a little; an event that is added again does
not, as there is room for it from the start (`Interleaving.Engine.Upholds.addAgain`).
-/

namespace Interleaving

variable {N M : Nat}

namespace Graph

variable {g g' : Graph} {k w read last : Key} {e : Event} {kind : Kind} {additional : List Event}

theorem Newcomer.isPlace (hk : g.Newcomer k e) : ∃ t n : Nat, k = .place t n :=
  hk.place.imp fun _ => Exists.imp fun _ => And.left

/-- **Behind an exclusive read there is room for the write that completes it.** -/
theorem Newcomer.admits (hk : g.Newcomer read e) (h : g.Live N)
    (hex : e.kind.isExclusiveRead = true) (hkind : kind.isExclusiveRead = false)
    (hblock : kind ≠ .block) : g.Admits (Event.new e.task kind e.location) N := by
  obtain ⟨t, i, rfl, htask⟩ := hk.place
  obtain ⟨e', he', hsame, hloc⟩ := hk.event
  have hroom := h.ample he' (hsame ▸ hex)
  have hread : e'.kind.isRead = true := by
    rw [hsame]
    revert hex
    generalize e.kind = kind
    cases kind <;> decide
  refine ⟨?_, hblock, fun _ => hloc ▸ h.located he' (Or.inl hread), fun {u n} hu hn => ?_,
    fun _ _ hpair => ?_⟩
  · show 0 ≤ e.task
    exact hk.task_nonneg
  · obtain rfl : t = u := Int.ofNat_inj.mp (htask.symm.trans hu)
    have hend : ¬i + 1 < n := fun hlt => h.next_not_mem hk.latest ((hn (i + 1)).mpr hlt)
    omega
  · rw [show (Event.new e.task kind e.location).kind = kind from rfl, hkind] at hpair
    cases hpair

/-- **A new read that sees the last write may see an older one.** -/
theorem Newcomer.ready (hk : g.Newcomer read e) (h : g.Live N) (hread : e.kind.isRead = true)
    (hlast : last = g.lastWrite e.location)
    (hw : w ∈ g.chain (g.locationOf read) ∧ g.lastWrite (g.locationOf read) ≠ w)
    (hlength : additional.length ≤ 1) (hadmits : ∀ e' ∈ additional, g.Admits e' N) :
    (Alternative.readFrom read w (g.setReadsFrom read last) additional).Ready N := by
  obtain ⟨hlive, m, hm, hkind, -, hsources⟩ :=
    h.setReadsFrom hk (hlast ▸ h.lastWrite_mem_order e.location)
  obtain ⟨hs, hr⟩ := hlive.toSteady.copy
  have horder : (g.setReadsFrom read last).order = g.order := link_order ..
  have hmem : read ∈ (g.setReadsFrom read last).order := horder ▸ hk.mem
  obtain ⟨m', hm'⟩ := hs.toShaped.find? (hr.order ▸ hmem)
  have hevent : (g.setReadsFrom read last).copy.event? read =
      (g.setReadsFrom read last).event? read := by
    rw [hlive.toShaped.event?_copy, if_pos hmem]
  have hsame : m'.event = m.event := by
    rw [event?, event?, hm, hm'] at hevent
    exact Option.some.inj hevent
  have hloc : (g.setReadsFrom read last).copy.locationOf read = g.locationOf read :=
    (locationOf_congr hevent).trans (locationOf_congr event?_link)
  have hsources' : m'.predecessors .readsFrom = [last] := by
    refine hs.toShaped.tidy.predecessors_eq hm' fun a => (hr.edge hmem).trans ?_
    rw [← mem_predecessors hm, hsources, List.mem_singleton]
  refine .readFrom (hlive.toSteady.poised_copy (horder ▸ hk.latest) hk.isPlace) hm' ?_ hsources' ?_
    ?_ hlength ?_
  · rw [Node.kind, hsame, ← Node.kind, hkind, hread]
  · rw [hlast, ← hk.locationOf]
    exact hw.2
  · rw [hloc, hr.chain, chain, chain?, setReadsFrom, link_chains, ← chain?, ← chain]
    exact hw.1
  · exact fun e' he' => (hadmits e' he').of_order (hr.order.trans horder)

theorem Live.trackNewcomer (h : g.Live N) (hw : g.Newcomer w e) : (g.trackCoherency w).Live N := by
  obtain ⟨t, n, rfl, -⟩ := hw.place
  exact (h.toSteady.trackCoherency h.resolved hw.mem (Or.inl (hw.untracked _))).1

end Graph

namespace Engine.Upholds

open Interleaving.Graph

variable {α β : Type} {g g' : Graph} {k w read own : Key} {e : Event} {ks reads : List Key}
  {views : List BackwardRevisit} {v : BackwardRevisit}

/-- **An event is added** for which there is room. -/
theorem addEvent (h : g.Live M) (hle : M ≤ N) (hroom : N < 2 ^ 62) (he : g.Receives e N) :
    Upholds N (Engine.onGraph (Graph.addEvent e)) g fun k g' =>
      g'.Live N ∧ g'.Newcomer k e ∧ ∀ loc, g'.lastWrite loc = g.lastWrite loc :=
  (onGraph _).mono fun _ _ hrun => h.addEvent hle hroom he hrun

theorem setReadsFrom (h : g.Live N) (hk : g.Newcomer read e) (hw : w ∈ g.order) :
    Upholds N (Engine.modifyGraph fun g => g.setReadsFrom read w) g fun _ g' =>
      g' = g.setReadsFrom read w ∧ g'.Live N :=
  (modifyGraph _).mono fun _ _ heq => ⟨heq, heq ▸ (h.setReadsFrom hk hw).1⟩

section Recording

variable (h : g.Live M) (hle : M ≤ N) (hroom : N < 2 ^ 62) (he : g.Receives e N)
include h hle hroom he

/-- **A read** of the program. -/
theorem recordRead (hkind : e.kind = .read ∨ e.kind = .readExclusive) :
    Upholds N (Engine.recordRead e) g fun _ g' => g'.Live N := by
  have hread : e.kind.isRead = true := by rcases hkind with heq | heq <;> rw [heq] <;> rfl
  refine (addEvent h hle hroom he).bind fun read g₁ ⟨h₁, hk, _⟩ => get fun a ha => ?_
  rw [ha]
  have hlast := h₁.lastWrite_mem_order e.location
  dsimp only
  split
  · exact (setReadsFrom h₁ hk hlast).mono fun _ _ => And.right
  · refine (setReadsFrom h₁ hk hlast).bind fun _ g₂ ⟨heq, h₂⟩ =>
      (pushEach fun w hw => ?_).mono fun _ _ heq => heq ▸ h₂
    rw [heq]
    refine hk.ready h₁ hread rfl (mem_of_mem_alternativeWrites h₁.toLaid (List.mem_reverse.mp hw))
      ?_ fun e' he' => ?_
    · split <;> simp
    · split at he'
      · rename_i hex
        rw [List.mem_singleton.mp he']
        exact hk.admits h₁ (by rw [hex]; rfl) rfl (by decide)
      · cases he'

/-- **The read of a lock acquisition**, of a lock that is free or held. -/
theorem recordLockRead (hkind : e.kind = .lockAcquireRead) :
    Upholds N (Engine.recordLockRead e) g fun _ g' => g'.Live N := by
  have hread : e.kind.isRead = true := by rw [hkind]; rfl
  refine get fun a ha => get fun b hb => ?_
  rw [ha, hb]
  dsimp only
  split
  · refine (modifyGraph _).bind fun _ g₁ heq => (requestBlock _).mono fun _ g₂ heq' => ?_
    rw [heq', heq]
    have hN : g.Live N := h.mono hle hroom
    exact hN.resembles (hN.toSteady.blockForLock he.task e.location)
  · refine (addEvent h hle hroom he).bind fun read g₁ ⟨h₁, hk, hlast⟩ => get fun a ha => ?_
    rw [ha, ← hlast]
    have hmem := h₁.lastWrite_mem_order e.location
    split
    · exact (setReadsFrom h₁ hk hmem).mono fun _ _ => And.right
    · refine (setReadsFrom h₁ hk hmem).bind fun _ g₂ ⟨heq, h₂⟩ =>
        (pushEach fun w hw => ?_).mono fun _ _ heq => heq ▸ h₂
      rw [heq]
      refine hk.ready h₁ hread rfl
        (mem_of_mem_alternativeLockWrites h₁.toLaid (List.mem_reverse.mp hw)) (by simp)
        fun e' he' => ?_
      rw [List.mem_singleton.mp he']
      exact hk.admits h₁ (by rw [hkind]; rfl) rfl (by decide)

/-- **A plain write** of the program. -/
theorem recordWrite : Upholds N (Engine.recordWrite e) g fun _ g' => g'.Live N := by
  refine (addEvent h hle hroom he).bind fun write g₁ ⟨h₁, hw, _⟩ =>
    (ask _).bind fun placings g₂ ⟨hks, heq⟩ => ?_
  subst heq
  refine (pushEach fun before hbefore =>
    h₁.toSteady.ready_before hw.latest hw.isPlace (Or.inl (hw.untracked _)) hks
    (List.mem_reverse.mp hbefore)).andThen ?_
  refine (ask _).bind fun reads g₂ ⟨hreads, heq⟩ => ?_
  subst heq
  refine (maximalRevisits h₁ hw (h₁.overtakes_of_potentialReads hw hreads)).bind fun views g₂ ⟨heq,
    hviews⟩ => ?_
  subst heq
  refine (pushRevisits (fun v hv => hviews v (List.mem_reverse.mp hv)) (Or.inl rfl)).andThen ?_
  exact (modifyGraph _).mono fun _ _ heq => heq ▸ h₁.trackNewcomer hw

end Recording

/-- The tasks of exclusive reads that are revisited are blocked. -/
theorem pushExclusiveRevisits (h : g.Live N) (hviews : ∀ v ∈ views, Offer v e N) :
    Upholds N (Engine.pushExclusiveRevisits views) g fun _ g' => g'.Live N := by
  induction views generalizing g with
  | nil => exact pure h
  | cons v views ih =>
    have hmore : ∀ v ∈ views, Offer v e N := fun v hv => hviews v (List.mem_cons_of_mem _ hv)
    have hview := hviews v List.mem_cons_self
    refine get fun a ha => ?_
    rw [ha]
    dsimp only
    split
    · rename_i hblock
      have htask : 0 ≤ v.read.task := by
        obtain ⟨t, n, hplace⟩ := hview.place
        rw [hplace]
        exact Int.natCast_nonneg t
      refine (modifyGraph _).bind fun _ g₁ heq =>
        (pushRevisit hview (Or.inl rfl)).andThen (ih ?_ hmore)
      rw [heq]
      exact h.resembles (h.toSteady.block htask (by simp_all))
    · exact (pushRevisit hview (Or.inl rfl)).andThen (ih h hmore)

section Recording

variable (h : g.Live M) (hle : M ≤ N) (hroom : N < 2 ^ 62) (he : g.Receives e N)
include h hle hroom he

/-- **The write of an atomic update.** -/
theorem recordExclusiveWrite : Upholds N (Engine.recordExclusiveWrite e) g fun _ g' =>
    g'.Live N := by
  refine (addEvent h hle hroom he).bind fun write g₁ ⟨h₁, hw, _⟩ =>
    (ask _).bind fun reads g₂ ⟨hreads, heq⟩ => ?_
  subst heq
  refine (maximalRevisits h₁ hw (h₁.overtakes_of_potentialReads hw hreads)).bind fun views g₂ ⟨heq,
    hviews⟩ => ?_
  subst heq
  refine (modifyGraph _).bind fun _ g₂ heq => ?_
  rw [heq]
  exact pushExclusiveRevisits (h₁.trackNewcomer hw) hviews

end Recording

/-- The lock read of a pair is only looked at. -/
theorem pairedLockRead (w : Key) : Upholds N (Engine.pairedLockRead w) g fun _ g' => g' = g := by
  refine get fun a ha => ?_
  dsimp only
  split
  · refine (ask _).bind fun read g₁ ⟨_, heq⟩ => ?_
    subst heq
    split
    · exact fun a y a' _ _ hrun => nomatch hrun
    · exact pure rfl
  · exact throw

/-- The revisits by which an acquisition overtakes others can all be applied; its mark changes
nothing about them. -/
theorem lockRevisits (h : g.Live N) (hw : g.Newcomer w e) (hreads : ∀ r ∈ reads, g.Overtakes w r) :
    Upholds N (Engine.lockRevisits w own reads) g fun views g' =>
      g'.Live N ∧ g'.Newcomer w e ∧ ∀ v ∈ views, Offer v e N := by
  induction reads generalizing g with
  | nil => exact pure ⟨h, hw, by simp⟩
  | cons r reads ih =>
    have hmore : ∀ r ∈ reads, g.Overtakes w r := fun r hr => hreads r (List.mem_cons_of_mem _ hr)
    refine get fun a ha => ?_
    rw [ha]
    cases hv : BackwardRevisit.new g w r with
    | error cause => exact throw
    | ok view =>
      dsimp only
      cases view.isMaximal with
      | error cause => exact throw
      | ok accepted =>
        cases accepted with
        | false => exact ih h hw hmore
        | true =>
          refine get fun b hb => ?_
          cases LockRevisit.isPossible b.graph r own with
          | error cause => exact throw
          | ok possible =>
            cases possible with
            | false => exact ih h hw hmore
            | true =>
              refine (modifyGraph _).bind fun _ g₁ heq => ?_
              subst heq
              have hmark := h.toSteady.markFinalLockWrite w
              have hs := hmark.1.toShaped
              refine (ih (h.resembles hmark) (hw.resembles hs hmark.2) fun r hr =>
                (hmore r hr).resembles hw.mem h.toShaped hs hmark.2).bind fun views g₂ ⟨h₂, hw₂,
                  hviews⟩ => ?_
              refine pure ⟨h₂, hw₂, fun v hmem => ?_⟩
              rcases List.mem_cons.mp hmem with rfl | hmem
              · exact (h.offer hw (hreads r List.mem_cons_self) hv).1.markFinal
              · exact hviews v hmem

section Recording

variable (h : g.Live M) (hle : M ≤ N) (hroom : N < 2 ^ 62) (he : g.Receives e N)
include h hle hroom he

/-- **The write of a lock acquisition**; there is none when the lock read found the lock held. -/
theorem recordLockWrite : Upholds N (Engine.recordLockWrite e) g fun _ g' => g'.Live N := by
  refine get fun a ha => ?_
  rw [ha]
  split
  · exact pure (h.mono hle hroom)
  · refine (addEvent h hle hroom he).bind fun write g₁ ⟨h₁, hw₁, _⟩ =>
      (modifyGraph _).bind fun _ g₂ heq => ?_
    have hacquire := h₁.toSteady.acquireLock e.location e.task
    rw [← heq] at hacquire
    have h₂ : g₂.Live N := h₁.resembles hacquire
    have hw₂ : g₂.Newcomer write e := hw₁.resembles hacquire.1.toShaped hacquire.2
    refine (ask _).bind fun reads g₃ ⟨hreads, heq'⟩ => ?_
    subst heq'
    split
    · exact (modifyGraph _).mono fun _ _ heq => heq ▸ h₂.trackNewcomer hw₂
    · refine (pairedLockRead write).bind fun own g₄ heq => ?_
      subst heq
      refine (lockRevisits h₂ hw₂ (h₂.overtakes_of_alternativeLockReads hw₂ hreads)).bind
        fun views g₅ ⟨h₅, hw₅, hviews⟩ => ?_
      refine (pushRevisits (fun v hv => hviews v (List.mem_reverse.mp hv)) (Or.inr rfl)).andThen ?_
      exact (modifyGraph _).mono fun _ _ heq => heq ▸ h₅.trackNewcomer hw₅

/-- **The release of a lock.** -/
theorem recordLockRelease : Upholds N (Engine.recordLockRelease e) g fun _ g' => g'.Live N := by
  refine (addEvent h hle hroom he).bind fun write g₁ ⟨h₁, hw, _⟩ =>
    (modifyGraph _).bind fun _ g₂ heq => ?_
  have hunblock := h₁.toSteady.unblockForLock e.location
  rw [← heq] at hunblock
  refine (modifyGraph _).mono fun _ _ heq => ?_
  rw [heq]
  exact (h₁.resembles hunblock).trackNewcomer (hw.resembles hunblock.1.toShaped hunblock.2)

/-- **An assumption.** -/
theorem recordAssume : Upholds N (Engine.recordAssume e) g fun _ g' => g'.Live N := by
  refine (addEvent h hle hroom he).bind fun k g₁ ⟨h₁, _, _⟩ => ?_
  split
  · exact (requestBlock _).mono fun _ _ heq => heq ▸ h₁
  · exact pure h₁

end Recording

/-- **An event of the life of a thread, or a marker.** It may learn what a label knows, which raises
the bound by one. -/
theorem recordMarker (h : g.Live M) (hle : M ≤ N) (hroom : N + 1 < 2 ^ 62) (he : g.Receives e N) :
    Upholds (N + 1) (Engine.recordMarker e) g fun _ g' => g'.Live (N + 1) := by
  have hN : N < 2 ^ 62 := Nat.lt_of_succ_lt hroom
  refine ((onGraph _).mono fun _ _ hrun => h.addEvent hle hN he hrun).bind fun k g₁ ⟨h₁,
    hk, _⟩ => ?_
  have hraise : ∀ {g : Graph}, g.Live N → g.Live (N + 1) := fun h => h.mono (Nat.le_succ N) hroom
  obtain ⟨t, n, rfl, -⟩ := hk.place
  split
  · refine (modifyGraph _).bind fun _ g₂ heq => ?_
    obtain ⟨h₂, horder⟩ := h₁.trackThreadCreates hk
    rw [← heq] at h₂ horder
    split
    · exact (changeGraph _).mono fun _ _ hg' => h₂.trackThreadStarts hroom (horder ▸ hk.latest) hg'
    · exact pure (hraise h₂)
  · exact (changeGraph _).mono fun _ _ hg' => h₁.trackThreadJoins hroom hk.latest hg'
  · exact pure (hraise h₁)

end Engine.Upholds

end Interleaving
