import Interleaving.Graph.Schedule
import Interleaving.Proofs.Json.Reading

/-!
# Trace files are read back

Directives that are in order (`Interleaving.Directive.IsSound`) are read back from their trace file
as they were written (`Interleaving.Directive.decode_encode`). **A text that is accepted as a trace,
whoever wrote it, holds such directives**: whatever members a record has, in any order and any
number of times, its task is a word when it is read (`Interleaving.Directive.fits_ofJson?`), and the
first directive with a fault is reported (`Interleaving.Directive.isSound_of_decode`). So accepted
directives may be written and read again any number of times
(`Interleaving.Directive.traces_round_trip`).
-/

namespace Interleaving.Directive

/-- A directive that a trace file may hold: nothing is wrong with it, and its task is a word. -/
structure IsSound (d : Directive) : Prop where
  fault : d.fault? = none
  fits : Word.fits d.task = true

/-- The text of a directive is legible. -/
theorem legible_toJson (d : Directive) : Json.Legible 1 d.toJson := by
  refine .object fun m hm => ?_
  rw [List.mem_cons] at hm
  rcases hm with rfl | hm
  · exact .text _
  · split at hm
    · cases hm
    · rw [List.mem_singleton] at hm
      subst hm
      exact .number _

/-- A kind is known by its name. -/
theorem ofName_name {d : Directive} (h : d.fault? = none) : Kind.ofName d.kind.name = d.kind := by
  rcases d with ⟨_ | _ | _ | _ | name, task⟩
  · rfl
  · rfl
  · rfl
  · rfl
  · cases h

/-- A directive is read back. -/
theorem ofJson?_toJson {d : Directive} (h : d.IsSound) : ofJson? d.toJson = some d := by
  have hkind : Json.foldName "kind" = "kind" := by decide
  have htask : Json.foldName "task" = "task" := by decide
  have hint : Json.readInt? (.ofInt d.task) 0 = some d.task := Text.decimal?_decimal h.fits
  have hread : Json.readRecord? readField? d.toJson ("", 0) = some (d.kind.name, d.task) := by
    rw [toJson, Json.readRecord?]
    split
    · rename_i hzero
      simp [hkind, readField?, Json.readString?, hzero]
    · simp [hkind, htask, readField?, Json.readString?, hint]
  rw [ofJson?, hread]
  show some (⟨Kind.ofName d.kind.name, d.task⟩ : Directive) = some d
  rw [ofName_name h.fault]

/-- Sound directives have no fault. -/
theorem firstFault?_eq_none {ds : List Directive} (h : ∀ d ∈ ds, d.IsSound) (index : Nat) :
    firstFault? index ds = none := by
  induction ds generalizing index with
  | nil => rfl
  | cons d ds ih =>
    rw [firstFault?, (h d List.mem_cons_self).fault]
    exact ih (fun d hd => h d (List.mem_cons_of_mem _ hd)) _

/-- **A trace file is read back.** -/
theorem decode_encode {ds : List Directive} (h : ∀ d ∈ ds, d.IsSound) :
    decode (encode ds) = .ok ds := by
  have hlegible : Json.Legible 2 (.array (ds.map toJson)) := by
    refine .array fun v hv => ?_
    obtain ⟨d, -, rfl⟩ := List.mem_map.mp hv
    exact legible_toJson d
  have hitems : (ds.map toJson).mapM ofJson? = some ds := by
    clear hlegible
    induction ds with
    | nil => rfl
    | cons d ds ih =>
      rw [List.map_cons, List.mapM_cons, ofJson?_toJson (h d List.mem_cons_self),
        ih fun d hd => h d (List.mem_cons_of_mem _ hd)]
      rfl
  rw [decode, encode, Json.parse?_indented hlegible (by decide)]
  simp only [Option.bind_some, Json.readList?, hitems, Option.map_some, Option.getD_some,
    firstFault?_eq_none h]

/-! ### Accepted texts -/

/-- An integer that is read fits into a word. -/
theorem fits_readInt? {v : Json} {old n : Int} (hold : Word.fits old = true)
    (h : Json.readInt? v old = some n) : Word.fits n = true := by
  unfold Json.readInt? at h
  split at h
  · exact Option.some.inj h ▸ hold
  · exact (Option.filter_eq_some_iff.mp h).2
  · cases h

theorem fits_readField? {name : String} {v : Json} {old new : String × Int}
    (hold : Word.fits old.2 = true) (h : readField? name v old = some new) :
    Word.fits new.2 = true := by
  unfold readField? at h
  split at h
  · obtain ⟨s, -, rfl⟩ := Option.map_eq_some_iff.mp h
    exact hold
  · split at h
    · obtain ⟨n, hn, rfl⟩ := Option.map_eq_some_iff.mp h
      exact fits_readInt? hold hn
    · exact Option.some.inj h ▸ hold

/-- What the members of a record leave as the task is a word. -/
theorem fits_readRecord? {v : Json} {old new : String × Int} (hold : Word.fits old.2 = true)
    (h : Json.readRecord? readField? v old = some new) : Word.fits new.2 = true := by
  unfold Json.readRecord? at h
  split at h
  · exact Option.some.inj h ▸ hold
  · rename_i members
    induction members generalizing old with
    | nil => exact Option.some.inj h ▸ hold
    | cons m members ih =>
      rw [List.foldlM_cons] at h
      obtain ⟨next, hnext, hrest⟩ := Option.bind_eq_some_iff.mp h
      exact ih (fits_readField? hold hnext) hrest
  · cases h

/-- The task of a directive that is read fits into a word. -/
theorem fits_ofJson? {v : Json} {d : Directive} (h : ofJson? v = some d) :
    Word.fits d.task = true := by
  obtain ⟨read, hread, rfl⟩ := Option.map_eq_some_iff.mp h
  have hzero : Word.fits (("", 0) : String × Int).2 = true := by decide
  exact fits_readRecord? hzero hread

theorem fits_of_mapM {vs : List Json} {ds : List Directive} (h : vs.mapM ofJson? = some ds) :
    ∀ d ∈ ds, Word.fits d.task = true := by
  induction vs generalizing ds with
  | nil =>
    obtain rfl : [] = ds := Option.some.inj h
    exact fun d hd => absurd hd List.not_mem_nil
  | cons v vs ih =>
    rw [List.mapM_cons] at h
    obtain ⟨first, hfirst, h⟩ := Option.bind_eq_some_iff.mp h
    obtain ⟨rest, hrest, h⟩ := Option.bind_eq_some_iff.mp h
    obtain rfl : first :: rest = ds := Option.some.inj h
    exact List.forall_mem_cons.mpr ⟨fits_ofJson? hfirst, ih hrest⟩

theorem fits_of_readList? {v : Json}
    {ds? : Option (List Directive)} (h : Json.readList? ofJson? v = some ds?) :
    ∀ d ∈ ds?.getD [], Word.fits d.task = true := by
  unfold Json.readList? at h
  split at h
  · obtain rfl := Option.some.inj h
    exact fun d hd => absurd hd List.not_mem_nil
  · obtain ⟨ds, hds, rfl⟩ := Option.map_eq_some_iff.mp h
    exact fits_of_mapM hds
  · cases h

/-- Where no fault is found there is none. -/
theorem fault?_of_firstFault? {ds : List Directive} {index : Nat}
    (h : firstFault? index ds = none) :
    ∀ d ∈ ds, d.fault? = none := by
  induction ds generalizing index with
  | nil => exact fun d hd => absurd hd List.not_mem_nil
  | cons d ds ih =>
    rw [firstFault?] at h
    split at h
    · cases h
    · exact List.forall_mem_cons.mpr ⟨‹_›, ih h⟩

/-- **Directives of an accepted text are in order.** -/
theorem isSound_of_decode {s : String} {ds : List Directive} (h : decode s = .ok ds) :
    ∀ d ∈ ds, d.IsSound := by
  unfold decode at h
  split at h
  · cases h
  · rename_i ds? hread
    obtain ⟨v, -, hlist⟩ := Option.bind_eq_some_iff.mp hread
    dsimp only at h
    split at h
    · cases h
    · rename_i hfault
      obtain rfl := Except.ok.inj h
      exact fun d hd => ⟨fault?_of_firstFault? hfault d hd, fits_of_readList? hlist d hd⟩

/-- **Traces round trip.** Directives without a fault are read back from what they are written as. A
text that is accepted holds directives without a fault, which are the same when they are written and
read again. -/
theorem traces_round_trip (ds : List Directive) :
    ((∀ d ∈ ds, d.fault? = none ∧ Word.fits d.task = true) → decode (encode ds) = .ok ds) ∧
    ∀ s, decode s = .ok ds →
      (∀ d ∈ ds, d.fault? = none ∧ Word.fits d.task = true) ∧ decode (encode ds) = .ok ds := by
  refine ⟨fun h => decode_encode fun d hd => ⟨(h d hd).1, (h d hd).2⟩, fun s hs => ?_⟩
  have hsound := isSound_of_decode hs
  exact ⟨fun d hd => ⟨(hsound d hd).fault, (hsound d hd).fits⟩, decode_encode hsound⟩

/-- A trace that is laid out in another way than traces are written: other cases of names, a member
that comes again and is `null`, no line breaks. -/
def foreignTrace : String :=
  "[\x7b\"TASK\":1,\"Kind\":\"task\",\"task\":null\x7d,\x7b\"kind\":\"end\",\"task\":-7\x7d]"

/-- A trace that this library has not written is read, and what is written for it reads the same. -/
theorem round_trip_foreignTrace : decode foreignTrace = .ok [.run 1, ⟨.finish, -7⟩] ∧
    decode (encode [.run 1, ⟨.finish, -7⟩]) = .ok [.run 1, ⟨.finish, -7⟩] := by
  have hread : decode foreignTrace = .ok [.run 1, ⟨.finish, -7⟩] := by decide +kernel
  exact ⟨hread, ((traces_round_trip _).2 _ hread).2⟩

end Interleaving.Directive
