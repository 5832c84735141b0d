import Interleaving.Json.Parser
import Interleaving.Json.Printer
import Interleaving.Proofs.Text.Numeral
import Mathlib.Data.List.TakeDrop

/-!
# What is written is read back

A value whose numbers are numerals and whose nesting is not too deep (`Interleaving.Json.Legible`)
is read back from its text (`Interleaving.Json.parse?_compact`,
`Interleaving.Json.parse?_indented`). The leaves come first: white space, texts with their escapes,
and numbers, each followed by whatever stands behind it in the text.

Both texts of a value have the same tokens and differ in the white space between them. The proof is
made once for any such layout (`Interleaving.Json.Layout`, `Interleaving.Json.lay`).
-/

namespace Interleaving.Json

/-! ### White space -/

theorem skip_of_not_isSpace {c : Char} (h : isSpace c = false) (cs : List Char) :
    skip (c :: cs) = c :: cs := by
  simp [skip, h]

/-- White space in front of anything is skipped. -/
theorem skip_append {blanks : List Char} (h : ∀ c ∈ blanks, isSpace c = true) (cs : List Char) :
    skip (blanks ++ cs) = skip cs :=
  List.dropWhile_append_of_pos h

/-- The start of a line is white space. -/
theorem isSpace_of_mem_newline {depth : Nat} {c : Char} (h : c ∈ newline depth) :
    isSpace c = true := by
  rcases List.mem_cons.mp h with rfl | h
  · decide
  · rw [List.eq_of_mem_replicate h]
    decide

/-! ### Texts -/

theorem hexValue?_hexDigit {d : Nat} (h : d < 16) : hexValue? (Text.hexDigit d) = some d := by
  have hall : ∀ d : Fin 16, hexValue? (Text.hexDigit d) = some (d : Nat) := by decide
  exact hall ⟨d, h⟩

/-- Four digits in base sixteen are read back. -/
theorem readUnit?_hex {n : Nat} (h : n < 0x10000) (rest : List Char) :
    readUnit? (Text.hex 4 n ++ rest) = some (n, rest) := by
  have hdigit : ∀ m : Nat, hexValue? (Text.hexDigit (m % 16)) = some (m % 16) :=
    fun m => hexValue?_hexDigit (Nat.mod_lt _ (by decide))
  simp only [Text.hex, List.nil_append, List.cons_append, readUnit?, hdigit]
  simp only [Option.bind_eq_bind, Option.bind_some, Option.some.injEq, Prod.mk.injEq, and_true]
  omega

/-- A character that is written by its number is read back. -/
theorem readEscaped?_hex {c : Char} (h : c.toNat < 0x10000) (rest : List Char) :
    readEscaped? (Text.hex 4 c.toNat ++ rest) = some (c, rest) := by
  have hvalid : c.toNat < 0xd800 ∨ 0xe000 ≤ c.toNat := by
    rcases c.valid with h | h
    · exact Or.inl h
    · exact Or.inr h.1
  rw [readEscaped?, readUnit?_hex h, Option.map_some, Option.some.injEq]
  dsimp only
  rw [if_neg (by simp; omega), if_neg (by simp; omega), Char.ofNat_toNat]

theorem readTextFrom?_escapeChar (fuel : Nat) (read : List Char) (c : Char) (cs : List Char) :
    readTextFrom? (fuel + 1) read (escapeChar c ++ cs) = readTextFrom? fuel (c :: read) cs := by
  unfold escapeChar
  split
  · rename_i h
    rw [h]
    rfl
  split
  · rename_i h
    rw [h]
    rfl
  split
  · rename_i h
    rw [h]
    rfl
  split
  · rename_i h
    rw [h]
    rfl
  split
  · rename_i h
    rw [h]
    rfl
  split
  · rename_i h
    rw [← Char.ofNat_toNat c, h]
    rfl
  split
  · rename_i h
    rw [← Char.ofNat_toNat c, h]
    rfl
  split
  · rename_i h
    have hsmall : c.toNat < 0x10000 := by
      simp only [Bool.or_eq_true, decide_eq_true_eq] at h
      rcases h with ((((h | rfl) | rfl) | rfl) | h) | h
      · omega
      · decide
      · decide
      · decide
      · omega
      · omega
    conv_lhs => unfold readTextFrom?
    simp [readEscaped?_hex hsmall]
  · -- a character that stands for itself
    rename_i hquote hback _ _ _ _ _ h
    simp only [Bool.or_eq_true, decide_eq_true_eq, not_or] at h
    conv_lhs => unfold readTextFrom?
    rw [List.singleton_append]
    exact (if_neg hquote).trans ((if_neg hback).trans (if_neg h.1.1.1.1.1))

theorem readTextFrom?_write {fuel : Nat} {s : List Char} (h : s.length < fuel)
    (read rest : List Char) : readTextFrom? fuel read (s.flatMap escapeChar ++ '"' :: rest) =
      some (String.ofList (read.reverse ++ s), rest) := by
  induction s generalizing fuel read with
  | nil =>
    obtain ⟨fuel, rfl⟩ : ∃ n, fuel = n + 1 := ⟨fuel - 1, by simp at h; omega⟩
    simp [readTextFrom?]
  | cons c s ih =>
    obtain ⟨fuel, rfl⟩ : ∃ n, fuel = n + 1 := ⟨fuel - 1, by simp at h; omega⟩
    rw [List.flatMap_cons, List.append_assoc, readTextFrom?_escapeChar,
      ih (by simpa using h)]
    simp

/-- **A text is read back** from between its quotes. -/
theorem readText?_write (s : String) (rest : List Char) :
    readText? (s.toList.flatMap escapeChar ++ '"' :: rest) = some (s, rest) := by
  have hlength : ∀ cs : List Char, cs.length ≤ (cs.flatMap escapeChar).length := by
    intro cs
    induction cs with
    | nil => exact Nat.le_refl _
    | cons c cs ih =>
      have hpos : 1 ≤ (escapeChar c).length := by
        unfold escapeChar
        repeat' split
        all_goals simp
      rw [List.flatMap_cons, List.length_append, List.length_cons]
      omega
  rw [readText?, readTextFrom?_write]
  · simp
  · have := hlength s.toList
    simp only [List.length_append, List.length_cons]
    omega

/-! ### Numbers -/

/-- What may stand behind a number: nothing that would go on with it. -/
def EndsNumber (rest : List Char) : Prop :=
  ∀ c ∈ rest.head?, Text.isDigit c = false ∧ c ≠ '.' ∧ c ≠ 'e' ∧ c ≠ 'E'

theorem spanDigits_append {ds rest : List Char} (hds : ∀ c ∈ ds, Text.isDigit c = true)
    (hrest : EndsNumber rest) : spanDigits (ds ++ rest) = (ds, rest) := by
  rw [spanDigits, List.span_eq_takeWhile_dropWhile, List.takeWhile_append_of_pos hds,
    List.dropWhile_append_of_pos hds]
  cases rest with
  | nil => simp
  | cons c rest =>
    have hc := (hrest c rfl).1
    simp [hc]

/-- The first digit of a positive number is not zero. -/
theorem head_toDigits_ne_zero {n : Nat} (hn : 0 < n) (cs : List Char) :
    Nat.toDigits 10 n ≠ '0' :: cs := by
  induction n using Nat.strongRecOn generalizing cs with
  | ind n ih =>
    rcases Nat.lt_or_ge n 10 with h | h
    · rw [Nat.toDigits_of_lt_base h]
      have hall : ∀ d : Fin 10, 0 < (d : Nat) → (d : Nat).digitChar ≠ '0' := by decide
      intro heq
      exact hall ⟨n, h⟩ hn (List.cons.inj heq).1
    · rw [Nat.toDigits_of_base_le (by decide) h]
      obtain ⟨c, ds, hds⟩ := List.exists_cons_of_ne_nil (Text.toDigits_ne_nil (n / 10))
      intro heq
      rw [hds, List.cons_append] at heq
      rw [(List.cons.inj heq).1] at hds
      exact ih (n / 10) (by omega) (by omega) ds hds

theorem readWhole?_toDigits (n : Nat) {rest : List Char} (hrest : EndsNumber rest) :
    readWhole? (Nat.toDigits 10 n ++ rest) = some (Nat.toDigits 10 n, rest) := by
  rcases Nat.eq_zero_or_pos n with rfl | hn
  · rfl
  · have hspan : spanDigits (Nat.toDigits 10 n ++ rest) = (Nat.toDigits 10 n, rest) :=
      spanDigits_append (fun c hc => Text.isDigit_of_mem_toDigits hc) hrest
    obtain ⟨c, cs, hcs⟩ := List.exists_cons_of_ne_nil (Text.toDigits_ne_nil n)
    have hne : c ≠ '0' := by
      rintro rfl
      exact head_toDigits_ne_zero hn cs hcs
    rw [hcs, List.cons_append] at hspan ⊢
    rw [readWhole?]
    · rw [hspan]
    · intro cs' heq
      exact hne (List.cons.inj heq).1

theorem readMagnitude?_toDigits (n : Nat) {rest : List Char} (hrest : EndsNumber rest) :
    readMagnitude? (Nat.toDigits 10 n ++ rest) = some (Nat.toDigits 10 n, rest) := by
  have hfraction : readFraction? rest = some ([], rest) := by
    cases rest with
    | nil => rfl
    | cons c rest =>
      rw [readFraction?]
      intro cs heq
      exact (hrest c rfl).2.1 (List.cons.inj heq).1
  have hexponent : readExponent? rest = some ([], rest) := by
    cases rest with
    | nil => rfl
    | cons c rest =>
      obtain ⟨-, -, he, hE⟩ := hrest c rfl
      rw [readExponent?, if_neg (by simp [he, hE])]
  rw [readMagnitude?, readWhole?_toDigits n hrest]
  simp [hfraction, hexponent]

/-- **A numeral is read back.** -/
theorem readNumber?_decimal (n : Int) {rest : List Char} (hrest : EndsNumber rest) :
    readNumber? ((Text.decimal n).toList ++ rest) = some (Text.decimal n, rest) := by
  have hmagnitude := readMagnitude?_toDigits n.natAbs hrest
  have hlist := Text.toList_decimal n
  split at hlist
  · rw [hlist, List.cons_append, readNumber?, hmagnitude, Option.map_some]
    dsimp only
    rw [← hlist, String.ofList_toList]
  · obtain ⟨c, cs, hcs, hdigit⟩ := Text.exists_toDigits_eq_cons n.natAbs
    rw [hlist]
    rw [hcs, List.cons_append] at hmagnitude ⊢
    rw [readNumber?]
    · rw [hmagnitude, Option.map_some]
      dsimp only
      rw [← hcs, ← hlist, String.ofList_toList]
    · intro cs' heq
      rw [(List.cons.inj heq).1] at hdigit
      exact absurd hdigit (by decide)

/-! ### Layouts -/

/-- The white space of a text: in front of the items and members at a depth, and behind the colon of
a member. -/
structure Layout where
  gap : Nat → List Char
  pad : List Char
  gap_blank : ∀ {depth : Nat} {c : Char}, c ∈ gap depth → isSpace c = true
  pad_blank : ∀ {c : Char}, c ∈ pad → isSpace c = true

namespace Layout

/-- No white space. -/
def tight : Layout where
  gap _ := []
  pad := []
  gap_blank h := absurd h List.not_mem_nil
  pad_blank h := absurd h List.not_mem_nil

/-- One item or member a line. -/
def lines : Layout where
  gap := newline
  pad := [' ']
  gap_blank := isSpace_of_mem_newline
  pad_blank h := by
    rw [List.mem_singleton.mp h]
    decide

variable (l : Layout)

theorem skip_gap (depth : Nat) (cs : List Char) : skip (l.gap depth ++ cs) = skip cs :=
  skip_append (fun _ h => l.gap_blank h) cs

theorem skip_pad (cs : List Char) : skip (l.pad ++ cs) = skip cs :=
  skip_append (fun _ h => l.pad_blank h) cs

end Layout

mutual

/-- The value with the white space of a layout. -/
def lay (l : Layout) (depth : Nat) : Json → List Char
  | .array [] => ['[', ']']
  | .array (v :: vs) => '[' :: (l.gap (depth + 1) ++ (lay l (depth + 1) v ++ layItems l depth vs))
  | .object [] => ['\x7b', '\x7d']
  | .object ((name, v) :: ms) =>
    '\x7b' :: (l.gap (depth + 1) ++
      (writeText name ++ ':' :: (l.pad ++ (lay l (depth + 1) v ++ layMembers l depth ms))))
  | .null => ['n', 'u', 'l', 'l']
  | .bool true => ['t', 'r', 'u', 'e']
  | .bool false => ['f', 'a', 'l', 's', 'e']
  | .number literal => literal.toList
  | .text s => writeText s

/-- The items after the first, and the closing bracket. -/
def layItems (l : Layout) (depth : Nat) : List Json → List Char
  | [] => l.gap depth ++ [']']
  | v :: vs => ',' :: (l.gap (depth + 1) ++ (lay l (depth + 1) v ++ layItems l depth vs))

/-- The members after the first, and the closing brace. -/
def layMembers (l : Layout) (depth : Nat) : List (String × Json) → List Char
  | [] => l.gap depth ++ ['\x7d']
  | (name, v) :: ms =>
    ',' :: (l.gap (depth + 1) ++
      (writeText name ++ ':' :: (l.pad ++ (lay l (depth + 1) v ++ layMembers l depth ms))))

end

mutual

/-- The compact text has no white space. -/
theorem write_eq_lay (depth : Nat) : (v : Json) → write v = lay .tight depth v
  | .array [] => rfl
  | .array (v :: vs) => by
    rw [write, writeItems, lay, write_eq_lay (depth + 1) v, writeMoreItems_eq_lay depth vs]
    rfl
  | .object [] => rfl
  | .object ((name, v) :: ms) => by
    rw [write, writeMembers, lay, write_eq_lay (depth + 1) v, writeMoreMembers_eq_lay depth ms,
      List.append_assoc]
    rfl
  | .null => rfl
  | .bool true => rfl
  | .bool false => rfl
  | .number _ => rfl
  | .text _ => rfl

theorem writeMoreItems_eq_lay (depth : Nat) :
    (vs : List Json) → writeMoreItems vs = layItems .tight depth vs
  | [] => rfl
  | v :: vs => by
    rw [writeMoreItems, layItems, write_eq_lay (depth + 1) v, writeMoreItems_eq_lay depth vs]
    rfl

theorem writeMoreMembers_eq_lay (depth : Nat) :
    (ms : List (String × Json)) → writeMoreMembers ms = layMembers .tight depth ms
  | [] => rfl
  | (name, v) :: ms => by
    rw [writeMoreMembers, layMembers, write_eq_lay (depth + 1) v, writeMoreMembers_eq_lay depth ms]
    simp [Layout.tight]

end

mutual

/-- The indented text has one item or member a line. -/
theorem writeIndented_eq_lay (depth : Nat) : (v : Json) → writeIndented depth v = lay .lines depth v
  | .array [] => rfl
  | .array (v :: vs) => by
    rw [writeIndented, lay, writeIndented_eq_lay (depth + 1) v, indentItems_eq_lay depth vs]
    simp [Layout.lines]
  | .object [] => rfl
  | .object ((name, v) :: ms) => by
    rw [writeIndented, lay, writeIndented_eq_lay (depth + 1) v, indentMembers_eq_lay depth ms]
    simp [Layout.lines]
  | .null => rfl
  | .bool true => rfl
  | .bool false => rfl
  | .number _ => rfl
  | .text _ => rfl

theorem indentItems_eq_lay (depth : Nat) :
    (vs : List Json) → indentItems depth vs = layItems .lines depth vs
  | [] => rfl
  | v :: vs => by
    rw [indentItems, layItems, writeIndented_eq_lay (depth + 1) v, indentItems_eq_lay depth vs]
    simp [Layout.lines]

theorem indentMembers_eq_lay (depth : Nat) :
    (ms : List (String × Json)) → indentMembers depth ms = layMembers .lines depth ms
  | [] => rfl
  | (name, v) :: ms => by
    rw [indentMembers, layMembers, writeIndented_eq_lay (depth + 1) v,
      indentMembers_eq_lay depth ms]
    simp [Layout.lines]

end

/-! ### Values -/

/-- A value that can be read back: its numbers are numerals, and its nesting is at most the
number. -/
inductive Legible : Nat → Json → Prop
  | null {n : Nat} : Legible n .null
  | bool {n : Nat} (b : Bool) : Legible n (.bool b)
  | number {n : Nat} (i : Int) : Legible n (.ofInt i)
  | text {n : Nat} (s : String) : Legible n (.text s)
  | array {n : Nat} {items : List Json} (h : ∀ v ∈ items, Legible n v) :
      Legible (n + 1) (.array items)
  | object {n : Nat} {members : List (String × Json)} (h : ∀ m ∈ members, Legible n m.2) :
    Legible (n + 1) (.object members)

variable (l : Layout)

/-- The first character of a value is neither white space nor the end of an array. -/
theorem Legible.starts {n : Nat} {v : Json} (h : Legible n v) (depth : Nat) :
    ∃ c cs, lay l depth v = c :: cs ∧ isSpace c = false ∧ c ≠ ']' := by
  cases h with
  | null => exact ⟨_, _, rfl, by decide, by decide⟩
  | bool b => cases b <;> exact ⟨_, _, rfl, by decide, by decide⟩
  | text s => exact ⟨_, _, rfl, by decide, by decide⟩
  | number i =>
    have hlist : lay l depth (.ofInt i) = (Text.decimal i).toList := rfl
    rw [hlist, Text.toList_decimal]
    obtain ⟨c, cs, hcs, hdigit⟩ := Text.exists_toDigits_eq_cons i.natAbs
    split
    · exact ⟨_, _, rfl, by decide, by decide⟩
    · refine ⟨c, cs, hcs, ?_, ?_⟩
      · refine Bool.eq_false_iff.mpr fun hspace => ?_
        simp only [isSpace, Bool.or_eq_true, decide_eq_true_eq] at hspace
        rcases hspace with ((rfl | rfl) | rfl) | rfl <;> exact absurd hdigit (by decide)
      · rintro rfl
        exact absurd hdigit (by decide)
  | array h =>
    rename_i items
    cases items <;> exact ⟨_, _, rfl, by decide, by decide⟩
  | object h =>
    rename_i members
    cases members <;> exact ⟨_, _, rfl, by decide, by decide⟩

theorem Legible.skip {n : Nat} {v : Json} (h : Legible n v) (depth : Nat) (rest : List Char) :
    Json.skip (lay l depth v ++ rest) = lay l depth v ++ rest := by
  obtain ⟨c, cs, hcs, hspace, -⟩ := h.starts l depth
  rw [hcs, List.cons_append, skip_of_not_isSpace hspace]

/-- A value is read back wherever it stands, given enough fuel. -/
def ReadsBack (n : Nat) (v : Json) : Prop :=
  ∀ (level fuel depth : Nat) (rest : List Char), depth + n ≤ maxDepth → EndsNumber rest →
    2 * (lay l level v).length ≤ fuel →
    readValue? fuel depth (lay l level v ++ rest) = some (v, rest)

theorem endsNumber_cons {c : Char} (h : Text.isDigit c = false ∧ c ≠ '.' ∧ c ≠ 'e' ∧ c ≠ 'E')
    (rest : List Char) : EndsNumber (c :: rest) := by
  intro c' hc'
  rw [List.head?_cons, Option.mem_some_iff] at hc'
  exact hc' ▸ h

/-- No number goes on in the white space before a bracket. -/
theorem endsNumber_gap (depth : Nat) {rest : List Char} (h : EndsNumber rest) :
    EndsNumber (l.gap depth ++ rest) := by
  cases hgap : l.gap depth with
  | nil => exact h
  | cons c cs =>
    have hspace : isSpace c = true := l.gap_blank (hgap ▸ List.mem_cons_self)
    simp only [isSpace, Bool.or_eq_true, decide_eq_true_eq] at hspace
    refine endsNumber_cons ?_ _
    rcases hspace with ((rfl | rfl) | rfl) | rfl <;> decide

theorem endsNumber_layItems (depth : Nat) (vs : List Json) (rest : List Char) :
    EndsNumber (layItems l depth vs ++ rest) := by
  cases vs with
  | nil =>
    rw [layItems, List.append_assoc]
    exact endsNumber_gap l depth (endsNumber_cons (by decide) _)
  | cons v vs => exact endsNumber_cons (by decide) _

theorem endsNumber_layMembers (depth : Nat) (ms : List (String × Json)) (rest : List Char) :
    EndsNumber (layMembers l depth ms ++ rest) := by
  cases ms with
  | nil =>
    rw [layMembers, List.append_assoc]
    exact endsNumber_gap l depth (endsNumber_cons (by decide) _)
  | cons m ms => exact endsNumber_cons (by decide) _

theorem readItems?_lay {n : Nat} {v : Json} {vs : List Json} (hlegible : ∀ u ∈ v :: vs, Legible n u)
    (hread : ∀ u ∈ v :: vs, ReadsBack l n u) {level fuel depth : Nat}
    (hdepth : depth + n ≤ maxDepth) (read : List Json) (rest : List Char)
    (hfuel : 2 * ((lay l (level + 1) v).length + (layItems l level vs).length) ≤ fuel) :
    readItems? fuel depth read (lay l (level + 1) v ++ (layItems l level vs ++ rest)) =
      some (.array (read.reverse ++ v :: vs), rest) := by
  induction vs generalizing v fuel read with
  | nil =>
    have hend : layItems l level [] = l.gap level ++ [']'] := rfl
    have hpos : 0 < (layItems l level []).length := by simp [hend]
    obtain ⟨fuel, rfl⟩ : ∃ k, fuel = k + 1 := ⟨fuel - 1, by omega⟩
    have hv := hread v List.mem_cons_self (level + 1) fuel depth
      (layItems l level [] ++ rest) hdepth (endsNumber_layItems l level [] rest) (by omega)
    rw [readItems?, hv]
    dsimp only
    rw [hend, List.append_assoc, l.skip_gap, List.singleton_append, skip_of_not_isSpace (by decide)]
    simp
  | cons v' vs ih =>
    have hmore : layItems l level (v' :: vs) ++ rest =
        ',' :: (l.gap (level + 1) ++ (lay l (level + 1) v' ++ (layItems l level vs ++ rest))) := by
      rw [layItems]
      simp
    have hlength : (layItems l level vs).length + (lay l (level + 1) v').length + 1 ≤
        (layItems l level (v' :: vs)).length := by
      rw [layItems]
      simp only [List.length_cons, List.length_append]
      omega
    obtain ⟨fuel, rfl⟩ : ∃ k, fuel = k + 1 := ⟨fuel - 1, by omega⟩
    have hv := hread v List.mem_cons_self (level + 1) fuel depth
      (layItems l level (v' :: vs) ++ rest) hdepth (endsNumber_layItems l level _ rest) (by omega)
    rw [readItems?, hv]
    dsimp only
    rw [hmore, skip_of_not_isSpace (by decide)]
    show readItems? fuel depth (v :: read) (Json.skip (l.gap (level + 1) ++ _)) = _
    rw [l.skip_gap, (hlegible v' (by simp)).skip,
      ih (fun u hu => hlegible u (List.mem_cons_of_mem _ hu))
        (fun u hu => hread u (List.mem_cons_of_mem _ hu)) (v :: read) (by omega)]
    simp

theorem writeText_append (s : String) (rest : List Char) :
    writeText s ++ rest = '"' :: (s.toList.flatMap escapeChar ++ '"' :: rest) := by
  simp [writeText]

section Member

variable {n : Nat} {v : Json} (hlegible : Legible n v) {level fuel depth : Nat} (name : String)
  (read : List (String × Json)) {rest rest' : List Char}
  (hv : readValue? fuel depth (lay l level v ++ rest) = some (v, rest))

include hlegible hv

/-- A member with a comma behind it is followed by another one. -/
theorem readMembers?_of_comma (hrest : Json.skip rest = ',' :: rest') :
    readMembers? (fuel + 1) depth read
      (writeText name ++ ':' :: (l.pad ++ (lay l level v ++ rest))) =
        readMembers? fuel depth ((name, v) :: read) (Json.skip rest') := by
  have hcolon : isSpace ':' = false := by decide
  rw [writeText_append, readMembers?]
  simp only [readText?_write, skip_of_not_isSpace hcolon, l.skip_pad, hlegible.skip, hv, hrest]

/-- A member with a brace behind it is the last one. -/
theorem readMembers?_of_brace (hrest : Json.skip rest = '\x7d' :: rest') :
    readMembers? (fuel + 1) depth read
      (writeText name ++ ':' :: (l.pad ++ (lay l level v ++ rest))) =
        some (.object ((name, v) :: read).reverse, rest') := by
  have hcolon : isSpace ':' = false := by decide
  rw [writeText_append, readMembers?]
  simp only [readText?_write, skip_of_not_isSpace hcolon, l.skip_pad, hlegible.skip, hv, hrest]

end Member

theorem readMembers?_lay {n : Nat} {m : String × Json} {ms : List (String × Json)}
    (hlegible : ∀ u ∈ m :: ms, Legible n u.2) (hread : ∀ u ∈ m :: ms, ReadsBack l n u.2)
    {level fuel depth : Nat} (hdepth : depth + n ≤ maxDepth) (read : List (String × Json))
    (rest : List Char)
    (hfuel : 2 * ((lay l (level + 1) m.2).length + (layMembers l level ms).length) ≤ fuel) :
    readMembers? fuel depth read (writeText m.1 ++ ':' ::
        (l.pad ++ (lay l (level + 1) m.2 ++ (layMembers l level ms ++ rest)))) =
      some (.object (read.reverse ++ m :: ms), rest) := by
  induction ms generalizing m fuel read with
  | nil =>
    have hend : layMembers l level [] = l.gap level ++ ['\x7d'] := rfl
    have hpos : 0 < (layMembers l level []).length := by simp [hend]
    obtain ⟨fuel, rfl⟩ : ∃ k, fuel = k + 1 := ⟨fuel - 1, by omega⟩
    have hv := hread m List.mem_cons_self (level + 1) fuel depth (layMembers l level [] ++ rest)
      hdepth (endsNumber_layMembers l level [] rest) (by omega)
    have hbrace : Json.skip (layMembers l level [] ++ rest) = '\x7d' :: rest := by
      rw [hend, List.append_assoc, l.skip_gap, List.singleton_append,
        skip_of_not_isSpace (by decide)]
    rw [readMembers?_of_brace l (hlegible m List.mem_cons_self) m.1 read hv hbrace]
    simp
  | cons m' ms ih =>
    have hmore : layMembers l level (m' :: ms) ++ rest =
        ',' :: (l.gap (level + 1) ++ (writeText m'.1 ++
          ':' :: (l.pad ++ (lay l (level + 1) m'.2 ++ (layMembers l level ms ++ rest))))) := by
      rw [layMembers]
      simp
    have hlength : (layMembers l level ms).length + (lay l (level + 1) m'.2).length + 1 ≤
        (layMembers l level (m' :: ms)).length := by
      rw [layMembers]
      simp only [List.length_cons, List.length_append]
      omega
    obtain ⟨fuel, rfl⟩ : ∃ k, fuel = k + 1 := ⟨fuel - 1, by omega⟩
    have hv := hread m List.mem_cons_self (level + 1) fuel depth
      (layMembers l level (m' :: ms) ++ rest) hdepth
      (endsNumber_layMembers l level _ rest) (by omega)
    have hquote : ∀ cs, Json.skip (writeText m'.1 ++ cs) = writeText m'.1 ++ cs := by
      intro cs
      rw [writeText_append, skip_of_not_isSpace (by decide)]
    have hcomma : Json.skip (layMembers l level (m' :: ms) ++ rest) =
        layMembers l level (m' :: ms) ++ rest := by
      rw [hmore]
      exact skip_of_not_isSpace (by decide) _
    rw [readMembers?_of_comma l (hlegible m List.mem_cons_self) m.1 read hv (hcomma.trans hmore),
      l.skip_gap, hquote,
      ih (fun u hu => hlegible u (List.mem_cons_of_mem _ hu))
        (fun u hu => hread u (List.mem_cons_of_mem _ hu)) (m :: read) (by omega)]
    simp

/-- A value that starts like a number is one. -/
theorem readValue?_number {c : Char} (hc : c = '-' ∨ Text.isDigit c = true) (fuel depth : Nat)
    (cs : List Char) : readValue? (fuel + 1) depth (c :: cs) =
      (readNumber? (c :: cs)).map fun r => (.number r.1, r.2) := by
  have hne : ∀ x, x ∈ ['n', 't', 'f', '"', '[', '\x7b'] → c ≠ x := by
    rintro x hx rfl
    rcases hc with rfl | hc
    · revert hx
      decide
    · revert hc
      simp only [List.mem_cons, List.not_mem_nil, or_false] at hx
      rcases hx with rfl | rfl | rfl | rfl | rfl | rfl <;> decide
  rw [readValue?]
  · intro rest heq
    exact hne 'n' (by simp) (List.cons.inj heq).1
  · intro rest heq
    exact hne 't' (by simp) (List.cons.inj heq).1
  · intro rest heq
    exact hne 'f' (by simp) (List.cons.inj heq).1
  · intro rest heq
    exact hne '"' (by simp) (List.cons.inj heq).1
  · intro rest heq
    exact hne '[' (by simp) (List.cons.inj heq).1
  · intro rest heq
    exact hne '\x7b' (by simp) (List.cons.inj heq).1

/-- **A legible value is read back.** -/
theorem Legible.readsBack {n : Nat} {v : Json} (h : Legible n v) : ReadsBack l n v := by
  induction h with
  | null =>
    intro level fuel depth rest _ _ hfuel
    obtain ⟨fuel, rfl⟩ : ∃ k, fuel = k + 1 := ⟨fuel - 1, by simp [lay] at hfuel; omega⟩
    rfl
  | bool b =>
    intro level fuel depth rest _ _ hfuel
    cases b <;>
    · obtain ⟨fuel, rfl⟩ : ∃ k, fuel = k + 1 := ⟨fuel - 1, by simp [lay] at hfuel; omega⟩
      rfl
  | text s =>
    intro level fuel depth rest _ _ hfuel
    obtain ⟨fuel, rfl⟩ : ∃ k, fuel = k + 1 := ⟨fuel - 1, by simp [lay, writeText] at hfuel; omega⟩
    have hlist : lay l level (.text s) = writeText s := rfl
    rw [hlist, writeText_append, readValue?]
    simp [readText?_write]
  | number i =>
    intro level fuel depth rest _ hrest hfuel
    have hlist : lay l level (.ofInt i) = (Text.decimal i).toList := rfl
    have hnumber := readNumber?_decimal i hrest
    -- its first character tells that it is a number
    obtain ⟨c, cs, hcs, hc⟩ : ∃ c cs, (Text.decimal i).toList = c :: cs ∧
        (c = '-' ∨ Text.isDigit c = true) := by
      rw [Text.toList_decimal]
      obtain ⟨c, cs, hcs, hdigit⟩ := Text.exists_toDigits_eq_cons i.natAbs
      split
      · exact ⟨_, _, rfl, Or.inl rfl⟩
      · exact ⟨c, cs, hcs, Or.inr hdigit⟩
    rw [hlist, hcs] at hfuel ⊢
    rw [hcs] at hnumber
    obtain ⟨fuel, rfl⟩ : ∃ k, fuel = k + 1 := ⟨fuel - 1, by simp at hfuel; omega⟩
    rw [List.cons_append] at hnumber ⊢
    rw [readValue?_number hc, hnumber]
    rfl
  | array h ih =>
    rename_i n items
    intro level fuel depth rest hdepth _ hfuel
    have hnot : ¬depth ≥ maxDepth := by omega
    cases items with
    | nil =>
      obtain ⟨fuel, rfl⟩ : ∃ k, fuel = k + 1 := ⟨fuel - 1, by simp [lay] at hfuel; omega⟩
      rw [lay, List.cons_append, readValue?, if_neg hnot]
      rfl
    | cons v vs =>
      have hlist : lay l level (.array (v :: vs)) ++ rest = '[' :: (l.gap (level + 1) ++
          (lay l (level + 1) v ++ (layItems l level vs ++ rest))) := by
        rw [lay]
        simp
      -- the brackets pay for the turn that reads them
      have hlength : (lay l (level + 1) v).length + (layItems l level vs).length + 1 ≤
          (lay l level (.array (v :: vs))).length := by
        rw [lay]
        simp only [List.length_cons, List.length_append]
        omega
      obtain ⟨fuel, rfl⟩ : ∃ k, fuel = k + 1 := ⟨fuel - 1, by omega⟩
      have hitems := readItems?_lay l h ih (show depth + 1 + n ≤ maxDepth by omega) [] rest
        (show 2 * ((lay l (level + 1) v).length + (layItems l level vs).length) ≤ fuel by omega)
      obtain ⟨c, cs, hcs, hspace, hclose⟩ := (h v List.mem_cons_self).starts l (level + 1)
      rw [hlist, readValue?, if_neg hnot, l.skip_gap, (h v List.mem_cons_self).skip]
      rw [hcs, List.cons_append] at hitems ⊢
      split
      · rename_i heq
        exact absurd (List.cons.inj heq).1 hclose
      · exact hitems
  | object h ih =>
    rename_i n members
    intro level fuel depth rest hdepth _ hfuel
    have hnot : ¬depth ≥ maxDepth := by omega
    cases members with
    | nil =>
      obtain ⟨fuel, rfl⟩ : ∃ k, fuel = k + 1 := ⟨fuel - 1, by simp [lay] at hfuel; omega⟩
      rw [lay, List.cons_append, readValue?, if_neg hnot]
      rfl
    | cons m ms =>
      have hlist : lay l level (.object (m :: ms)) ++ rest = '\x7b' :: (l.gap (level + 1) ++
          (writeText m.1 ++
            ':' :: (l.pad ++ (lay l (level + 1) m.2 ++ (layMembers l level ms ++ rest))))) := by
        rw [lay]
        simp
      have hlength : (lay l (level + 1) m.2).length + (layMembers l level ms).length + 1 ≤
          (lay l level (.object (m :: ms))).length := by
        rw [lay]
        simp only [List.length_cons, List.length_append]
        omega
      obtain ⟨fuel, rfl⟩ : ∃ k, fuel = k + 1 := ⟨fuel - 1, by omega⟩
      have hmembers := readMembers?_lay l h ih (show depth + 1 + n ≤ maxDepth by omega) [] rest
        (show 2 * ((lay l (level + 1) m.2).length + (layMembers l level ms).length) ≤ fuel by omega)
      rw [hlist, readValue?, if_neg hnot, l.skip_gap]
      rw [writeText_append] at hmembers ⊢
      rw [skip_of_not_isSpace (by decide)]
      exact hmembers

/-- What is written in a layout is read back. -/
theorem parse?_lay {n : Nat} {v : Json} (h : Legible n v) (hn : n ≤ maxDepth) :
    parse? (String.ofList (lay l 0 v)) = some v := by
  have hread :=
    h.readsBack l 0 (2 * (lay l 0 v).length + 2) 0 [] (by omega) (by simp [EndsNumber]) (by omega)
  have hskip := h.skip l 0 []
  rw [List.append_nil] at hread hskip
  rw [parse?, String.toList_ofList, hskip, hread]
  rfl

/-- **What is written without white space is read back.** -/
theorem parse?_compact {n : Nat} {v : Json} (h : Legible n v) (hn : n ≤ maxDepth) :
    parse? v.compact = some v := by
  rw [compact, write_eq_lay 0 v, parse?_lay .tight h hn]

/-- **What is written line by line is read back.** -/
theorem parse?_indented {n : Nat} {v : Json} (h : Legible n v) (hn : n ≤ maxDepth) :
    parse? v.indented = some v := by
  rw [indented, writeIndented_eq_lay 0 v, parse?_lay .lines h hn]

end Interleaving.Json
