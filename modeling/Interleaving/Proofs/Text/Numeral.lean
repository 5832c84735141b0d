import Interleaving.Text.Numeral
import Mathlib.Data.List.Basic

/-!
# Numerals are read back

The numeral of a word is read as that word (`Interleaving.Text.decimal?_decimal`): the digits of a
number, read from the front, make up the number again, and a sign is told from a digit by the first
character.
-/

namespace Interleaving.Text

/-- Reading digits one after the other. -/
theorem digitsFrom?_append (acc : Nat) (cs ds : List Char) :
    digitsFrom? acc (cs ++ ds) = (digitsFrom? acc cs).bind fun n => digitsFrom? n ds := by
  induction cs generalizing acc with
  | nil => rfl
  | cons c cs ih =>
    rw [List.cons_append, digitsFrom?, digitsFrom?]
    cases digit? c with
    | none => rfl
    | some d => exact ih _

/-- The digit of a number below ten has its value. -/
theorem digit?_digitChar {d : Nat} (h : d < 10) : digit? d.digitChar = some d := by
  have hall : ∀ d : Fin 10, digit? (d : Nat).digitChar = some (d : Nat) := by decide
  exact hall ⟨d, h⟩

theorem digitsFrom?_toDigits (n : Nat) : digitsFrom? 0 (Nat.toDigits 10 n) = some n := by
  induction n using Nat.strongRecOn with
  | ind n ih =>
    rcases Nat.lt_or_ge n 10 with h | h
    · rw [Nat.toDigits_of_lt_base h, digitsFrom?, digit?_digitChar h]
      simp [digitsFrom?]
    · have hlt : n % 10 < 10 := Nat.mod_lt _ (by decide)
      rw [Nat.toDigits_of_base_le (by decide) h, digitsFrom?_append, ih (n / 10) (by omega),
        Option.bind_some, digitsFrom?, digit?_digitChar hlt]
      simp only [Option.bind_some, digitsFrom?]
      rw [Nat.div_add_mod]

/-- The digits of a number are digits. -/
theorem isDigit_of_mem_toDigits {n : Nat} {c : Char} (h : c ∈ Nat.toDigits 10 n) :
    isDigit c = true := by
  have hdigit := Nat.isDigit_of_mem_toDigits (by decide) (by decide) h
  simp only [Char.isDigit, Bool.and_eq_true, decide_eq_true_eq] at hdigit
  simp only [isDigit, Bool.and_eq_true, decide_eq_true_eq]
  exact ⟨hdigit.1, hdigit.2⟩

theorem toDigits_ne_nil (n : Nat) : Nat.toDigits 10 n ≠ [] := by
  rcases Nat.lt_or_ge n 10 with h | h
  · rw [Nat.toDigits_of_lt_base h]
    exact List.cons_ne_nil _ _
  · rw [Nat.toDigits_of_base_le (by decide) h]
    simp

/-- The digits of a number start with a digit. -/
theorem exists_toDigits_eq_cons (n : Nat) :
    ∃ c cs, Nat.toDigits 10 n = c :: cs ∧ isDigit c = true := by
  obtain ⟨c, cs, h⟩ := List.exists_cons_of_ne_nil (toDigits_ne_nil n)
  exact ⟨c, cs, h, isDigit_of_mem_toDigits (h ▸ List.mem_cons_self)⟩

theorem natural?_toDigits (n : Nat) : natural? (Nat.toDigits 10 n) = some n := by
  rw [natural?, if_neg (by simp [toDigits_ne_nil n])]
  exact digitsFrom?_toDigits n

/-- A numeral without a sign is an integer that is not negative. -/
theorem integer?_toDigits (n : Nat) : integer? (Nat.toDigits 10 n) = some (n : Int) := by
  obtain ⟨c, cs, h, hc⟩ := exists_toDigits_eq_cons n
  have hplus : c ≠ '+' := by
    rintro rfl
    exact absurd hc (by decide)
  have hminus : c ≠ '-' := by
    rintro rfl
    exact absurd hc (by decide)
  have hnat := natural?_toDigits n
  rw [h] at hnat ⊢
  rw [integer?]
  · rw [hnat]
    rfl
  · intro cs' heq
    exact hplus (List.cons.inj heq).1
  · intro cs' heq
    exact hminus (List.cons.inj heq).1

/-- The characters of a numeral. -/
theorem toList_decimal (n : Int) :
    (decimal n).toList = if n < 0 then '-' :: Nat.toDigits 10 n.natAbs
    else Nat.toDigits 10 n.natAbs := by
  unfold decimal
  split
  · rw [String.toList_append, Nat.toList_repr]
    rfl
  · exact Nat.toList_repr

/-- **The numeral of a word is read back.** -/
theorem decimal?_decimal {n : Int} (h : Word.fits n = true) :
    decimal? (decimal n).toList = some n := by
  have hread : integer? (decimal n).toList = some n := by
    rw [toList_decimal]
    split
    · rw [integer?, natural?_toDigits]
      show some (-(n.natAbs : Int)) = some n
      congr 1
      omega
    · rw [integer?_toDigits]
      congr 1
      omega
  rw [decimal?, hread]
  simp [Option.filter, h]

end Interleaving.Text
