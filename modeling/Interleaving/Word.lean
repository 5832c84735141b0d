/-!
# Machine words

Task numbers, locations and clock components are signed words of 64 bits. They are kept as integers
here, and `Interleaving.Word.wrap` says what a sum that leaves the range becomes: the word with the
same remainder modulo `2 ^ 64`.
-/

namespace Interleaving.Word

/-- The number of different words, `2 ^ 64`. -/
def modulus : Nat := 0x10000000000000000

/-- The greatest word. -/
def greatest : Int := 0x7fffffffffffffff

/-- The least word. -/
def least : Int := -0x8000000000000000

/-- The word that agrees with `n` modulo `2 ^ 64`. -/
def wrap (n : Int) : Int := n.bmod modulus

/-- Whether an integer is a word. -/
def fits (n : Int) : Bool := least ≤ n && n ≤ greatest

/-- A word stays what it is. -/
theorem wrap_of_fits {n : Int} (h : fits n = true) : wrap n = n := by
  have low : -0x8000000000000000 ≤ n := of_decide_eq_true (Bool.and_eq_true_iff.mp h).1
  have high : n ≤ 0x7fffffffffffffff := of_decide_eq_true (Bool.and_eq_true_iff.mp h).2
  exact Int.bmod_eq_of_le (by simp [modulus]; omega) (by simp [modulus]; omega)

end Interleaving.Word
