/-! Integers of signed 64-bit words. -/

namespace Scriptlet.Number

/-- The least word, -2^63. -/
def minWord : Int := -0x8000000000000000

/-- The greatest word, 2^63 - 1. -/
def maxWord : Int := 0x7fffffffffffffff

/-- The integers that a word can hold. -/
def InWord (n : Int) : Prop := minWord ≤ n ∧ n ≤ maxWord

instance (n : Int) : Decidable (InWord n) := inferInstanceAs (Decidable (_ ∧ _))

/-- The word that is congruent to an integer modulo 2^64. -/
def wrap (n : Int) : Int := n.bmod 0x10000000000000000

theorem inWord_wrap (n : Int) : InWord (wrap n) := by
  have h₁ := Int.le_bmod (x := n) (m := 0x10000000000000000) (by decide)
  have h₂ := Int.bmod_lt (x := n) (m := 0x10000000000000000) (by decide)
  simp only [InWord, wrap, minWord, maxWord]
  omega

theorem wrap_of_inWord {n : Int} (h : InWord n) : wrap n = n := by
  simp only [InWord, minWord, maxWord] at h
  simp only [wrap, Int.bmod]
  omega

end Scriptlet.Number
