import Scriptlet.Proofs.Parse.RoundTrip

/-! Integers are read back from their digits. -/

namespace Scriptlet

open Text

variable {c : Char} {cs : List Char}

theorem toNat_of_isDigit (h : isDigit c = true) : 48 ≤ c.toNat ∧ c.toNat ≤ 57 := by
  simpa [isDigit, Char.le_def, UInt32.le_iff_toNat_le] using h

theorem decimalValue?_of_isDigit (h : isDigit c = true) :
    decimalValue? c = some (c.toNat - 48) := by
  obtain ⟨h₁, h₂⟩ := toNat_of_isDigit h
  rw [decimalValue?, digitZeros, List.find?_cons_of_pos]
  · rfl
  · simp only [Bool.and_eq_true, decide_eq_true_eq]
    omega

theorem isBlank_of_isDigit (h : isDigit c = true) : Text.isBlank c = false := by
  obtain ⟨h₁, h₂⟩ := toNat_of_isDigit h
  simp only [Text.isBlank, Ranges.holds, blanks, List.any_eq_false, List.mem_cons, List.not_mem_nil,
    or_false, Bool.and_eq_true, decide_eq_true_eq]
  rintro _ (rfl | rfl | rfl | rfl | rfl | rfl | rfl | rfl | rfl | rfl) <;> simp only <;> omega

namespace Number

theorem groupedDigits?_of_isDigit (hn : cs ≠ []) (hd : ∀ c ∈ cs, isDigit c = true) :
    groupedDigits? cs = some (cs.map fun c => c.toNat - 48) := by
  induction cs with
  | nil => exact absurd rfl hn
  | cons c cs ih =>
    have hc := decimalValue?_of_isDigit (hd c (by simp))
    match cs with
    | [] => simp [groupedDigits?, hc]
    | d :: cs =>
      have hrest := ih (by simp) fun c h => hd c (by simp [h])
      have hne : d ≠ '_' := by
        rintro rfl
        exact absurd (hd '_' (by simp)) (by decide)
      rw [groupedDigits?]
      · simp [hc, hrest]
      · exact hne

theorem trimChars_of_isDigit (hd : ∀ c ∈ cs, isDigit c = true) : trimChars cs = cs := by
  have hdrop {ds : List Char} (h : ∀ c ∈ ds, isDigit c = true) :
      ds.dropWhile Text.isBlank = ds := by
    cases ds with
    | nil => rfl
    | cons d ds => simp [isBlank_of_isDigit (h d (by simp))]
  rw [trimChars, trimEnd, hdrop hd, hdrop (by simpa using hd), List.reverse_reverse]

/-- A number that can be written is read back. -/
theorem readInteger_toDigits {n : Nat} (h : Writable n) :
    readInteger (String.ofList (Nat.toDigits 10 n)) = .ok n := by
  have hd (c : Char) (hc : c ∈ Nat.toDigits 10 n) : isDigit c = true := isDigit_of_mem_toDigits hc
  have hne : Nat.toDigits 10 n ≠ [] := Nat.toDigits_ne_nil
  have hlen : (Nat.toDigits 10 n).length ≤ digitLimit := h
  have hval : ofDigits ((Nat.toDigits 10 n).map fun c => c.toNat - 48) = n :=
    ofAsciiDigits_toDigits n
  generalize Nat.toDigits 10 n = cs at hd hne hlen hval
  have hall : ∀ c ∈ cs, isNumeralChar c = true := fun c hc => by
    simp [isNumeralChar, decimalValue?_of_isDigit (hd c hc)]
  have htake : cs.takeWhile isNumeralChar = cs := List.takeWhile_eq_self_iff.mpr hall
  rw [readInteger, String.toList_ofList, trimChars_of_isDigit hd]
  split
  next sign body hsign =>
  obtain ⟨rfl, rfl⟩ : sign = 1 ∧ body = cs := by
    split at hsign
    · exact absurd (hd '-' (by simp)) (by decide)
    · exact absurd (hd '+' (by simp)) (by decide)
    · simpa [eq_comm] using hsign
  rw [htake, groupedDigits?_of_isDigit hne hd]
  simp [Nat.not_lt.mpr hlen, List.all_eq_true.mpr hall, hval]

end Number

end Scriptlet
