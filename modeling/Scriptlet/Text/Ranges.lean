/-! Sets of characters given as closed ranges of code points. -/

namespace Scriptlet.Text

/-- A character class: the closed ranges of code points that belong to it. -/
abbrev Ranges := List (Nat × Nat)

/-- Whether some range holds the character's code point. -/
def Ranges.holds (table : Ranges) (c : Char) : Bool :=
  table.any fun (first, last) => first ≤ c.toNat && c.toNat ≤ last

theorem Ranges.holds_iff {table : Ranges} {c : Char} :
    table.holds c = true ↔ ∃ r ∈ table, r.1 ≤ c.toNat ∧ c.toNat ≤ r.2 := by
  simp [Ranges.holds]

end Scriptlet.Text
