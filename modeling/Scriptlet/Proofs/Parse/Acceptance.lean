import Mathlib
import Scriptlet.Proofs.Parse.Completeness
import Scriptlet.Proofs.Parse.Depth

/-! The programs that are read without errors are those of the grammar. -/

namespace Scriptlet

open Scriptlet.Parser

variable {depth : Nat} {source : String} {tokens : List Token} {body other : List Stmt}

/-- A run that is not short of depth reads what the tokens spell. -/
theorem run_eq_ok (hl : Lexed tokens) (hs : ShortLiterals tokens) (he : ¬ Exhausts depth tokens)
    (h : Spells tokens body) : ∃ t, run depth tokens = .ok body t ∧ t.errors = [] := by
  have hr : Reaches _ (run depth tokens) := run_of_spells hl h
  generalize hres : run depth tokens = res at hr
  match res, hr with
  | .ok _ t, ⟨rfl, ht⟩ => exact ⟨t, rfl, ht⟩
  | .error .tooDeep t, _ => exact absurd ⟨t, hres⟩ he
  | .error (.literalTooLong _) t, _ =>
    exact absurd (longLiteral_of_run hl.ne_nil hres) hs.not_longLiteral

theorem parse_eq_ok_iff : parse depth source = .ok ⟨body, []⟩ ↔
    ∃ t, run depth (tokenize source) = .ok body t ∧ t.errors = [] := by
  unfold parse parseTokens
  generalize run depth (tokenize source) = res
  match res with
  | .ok ss t =>
    simp only [Except.ok.injEq, Parsed.mk.injEq, EStateM.Result.ok.injEq]
    exact ⟨fun ⟨hs, he⟩ => ⟨t, ⟨hs, rfl⟩, he⟩, fun ⟨_, ⟨hs, ht⟩, he⟩ => ⟨hs, ht ▸ he⟩⟩
  | .error .failed t => simp
  | .error .tooDeep t => simp
  | .error (.literalTooLong _) t => simp

/-- For want of depth there is no program, and the last error says so. -/
theorem parse_of_exhausts (h : Exhausts depth (tokenize source)) :
    ∃ errors pos, parse depth source = .ok ⟨[], errors ++ [⟨pos, .tooDeep⟩]⟩ := by
  obtain ⟨t, ht⟩ := h
  refine ⟨t.errors, t.current.pos, ?_⟩
  simp only [parse, parseTokens, ht]
  rfl

/-- A text of which the tokens spell a program is read as it, unless its nesting is too much for the
depth. Twice as much depth as there are tokens is always enough. -/
theorem parse_of_spells (hs : ShortLiterals (tokenize source))
    (h : Spells (tokenize source) body) :
    (∀ depth, parse depth source = .ok ⟨body, []⟩ ∨ ∃ errors pos,
      parse depth source = .ok ⟨[], errors ++ [⟨pos, .tooDeep⟩]⟩) ∧
    ∀ depth, 2 * (tokenize source).length ≤ depth → parse depth source = .ok ⟨body, []⟩ := by
  have hl := lexed_tokenize source
  have hr (depth : Nat) (he : ¬ Exhausts depth (tokenize source)) :
      parse depth source = .ok ⟨body, []⟩ := parse_eq_ok_iff.mpr (run_eq_ok hl hs he h)
  refine ⟨fun depth => ?_, fun depth hd => hr depth (not_exhausts hl hd)⟩
  by_cases he : Exhausts depth (tokenize source)
  · exact .inr (parse_of_exhausts he)
  · exact .inl (hr depth he)

/-- The grammar is unambiguous: the tokens of a text spell one program at most. -/
theorem Spells.unique (hl : Lexed tokens) (hs : ShortLiterals tokens) (h : Spells tokens body)
    (h' : Spells tokens other) : body = other := by
  have he := not_exhausts hl (Nat.le_refl _)
  obtain ⟨t, ht, -⟩ := run_eq_ok hl hs he h
  obtain ⟨u, hu, -⟩ := run_eq_ok hl hs he h'
  rw [ht] at hu
  cases hu
  rfl

/-- A text is read without errors, and as the program, if and only if its tokens spell the program.
Only for want of depth is it otherwise, and no text has more nesting than there is depth for twice
its number of tokens. -/
theorem parse_eq_ok_iff_spells (source : String) (hs : ShortLiterals (tokenize source))
    (body : List Stmt) :
    (∀ depth, ¬ Exhausts depth (tokenize source) →
      (parse depth source = .ok ⟨body, []⟩ ↔ Spells (tokenize source) body)) ∧
    ∀ depth, 2 * (tokenize source).length ≤ depth → ¬ Exhausts depth (tokenize source) := by
  have hl := lexed_tokenize source
  refine ⟨fun depth he => ?_, fun depth hd => not_exhausts hl hd⟩
  rw [parse_eq_ok_iff]
  constructor
  · rintro ⟨t, ht, hn⟩
    exact spells_of_run hl ht hn
  · exact run_eq_ok hl hs he

theorem spells_product_in_sum : ShortLiterals (tokenize "1 + 2 * 3") ∧
    Spells (tokenize "1 + 2 * 3")
      [.expr (.binary .add (.int 1) (.binary .mul (.int 2) (.int 3)))] := by
  have hs : ShortLiterals (tokenize "1 + 2 * 3") := by
    rw [show tokenize "1 + 2 * 3" = [⟨.int, "1", ⟨1, 1⟩⟩, ⟨.plus, "+", ⟨1, 3⟩⟩, ⟨.int, "2", ⟨1, 5⟩⟩,
      ⟨.star, "*", ⟨1, 7⟩⟩, ⟨.int, "3", ⟨1, 9⟩⟩, ⟨.eof, "", ⟨1, 10⟩⟩] by cbv]
    simp only [ShortLiterals]
    decide
  obtain ⟨hr, hd⟩ := parse_eq_ok_iff_spells "1 + 2 * 3" hs
    [.expr (.binary .add (.int 1) (.binary .mul (.int 2) (.int 3)))]
  exact ⟨hs, (hr 12 (hd 12 (by cbv))).mp (by cbv)⟩

end Scriptlet
