import Mathlib.Data.List.Induction
import Scriptlet.Proofs.Token.Tiling
import Scriptlet.Text.Lines

/-! Positions in the lines of a text: each token stands at a character of a line, or behind its last. -/

namespace Scriptlet

open Text

variable {before after cs : List Char} {ts : List Token} {token : Token}

/-- What comes behind a text goes on with its last piece. -/
theorem Text.pieces_append {separator : Char} {ps : List (List Char)} {p : List Char}
    (h : pieces separator before = ps ++ [p]) (after : List Char) :
    pieces separator (before ++ after) = ps ++ (pieces separator after).modifyHead (p ++ ·) := by
  induction before generalizing ps p with
  | nil =>
    obtain ⟨rfl, rfl⟩ : ps = [] ∧ p = [] := by
      cases ps <;> simp_all [pieces]
    obtain ⟨r, rs, hr⟩ := List.exists_cons_of_ne_nil (pieces_ne_nil separator after)
    simp [hr]
  | cons c cs ih =>
    obtain ⟨q, qs, hq⟩ := List.exists_cons_of_ne_nil (pieces_ne_nil separator cs)
    simp only [List.cons_append, pieces] at h ⊢
    split at h
    · next hc =>
      cases ps with
      | nil => simp_all
      | cons p' ps => simp_all
    · next hc =>
      simp only [hq] at h
      cases ps with
      | nil =>
        obtain ⟨rfl, rfl⟩ : c :: q = p ∧ qs = [] := by simpa using h
        rw [@ih [] q hq, if_neg hc]
        obtain ⟨r, rs, hr⟩ := List.exists_cons_of_ne_nil (pieces_ne_nil separator after)
        simp [hr]
      | cons p' ps =>
        obtain ⟨rfl, rfl⟩ : c :: q = p' ∧ qs = ps ++ [p] := by simpa using h
        rw [ih (by rw [hq, List.cons_append]), if_neg hc, List.cons_append, List.cons_append]

/-- The place behind some characters is told by their lines: how many there are, and how long the
last one is. -/
theorem Position.exists_splitLines (before : List Char) :
    ∃ ls l, splitLines before = ls ++ [l] ∧ behind before = ⟨ls.length + 1, l.length + 1⟩ := by
  induction before using List.reverseRecOn with
  | nil => exact ⟨[], [], rfl, rfl⟩
  | append_singleton before c ih =>
    obtain ⟨ls, l, hl, hb⟩ := ih
    rw [splitLines, pieces_append hl, behind, List.foldl_append, ← behind, hb]
    by_cases hc : c = '\n'
    · exact ⟨ls ++ [l], [], by simp [pieces, hc], by simp [advance, hc]⟩
    · exact ⟨ls, l ++ [c], by simp [pieces, hc], by simp [advance, hc]⟩

/-- The place is at a character of one of the lines, or directly behind the last of its characters. -/
def Position.On (lines : List String) (p : Position) : Prop :=
  1 ≤ p.line ∧ 1 ≤ p.column ∧ ∃ l, lines[p.line - 1]? = some l ∧ p.column ≤ l.length + 1

theorem Position.on_behind (before after : List Char) :
    (behind before).On (lines (String.ofList (before ++ after))) := by
  obtain ⟨ls, l, hl, hb⟩ := exists_splitLines before
  obtain ⟨q, qs, hq⟩ := List.exists_cons_of_ne_nil (splitLines_ne_nil after)
  have hsplit : splitLines (before ++ after) = ls ++ (l ++ q) :: qs := by
    rw [splitLines, pieces_append hl, ← splitLines, hq]
    rfl
  rw [hb]
  exact ⟨by simp, by simp, String.ofList (l ++ q), by simp [lines, hsplit], by simp⟩

theorem Position.On.line_le {lines : List String} {p : Position} (h : p.On lines) :
    p.line ≤ lines.length := by
  obtain ⟨-, -, l, hl, -⟩ := h
  have := (List.getElem?_eq_some_iff.mp hl).1
  omega

theorem Tiles.exists_behind (h : Tiles before cs ts) (ht : token ∈ ts) :
    ∃ front back, before ++ cs = front ++ back ∧ token.pos = .behind front := by
  induction h with
  | @eof before gap =>
    rw [List.mem_singleton.mp ht]
    exact ⟨before ++ gap, [], by simp, rfl⟩
  | @token before gap span after kind text ts _ _ _ _ _ ih =>
    rcases List.mem_cons.mp ht with rfl | ht
    · exact ⟨before ++ gap, span ++ after, by simp, rfl⟩
    · obtain ⟨front, back, hf, hp⟩ := ih ht
      exact ⟨front, back, by simpa using hf, hp⟩

/-- Every token stands on a line of the text, the end token too. -/
theorem on_lines_of_mem_tokenize {source : String} (ht : token ∈ tokenize source) :
    token.pos.On (lines source) := by
  obtain ⟨front, back, hsource, hp⟩ := (tiles_tokenize source).exists_behind ht
  have h := Position.on_behind front back
  rwa [← hsource, List.nil_append, String.ofList_toList, ← hp] at h

/-- A text has at most one line more than it has characters, and no line is longer than the text. -/
theorem length_pieces_le (separator : Char) (cs : List Char) :
    (pieces separator cs).length ≤ cs.length + 1 ∧
      ∀ p ∈ pieces separator cs, p.length ≤ cs.length := by
  induction cs with
  | nil => simp [pieces]
  | cons c cs ih =>
    obtain ⟨q, qs, hq⟩ := List.exists_cons_of_ne_nil (pieces_ne_nil separator cs)
    obtain ⟨hlen, hmem⟩ := ih
    simp only [pieces]
    split
    · refine ⟨by simpa using hlen, fun p hp => ?_⟩
      rcases List.mem_cons.mp hp with rfl | hp
      · simp
      · exact Nat.le_succ_of_le (hmem p hp)
    · simp only [hq, List.length_cons, List.mem_cons, forall_eq_or_imp] at hlen hmem ⊢
      exact ⟨by omega, by omega, fun p hp => Nat.le_succ_of_le (hmem.2 p hp)⟩

theorem Position.On.le_length {source : String} {p : Position} (h : p.On (lines source)) :
    p.line ≤ source.length + 1 ∧ p.column ≤ source.length + 1 := by
  obtain ⟨hlen, hmem⟩ := length_pieces_le '\n' source.toList
  have hline := h.line_le
  obtain ⟨-, -, l, hl, hcol⟩ := h
  obtain ⟨q, hq, rfl⟩ := List.mem_map.mp (List.mem_of_getElem? hl)
  have := hmem q hq
  simp only [lines, splitLines, List.length_map, String.length_ofList, String.length_toList] at *
  omega

end Scriptlet
