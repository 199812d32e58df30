import Scriptlet.Proofs.Parse.BrokenStatement
import Scriptlet.Proofs.Parse.Literals
import Scriptlet.Proofs.Parse.SpanningLines

/-!
A hashmap with an integer too many in front of its closing brace. The first error is there, however
deep the hashmap stands. Whether it is the only one depends on what the reader finds where it starts
again, as the braces that were open there are not closed.
-/

namespace Scriptlet

open Scriptlet.Parser

/-- What is read next where a statement has come as far as the first token and has failed at the
second one, which is an integer with a closing brace behind it. -/
def resumption (u z : Token) (ts : List Token) : List Token :=
  match u.kind with
  | .rbrace => u :: z :: ts
  | .semicolon => z :: ts
  | _ => ts

/-- The tokens of a semicolon alone, or of a statement with its semicolon or without one. -/
inductive Item : List Token → Prop where
  | skip {c : Token} (hc : c.kind = .semicolon) : Item [c]
  | ended {c : Token} {st : Stmt} {us : List Token} (hst : Derives (.stmt st) us)
    (hc : c.kind = .semicolon) : Item (us ++ [c])
  | unended {st : Stmt} {us : List Token} (hst : Derives (.stmt st) us) : Item us

/-- A statement, a closing brace that closes nothing, and a program. -/
def OneBraceOver (ts : List Token) : Prop :=
  ∃ xs b us body, ts = xs ++ b :: us ∧ Item xs ∧ b.kind = .rbrace ∧ Spells us body

variable {c u z : Token} {us ts : List Token} {body : List Stmt}

theorem resumption_suffix (u z : Token) (ts : List Token) : resumption u z ts <:+ u :: z :: ts := by
  unfold resumption
  split
  · exact List.suffix_refl _
  · exact List.suffix_cons _ _
  · exact (List.suffix_cons _ _).trans (List.suffix_cons _ _)

theorem exists_resumption (u : Token) (ts : List Token) (hz : z.kind = .int)
    (hc : c.kind = .rbrace) : ∃ x xs, resumption u z (c :: ts) = x :: xs ∧ x.isLineEnd = false := by
  unfold resumption
  split
  · next hu => exact ⟨_, _, rfl, by simp [Token.isLineEnd, hu]⟩
  · exact ⟨_, _, rfl, by simp [Token.isLineEnd, hz]⟩
  · exact ⟨_, _, rfl, by simp [Token.isLineEnd, hc]⟩

/-- The tokens from the resumption on, behind a semicolon. -/
theorem lexed_resumption {w : Token} {front mid behind : List Token} (hz : z.kind = .int)
    (hc : c.kind = .rbrace) (hw : w.kind = .semicolon) (hwl : w.isLineEnd = false)
    (hl : Lexed (front ++ (mid ++ u :: z :: c :: behind))) :
    Lexed (front ++ w :: resumption u z (c :: behind)) := by
  obtain ⟨x, xs, hres, hxl⟩ := exists_resumption u behind hz hc
  obtain ⟨ys, hys⟩ := resumption_suffix u z (c :: behind)
  have hrest : Lexed (x :: xs) := by
    rw [← hys, hres, ← List.append_assoc, ← List.append_assoc] at hl
    exact hl.of_append (by simp)
  rw [hres]
  exact hl.append_cons (by simp) (.cons (by simp [hw]) (by simp [hxl]) hrest) hwl

theorem netBraces_resumption (u : Token) (ts : List Token) (hz : z.kind = .int) :
    netBraces (resumption u z ts) ≤ netBraces ts := by
  unfold resumption
  split
  · next hu => simp [hu, hz, Kind.brace]
  · simp [hz, Kind.brace]
  · exact Int.le_refl _

theorem Item.netBraces (h : Item us) : Scriptlet.netBraces us = 0 := by
  cases h with
  | skip hc => simp [hc, Kind.brace]
  | ended hst hc => simp [hst.netBraces, hc, Kind.brace]
  | unended hst => exact hst.netBraces

theorem Spells.netBraces (h : Spells ts body) : Scriptlet.netBraces ts = 0 := by
  obtain ⟨us, e, rfl, he, hd⟩ := h
  simp [hd.netBraces, he, Kind.brace]

theorem Closed.netBraces {ss : List Stmt} (h : Closed ss us) : Scriptlet.netBraces us = 0 := by
  induction h with
  | nil => rfl
  | skip hc _ ih => simp [hc, ih, Kind.brace]
  | cons hst hc _ ih => simp [hst.netBraces, hc, ih, Kind.brace]

theorem netBraces_alike (h : Alike us ts) : netBraces us = netBraces ts := by
  induction ts generalizing us with
  | nil => rw [alike_nil.mp h]
  | cons t ts ih =>
    obtain ⟨u, us, rfl, hu, hus⟩ := alike_cons.mp h
    rw [netBraces_cons, netBraces_cons, ih hus, Token.kind_eq_of_face hu rfl]

theorem ShortLiterals.alike (h : ShortLiterals ts) (ha : Alike us ts) : ShortLiterals us := by
  intro u hu hk
  have hmem : u.face ∈ us.map Token.face := List.mem_map_of_mem hu
  rw [show us.map Token.face = ts.map Token.face from ha] at hmem
  obtain ⟨t, ht, hface⟩ := List.mem_map.mp hmem
  rw [Token.text_of_face hface.symm]
  exact h t ht (Token.kind_eq_of_face hface hk)

theorem Spells.head_ne_rbrace (h : Spells (c :: ts) body) :
    c.kind ≠ .rbrace := by
  obtain ⟨us, e, hus, he, hd⟩ := h
  cases us with
  | nil =>
    obtain ⟨rfl, -⟩ := List.cons.inj hus
    simp [he]
  | cons u us =>
    obtain ⟨rfl, -⟩ := List.cons.inj hus
    exact hd.balanced.head_ne_rbrace

namespace Parser

variable {α : Type} {s s' t t' v : State} {p : Parser α} {vs vs' mid front behind : List Token}
  {er fs er' fs' : List SyntaxError} {d n N : Nat} {w : Token} {o o' : Option Stmt}

/-! ### Where reading starts again -/

theorem synchronizeWithin_rbrace (hk : s.current.kind = .rbrace) (n : Nat) :
    synchronizeWithin n 0 s = .ok () s := by
  cases n with
  | zero => rfl
  | succ n =>
    simp only [synchronizeWithin, current_bind, hk]
    rfl

theorem synchronizeWithin_plain (hk : Plain s.current) (he : s.current.kind ≠ .eof) (n : Nat) :
    synchronizeWithin (n + 1) 0 s = synchronizeWithin n 0 s.advance := by
  obtain ⟨hs, hl, hb⟩ := hk
  simp only [synchronizeWithin, current_bind]
  rw [advance_bind]

theorem synchronize_resumption (hu : u.kind ≠ .lbrace) (hz : z.kind = .int) (hc : c.kind = .rbrace)
    (hs : On s (u :: z :: c :: ts) er) :
    ∃ t, synchronize s = .ok () t ∧ On t (resumption u z (c :: ts)) er := by
  have hcur : s.current = u := hs.current
  have hone := on_advance hs.ahead (by simp)
  have htwo := on_advance hone.ahead (by simp)
  rw [show synchronize s = synchronizeWithin (ts.length + 2) 0 s by
    rw [synchronize, ahead_bind, hs.rest_length]
    rfl]
  by_cases hb : u.kind = .rbrace
  · refine ⟨s, synchronizeWithin_rbrace (hcur ▸ hb) _, ?_⟩
    simpa only [resumption, hb] using hs
  by_cases hsemi : u.kind = .semicolon
  · refine ⟨s.advance, ?_, by simpa only [resumption, hsemi] using hone⟩
    simp only [synchronizeWithin, current_bind, hcur, hsemi]
    rfl
  -- neither the token nor the integer is one to stop at
  · have hpu : Plain s.current := hcur ▸ ⟨hsemi, hu, hb⟩
    have hcur' : s.advance.current = z := hone.current
    have hpz : Plain s.advance.current := by
      rw [hcur']
      simp [Plain, hz]
    have he : s.current.kind ≠ .eof := by
      intro he
      have hnil := hs.good.rest_eq_nil_iff.mpr he
      simp [hs.ahead.rest] at hnil
    refine ⟨s.advance.advance, ?_, ?_⟩
    · rw [synchronizeWithin_plain hpu he, synchronizeWithin_plain hpz (by rw [hcur', hz]; simp),
        synchronizeWithin_rbrace (htwo.current ▸ hc)]
    · have hres : resumption u z (c :: ts) = c :: ts := by
        unfold resumption
        split
        · exact absurd ‹_› hb
        · exact absurd ‹_› hsemi
        · rfl
      rwa [hres]

/-- A reader that has the last tokens ahead stands on the one in front of them. -/
theorem Steps.current_eq (h : Steps s t) (hs : s.tokens = us ++ u :: ts) (ht : t.rest = ts) :
    t.current = u := by
  obtain ⟨vs, hvs⟩ := h.tokens_suffix
  rw [hs, State.tokens, ht] at hvs
  have htail : [t.current] ++ ts = [u] ++ ts :=
    (List.append_inj' hvs (by simp)).2
  simpa using htail

/-- Where a statement is broken in a hashmap, reading goes on at the resumption. -/
theorem goesOn_of_stmtUpTo (h : StmtUpTo OpenHashmap (mid ++ [u])) (hz : z.kind = .int)
    (hc : c.kind = .rbrace) :
    GoesOn (mid ++ u :: z :: c :: ts) er (resumption u z (c :: ts)) (er ++ [braceError z]) := by
  have hu : u.kind ≠ .lbrace := by
    obtain ⟨xs, v, hv, hne⟩ := h.last
    obtain ⟨-, huv⟩ := List.append_inj' hv rfl
    rwa [(List.cons.inj huv).1]
  have hsplit : mid ++ u :: z :: c :: ts = mid ++ [u] ++ z :: c :: ts := by simp
  obtain ⟨d, ds, hds, hd⟩ := h.starts Rules.heads_openHashmap (z :: c :: ts)
  rw [hsplit, hds]
  refine .failed hd fun n s hs => ?_
  rw [← hds] at hs
  have hends := (sound_rules n).statement s
  rcases Rules.breaks_statement h n hz hs with hstop | ⟨v, hv, hfail⟩
  · exact .inl hstop
  · rw [hfail] at hends
    have hcur : v.current = u :=
      Steps.current_eq hends.1 (hs.tokens.trans hsplit.symm) hv.rest
    refine .inr ⟨v, synchronize_resumption hu hz hc ⟨?_, hv.errors, hv.good⟩, hfail⟩
    rw [State.tokens, hcur, hv.rest]

/-- Behind a semicolon reading goes on at the resumption, too. -/
theorem goesOn_semicolon (hz : z.kind = .int) (hc : c.kind = .rbrace) (hw : w.kind = .semicolon)
    (hl : w.isLineEnd = false) :
    GoesOn (w :: resumption u z (c :: ts)) er (resumption u z (c :: ts)) er := by
  obtain ⟨x, xs, hres, -⟩ := exists_resumption u ts hz hc
  exact .semicolon hw hl (by simp [hres])

theorem not_endsStmts (h : Rules.StartsItem ts) (hs : On s ts er) :
    ¬ Rules.EndsStmts s.current.kind := by
  obtain ⟨c, cs, rfl, hc⟩ := h
  rwa [hs.current]

/-- From where both go on with the same tokens, two readers do the same, with the errors that each
one has found before. -/
theorem Recovers.twins (h : Recovers p us) (hts : ts ≠ []) (hgo : GoesOn vs er ts er')
    (hgo' : GoesOn vs' fs ts fs') (hs : On s (us ++ vs) er) (hs' : On s' (us ++ vs') fs) :
    Stops (p s) ∨ Stops (p s') ∨ ∃ res n n', p s = movedResult ⟨id, er', n⟩ res ∧
      p s' = movedResult ⟨id, fs', n'⟩ res := by
  obtain ⟨k, hk, hrec⟩ := h
  let N := max (us ++ vs).length (us ++ vs').length
  have hmap : ts.map (Token.moved id) = ts := List.map_id ts
  rcases hrec hgo hs (le_max_left _ _ : _ ≤ N) with hstop | ⟨t, ht, hp⟩
  · exact .inl hstop
  rcases hrec hgo' hs' (le_max_right _ _ : _ ≤ N) with hstop | ⟨t', ht', hp'⟩
  · exact .inr (.inl hstop)
  have hmoved {v : State} {es : List SyntaxError} (hv : On v ts es) :
      v = (State.ofTokens ts).moved ⟨id, es, v.moves⟩ := moved_ofTokens hts (by rwa [hmap])
  refine .inr (.inr ⟨k N (.ofTokens ts), t.moves, t'.moves, ?_, ?_⟩)
  · exact hp.trans ((congrArg (k N) (hmoved ht)).trans (hk N _ _))
  · exact hp'.trans ((congrArg (k N) (hmoved ht')).trans (hk N _ _))

/-! ### What follows -/

theorem Rules.ReadsTerminated.item {o : Option Stmt} (h : Rules.ReadsTerminated s o t) :
    ∃ us, s.tokens = us ++ t.tokens ∧ Item us := by
  rcases h with ⟨-, hk, hp⟩ | ⟨st, v, -, ⟨us, hv, hd⟩, ⟨c, hc, hp⟩ | ⟨-, hp⟩⟩
  · exact ⟨[s.current], by simp [State.tokens, hp.1], .skip hk⟩
  · exact ⟨s.current :: us ++ [c], by simp [State.tokens, hv.1, hp.1], .ended hd hc⟩
  · exact ⟨s.current :: us, by simp [State.tokens, hv.1, hp.1], .unended hd⟩

theorem arrivesOn_item {b : Token} (h : Item us) (hb : b.kind = .rbrace)
    (hs : On s (us ++ b :: ts) er) :
    ∃ o, ArrivesOn o (b :: ts) er ((rules n).terminated s) := by
  cases h with
  | skip hc => exact ⟨none, Rules.arrivesOn_terminated_skip hc (by simp) hs⟩
  | @ended c st us hst hc =>
    have hread : Rules.StmtReading st us := complete_of_derives hst
    rw [List.append_assoc] at hs
    exact ⟨some st, hread.arrivesOn_terminated (.inl hc) hs fun t ht =>
      Rules.arrivesOn_terminate_semicolon hc (by simp) ht⟩
  | @unended st us hst =>
    have hread : Rules.StmtReading st us := complete_of_derives hst
    exact ⟨some st, hread.arrivesOn_terminated (.inr (.inl hb)) hs fun t ht =>
      Rules.arrivesOn_terminate_close (.inl hb) ht⟩

/-- A program that is read to its end has no new error just if the tokens spell one. -/
theorem errors_of_program (hs : On s ts er) (hN : s.rest.length ≤ N)
    (h : (rules d).program N false s = .ok body v) :
    v.errors = er ↔ ∃ other, Spells ts other := by
  have hl : Lexed ts := hs.tokens ▸ hs.good
  have hmap : ts.map (Token.moved id) = ts := List.map_id ts
  have hs' : On s (ts.map (Token.moved id)) er := by rwa [hmap]
  rw [program_moved hl hs' hN] at h
  cases hr : run d ts with
  | error e t =>
    rw [hr] at h
    cases h
  | ok ss t =>
    rw [hr] at h
    obtain ⟨rfl, rfl⟩ := EStateM.Result.ok.inj h
    simp only [State.moved, List.append_right_eq_self, List.map_eq_nil_iff]
    constructor
    · intro he
      exact ⟨ss, spells_of_run hl hr he⟩
    · rintro ⟨other, ho⟩
      have hread : Reaches _ (run d ts) := run_of_spells hl ho
      rw [hr] at hread
      exact hread.2

/-- Behind an error a closing brace that closes nothing is no new one. -/
theorem errors_of_program_recovering (hs : On s ts er) (hN : s.rest.length ≤ N)
    (h : (rules d).program N true s = .ok body v) : v.errors = er ↔
      (∃ b us other, ts = b :: us ∧ b.kind = .rbrace ∧ Spells us other) ∨
        ∃ other, Spells ts other := by
  obtain ⟨c, cs, rfl⟩ : ∃ c cs, ts = c :: cs := ⟨_, _, hs.tokens.symm⟩
  have hcur : s.current = c := hs.current
  by_cases hc : c.kind = .rbrace
  · have hne : cs ≠ [] := by
      have := hs.good.rest_ne_nil (by rw [hcur, hc]; simp)
      rwa [hs.ahead.rest] at this
    have hon := on_advance hs.ahead hne
    have hlen := List.length_pos_of_ne_nil hne
    rw [hs.rest_length] at hN
    obtain ⟨N, rfl⟩ : ∃ m, N = m + 1 := ⟨N - 1, by omega⟩
    simp only [Rules.program, get_bind, hcur, hc] at h
    have hrun : (rules d).program N false s.advance = .ok body v := h
    rw [errors_of_program hon (by simp [hs.ahead.rest]; omega) hrun]
    have hno : ¬ ∃ other, Spells (c :: cs) other := by
      rintro ⟨other, ho⟩
      exact ho.head_ne_rbrace hc
    simp [hno, hc]
  · rw [Rules.program_recovering (hcur ▸ hc)] at h
    rw [errors_of_program hs hN h]
    simp [hc]

theorem tokens_moved (es : List SyntaxError) (m : Nat) : (s.moved ⟨id, es, m⟩).tokens = s.tokens :=
  List.map_id s.tokens

theorem errors_moved (es : List SyntaxError) (m : Nat) :
    (s.moved ⟨id, es, m⟩).errors = es ++ s.errors := by
  have hmap : s.errors.map (SyntaxError.moved id) = s.errors := by
    refine (List.map_congr_left fun e _ => ?_).trans (List.map_id _)
    obtain ⟨pos, fault⟩ := e
    cases fault <;> rfl
  exact congrArg (es ++ ·) hmap

/-- With one closing brace more than opening ones, tokens are a statement, a closing brace and a
program, just if a reader comes without an error to the brace and what is behind it is a program. -/
theorem oneBraceOver_iff (hs : On s ts er) (hk : s.current.kind ≠ .eof)
    (hnet : netBraces ts < 0) (ht : (rules d).terminated s = .ok o t) :
    OneBraceOver ts ↔ t.errors = er ∧
      ((∃ b us other, t.tokens = b :: us ∧ b.kind = .rbrace ∧ Spells us other) ∨
        ∃ other, Spells t.tokens other) := by
  constructor
  · rintro ⟨xs, b, us, other, rfl, hx, hb, ho⟩
    obtain ⟨o', harr⟩ := arrivesOn_item (n := d) hx hb hs
    rw [ht] at harr
    exact ⟨harr.2.errors, .inl ⟨b, us, other, harr.2.tokens, hb, ho⟩⟩
  · rintro ⟨he, hrest⟩
    have hends := Rules.ensures_terminated (sound_rules d) s
    rw [ht] at hends
    obtain ⟨xs, hxs, hx⟩ := (hends.2 hs.good (he.trans hs.errors.symm) hk).item
    rw [hs.tokens] at hxs
    rcases hrest with ⟨b, us, other, htok, hb, ho⟩ | ⟨other, ho⟩
    · exact ⟨xs, b, us, other, by rw [hxs, htok], hx, hb, ho⟩
    · rw [hxs, netBraces_append, hx.netBraces, ho.netBraces] at hnet
      exact absurd hnet (Int.lt_irrefl 0)

/-- The statement that is broken in a hashmap is read as the one with a semicolon from the start of
the innermost statement to the resumption, with the error in front. -/
theorem terminated_broken (hf : Nested front)
    (hm : StmtUpTo OpenHashmap (mid ++ [u])) (hz : z.kind = .int) (hc : c.kind = .rbrace)
    (hw : w.kind = .semicolon) (hwl : w.isLineEnd = false)
    (hs : On s (front ++ (mid ++ u :: z :: c :: behind)) er)
    (hs' : On s' (front ++ w :: resumption u z (c :: behind)) fs)
    (ht : (rules d).terminated s = .ok o t) (ht' : (rules d).terminated s' = .ok o' t') :
    ∃ es, t.tokens = t'.tokens ∧ t.errors = er ++ braceError z :: es ∧ t'.errors = fs ++ es := by
  have hgo : GoesOn (mid ++ u :: z :: c :: behind) er _ _ := goesOn_of_stmtUpTo hm hz hc
  have hgo' : GoesOn (w :: resumption u z (c :: behind)) fs _ fs := goesOn_semicolon hz hc hw hwl
  obtain ⟨x, xs, hres, -⟩ := exists_resumption u behind hz hc
  rcases (hf.recovers.1 d).twins (by simp [hres]) hgo hgo' hs hs'
    with hstop | hstop | ⟨res, n, n', hp, hp'⟩
  · simp [ht, Stops] at hstop
  · simp [ht', Stops] at hstop
  rw [ht] at hp
  rw [ht'] at hp'
  cases res with
  | error e v => cases hp
  | ok a v =>
    cases hp
    cases hp'
    exact ⟨v.errors, by simp only [tokens_moved], by simp [errors_moved], errors_moved ..⟩

/-- A program is read from the statement on that is broken in a hashmap. -/
theorem program_broken (hf : Nested front) (hm : StmtUpTo OpenHashmap (mid ++ [u]))
    (hz : z.kind = .int) (hc : c.kind = .rbrace) (hw : w.kind = .semicolon)
    (hwl : w.isLineEnd = false)
    (hnet : netBraces (front ++ w :: resumption u z (c :: behind)) < 0)
    (hs' : On s' (front ++ w :: resumption u z (c :: behind)) [])
    (ht' : (rules d).terminated s' = .ok o' t')
    (hs : On s (front ++ (mid ++ u :: z :: c :: behind)) er) (hN : s.rest.length ≤ N)
    (h : (rules d).program N false s = .ok body v) :
    ∃ errors, v.errors = er ++ braceError z :: errors ∧
      (errors = [] ↔ OneBraceOver (front ++ w :: resumption u z (c :: behind))) := by
  have hgo : GoesOn (mid ++ u :: z :: c :: behind) er _ _ := goesOn_of_stmtUpTo hm hz hc
  have hgo' : GoesOn (w :: resumption u z (c :: behind)) [] _ [] := goesOn_semicolon hz hc hw hwl
  have hk := not_endsStmts (hf.startsItem hgo) hs
  have hk' : s'.current.kind ≠ .eof :=
    fun he => not_endsStmts (hf.startsItem hgo') hs' (.inr he)
  -- the statement is read, and then what is left
  have hrest := List.length_pos_of_ne_nil (hs.good.rest_ne_nil fun he => hk (.inr he))
  obtain ⟨N, rfl⟩ : ∃ m, N = m + 1 := ⟨N - 1, by omega⟩
  rw [Rules.program_succ hk] at h
  obtain ⟨o, t, ht, h⟩ := bind_eq_ok.mp h
  rw [get_bind] at h
  obtain ⟨rest, v, hprog, h⟩ := bind_eq_ok.mp h
  cases h
  have hlt := Rules.terminated_rest_lt (sound_rules d) hs.good (fun hb => hk (.inl hb))
    (fun he => hk (.inr he)) ht
  obtain ⟨es, htok, he, he'⟩ := terminated_broken hf hm hz hc hw hwl hs hs' ht ht'
  have hgood : t.Good := ((Rules.ensures_terminated (sound_rules d)).steps ht).good hs.good
  have hflag : s.errors.length < t.errors.length := by simp [hs.errors, he]
  rw [decide_eq_true hflag] at hprog
  -- the errors found in the statement and the ones found behind it
  have hsteps := (Rules.ensures_program (sound_rules d) N true).steps hprog
  obtain ⟨more, hmore⟩ := Steps.errors_prefix hsteps
  have hbehind := errors_of_program_recovering ⟨rfl, rfl, hgood⟩ (by omega) hprog
  refine ⟨es ++ more, by rw [← hmore, he]; simp, ?_⟩
  rw [oneBraceOver_iff hs' hk' hnet ht', ← htok, ← hbehind, ← hmore, he']
  simp

end Parser

theorem not_spells_integer (hz : z.kind = .int) (hc : c.kind = .rbrace) :
    ¬ Spells (z :: c :: ts) body := by
  rintro ⟨us, e, hus, he, hd⟩
  rcases us with _ | ⟨x, _ | ⟨y, us⟩⟩
  · obtain ⟨rfl, -⟩ := List.cons.inj hus
    simp [hz] at he
  · obtain ⟨-, hce⟩ := List.cons.inj hus
    simp [← (List.cons.inj hce).1, hc] at he
  · -- the brace closes nothing
    obtain ⟨rfl, hcy⟩ := List.cons.inj hus
    obtain ⟨rfl, -⟩ := List.cons.inj hcy
    obtain ⟨g, hg⟩ := hd.balanced false []
    simp [hz, hc, Kind.nest] at hg

theorem Derives.stmt_head {st : Stmt} (h : Derives (.stmt st) (c :: us)) : c.kind ≠ .semicolon := by
  have hread : Rules.StmtReading st (c :: us) := complete_of_derives h
  obtain ⟨d, ds, hds, hd⟩ := hread.starts
  obtain ⟨rfl, -⟩ := List.cons.inj hds
  exact fun hk => hd (.inl hk)

theorem Item.of_semicolon {w : Token} {xs : List Token} (h : Item xs) (hw : w.kind = .semicolon)
    (hxs : xs ++ ts = w :: us) : xs = [w] := by
  -- no statement starts with a semicolon
  have hstmt {st : Stmt} {vs ws : List Token} (hst : Derives (.stmt st) vs) :
      vs ++ ws ≠ w :: us := by
    rintro heq
    obtain ⟨c, cs, rfl⟩ := List.exists_cons_of_ne_nil hst.stmt_ne_nil
    exact hst.stmt_head ((List.cons.inj heq).1 ▸ hw)
  cases h with
  | skip hc => rw [(List.cons.inj hxs).1]
  | ended hst hc => exact absurd (List.append_assoc .. ▸ hxs) (hstmt hst)
  | unended hst => exact absurd hxs (hstmt hst)

/-- Behind a semicolon that stands for the whole statement there is one closing brace too many just
if that is the one of the hashmap and a program is behind it. -/
theorem oneBraceOver_semicolon {w : Token} (hw : w.kind = .semicolon) (hz : z.kind = .int)
    (hc : c.kind = .rbrace) : OneBraceOver (w :: resumption u z (c :: ts)) ↔
      u.kind ≠ .rbrace ∧ u.kind ≠ .semicolon ∧ ∃ body, Spells ts body := by
  constructor
  · rintro ⟨xs, b, us, body, heq, hx, hb, ho⟩
    obtain rfl := hx.of_semicolon hw heq.symm
    obtain ⟨-, hres⟩ := List.cons.inj heq
    unfold resumption at hres
    split at hres
    · obtain ⟨rfl, rfl⟩ := List.cons.inj hres
      exact absurd ho (not_spells_integer hz hc)
    · obtain ⟨rfl, rfl⟩ := List.cons.inj hres
      simp [hz] at hb
    · next hu hu' =>
      obtain ⟨rfl, rfl⟩ := List.cons.inj hres
      exact ⟨hu, hu', body, ho⟩
  · rintro ⟨hu, hu', body, ho⟩
    refine ⟨[w], c, ts, body, ?_, .skip hw, hc, ho⟩
    simp [resumption]

/-- The way to the end of some tokens, which is the end of the entries of a hashmap: whole
statements in front, then the tokens up to the innermost statement around the hashmap, and those of
this one. -/
structure WayTo (pre outer front mid : List Token) (u : Token) : Prop where
  split : pre = outer ++ (front ++ (mid ++ [u]))
  outer : ∃ ss, Closed ss outer
  front : Nested front
  mid : StmtUpTo OpenHashmap (mid ++ [u])

variable {before h pre outer front mid behind : List Token} {d : Nat}

/-- In a program there is a way to each of its hashmaps. -/
theorem Spells.exists_wayTo (hs : Spells (before ++ h ++ c :: ts) body) (hh : OpenHashmap h)
    (hc : c.kind = .rbrace) : ∃ outer front mid u, WayTo (before ++ h) outer front mid u := by
  obtain ⟨us, e, hus, he, hd⟩ := hs
  have hcut : Cut (before ++ h) us := by
    rcases List.eq_nil_or_concat' ts with rfl | ⟨vs, v, rfl⟩
    · obtain ⟨-, hce⟩ := List.append_inj' hus rfl
      simp [← (List.cons.inj hce).1, hc] at he
    · rw [← List.cons_append, ← List.append_assoc] at hus
      obtain ⟨rfl, -⟩ := List.append_inj' hus rfl
      exact ⟨before, h, c, vs, rfl, hh, hc, rfl⟩
  obtain ⟨ss, outer, _, hsplit, hclosed, front, mid, rfl, hf, hm⟩ := hd.interrupted hcut
  obtain ⟨mid, u, rfl, -⟩ := hm.last
  exact ⟨outer, front, mid, u, hsplit, ⟨ss, hclosed⟩, hf, hm⟩

theorem WayTo.run_broken (hway : WayTo pre outer front mid u) (hz : z.kind = .int)
    (hc : c.kind = .rbrace) (hnet : netBraces (pre ++ c :: behind) = 0)
    (hl : Lexed (pre ++ z :: c :: behind)) (hshort : ShortLiterals (pre ++ z :: c :: behind))
    (hd : ¬ Exhausts d (pre ++ z :: c :: behind)) :
    ∃ read t errors, run d (pre ++ z :: c :: behind) = .ok read t ∧
      t.errors = braceError z :: errors ∧ (errors = [] ↔
        OneBraceOver (front ++ ⟨.semicolon, ";", z.pos⟩ :: resumption u z (c :: behind))) := by
  obtain ⟨rfl, ⟨ss, hclosed⟩, hf, hm⟩ := hway
  simp only [List.append_assoc, List.cons_append, List.nil_append] at hnet hl hshort hd ⊢
  let ts := outer ++ (front ++ (mid ++ u :: z :: c :: behind))
  let us := front ++ ⟨.semicolon, ";", z.pos⟩ :: resumption u z (c :: behind)
  have hl₁ : Lexed (front ++ (mid ++ u :: z :: c :: behind)) := hl.of_append (by simp)
  have hl₂ : Lexed us := lexed_resumption hz hc rfl rfl hl₁
  have hsuffix := resumption_suffix u z (c :: behind)
  have hnet' : netBraces us < 0 := by
    have hopen := hm.netBraces_le
    have hle := netBraces_resumption u (c :: behind) hz
    simp only [us, netBraces_append, netBraces_cons, netBraces_nil, hclosed.netBraces,
      Kind.brace] at *
    omega
  have hshort' : ShortLiterals us := by
    intro t ht hk
    simp only [us, List.mem_append, List.mem_cons] at ht
    rcases ht with ht | rfl | ht
    · exact hshort t (by simp [ht]) hk
    · cases hk
    · have := hsuffix.subset ht
      exact hshort t (by simp at this; simp; tauto) hk
  -- a depth that is enough for the tokens with the semicolon, too
  let e := max d (2 * us.length)
  have hrun : run e ts = run d ts := run_of_le (le_max_left _ _) fun t ht => hd ⟨t, ht⟩
  obtain ⟨body, t, hok⟩ := exists_run_eq_ok hl hshort hd
  obtain ⟨other, t', hok'⟩ :=
    exists_run_eq_ok hl₂ hshort' (not_exhausts hl₂ (le_max_right d (2 * us.length)))
  have hs : On (.ofTokens ts) ts [] := ⟨hl.tokens_ofTokens, ofTokens_errors _, hl.good_ofTokens⟩
  have hs' : On (.ofTokens us) us [] :=
    ⟨hl₂.tokens_ofTokens, ofTokens_errors _, hl₂.good_ofTokens⟩
  have hgo : GoesOn (⟨.semicolon, ";", z.pos⟩ :: resumption u z (c :: behind)) [] _ [] :=
    goesOn_semicolon hz hc rfl rfl
  obtain ⟨n, -, hcons⟩ := run_eq (d := e) hl₂ (not_endsStmts (hf.startsItem hgo) hs')
  obtain ⟨o, s', hterm, -⟩ := bind_eq_ok.mp (hcons ▸ hok')
  have hproceeds := Rules.proceeds_closed (d := e) hclosed hl₁.ne_nil hs (Nat.le_refl _)
  change Rules.Proceeds _ ss _ [] (run e ts) at hproceeds
  generalize hres : run e ts = res at hproceeds
  cases hproceeds with
  | stops hstop =>
    rw [← hres, hrun, hok] at hstop
    exact hstop.elim
  | @program s n hon hn =>
    rw [hrun, hok] at hres
    obtain ⟨rest, v, hprog, hv⟩ := bind_eq_ok.mp hres.symm
    cases hv
    obtain ⟨errors, herr, hiff⟩ :=
      program_broken hf hm hz hc rfl rfl hnet' hs' hterm hon hn hprog
    exact ⟨_, _, errors, hok, herr, hiff⟩

theorem openHashmap_integers {o k v : Token} (ho : o.kind = .lbrace) (hk : k.kind = .int)
    (hkn : (Number.ofAsciiDigits k.text.toList : Int) ≤ Number.maxWord) (hc : c.kind = .colon)
    (hv : v.kind = .int) (hvn : (Number.ofAsciiDigits v.text.toList : Int) ≤ Number.maxWord) :
    OpenHashmap [o, k, c, v] := by
  have hint {t : Token} (ht : t.kind = .int)
      (hn : (Number.ofAsciiDigits t.text.toList : Int) ≤ Number.maxWord) :
      Derives (.expr 1 (.int (Number.ofAsciiDigits t.text.toList))) [t] :=
    (Derives.int ht hn).of_le (by decide)
  exact ⟨o, _, _, _, rfl, ho, .pairsOne (hint hk hkn) hc (hint hv hvn) dropped_nil⟩

/-- A hashmap is broken by an integer in front of its closing brace. The first error is the integer,
where there should be the closing brace. It is the only one just if, with a semicolon alone in place
of the innermost statement around the hashmap as far as the resumption, there is one closing brace
too many between the outermost statement and a program. Only for want of depth is it otherwise. -/
theorem parse_broken_hashmap {a b : String} {before h : List Token} {e : Token} {d₀ : Nat}
    (hq : Scanner.Paired a.toList) (hb : b.toList.head? = some '\x7d')
    (hp : parse d₀ (a ++ b) = .ok ⟨body, []⟩) (ha : tokenize a = before ++ h ++ [e]) (hh : OpenHashmap h) :
    ∃ z c behind, tokenize (a ++ " 0 " ++ b) = before ++ h ++ z :: c :: behind ∧
      z.face = (.int, "0") ∧ c.kind = .rbrace ∧
      (∃ outer front mid u, WayTo (before ++ h) outer front mid u) ∧
      (∀ d, ¬ Exhausts d (tokenize (a ++ " 0 " ++ b)) → ∃ read errors,
        parse d (a ++ " 0 " ++ b) = .ok ⟨read, ⟨z.pos, .expected .rbrace z⟩ :: errors⟩ ∧
        ∀ outer front mid u, WayTo (before ++ h) outer front mid u →
          (errors = [] ↔ OneBraceOver
            (front ++ ⟨.semicolon, ";", z.pos⟩ :: resumption u z (c :: behind))) ∧
          (front = [] → (errors = [] ↔
            u.kind ≠ .rbrace ∧ u.kind ≠ .semicolon ∧ ∃ rest, Spells behind rest))) ∧
      ∀ d, 2 * (tokenize (a ++ " 0 " ++ b)).length ≤ d →
        ¬ Exhausts d (tokenize (a ++ " 0 " ++ b)) := by
  obtain ⟨us, e', z, vs, ws, ha', hone, htwo, hface, halike, x, hx, hxk⟩ :=
    tokenize_integer hq hb (k := .rbrace) rfl rfl
  obtain ⟨rfl, -⟩ := List.append_inj' (ha'.symm.trans ha) rfl
  obtain ⟨vs, rfl⟩ := List.head?_eq_some_iff.mp hx
  obtain ⟨c, behind, rfl, hc, hbehind⟩ := alike_cons.mp halike
  have hck : c.kind = .rbrace := Token.kind_eq_of_face hc hxk
  have hzk : z.kind = .int := congrArg Prod.fst hface
  -- the program around the hashmap
  obtain ⟨t, ht, he⟩ := parse_eq_ok_iff.mp hp
  have hspells := spells_of_run (lexed_tokenize _) ht he
  have hshort := shortLiterals_of_run (lexed_tokenize _) ht he
  rw [hone] at hspells hshort
  have hnet : netBraces (before ++ h ++ c :: behind) = 0 := by
    rw [netBraces_alike (alike_append.mpr ⟨_, _, rfl, .refl _, halike⟩), hspells.netBraces]
  obtain ⟨outer, front, mid, u, hway⟩ := hspells.exists_wayTo hh hxk
  have hl := lexed_tokenize (a ++ " 0 " ++ b)
  refine ⟨z, c, behind, htwo, hface, hck, ⟨outer, front, mid, u, hway⟩, fun d hd => ?_,
    fun d hd => not_exhausts hl hd⟩
  rw [htwo] at hl hd
  have hshort' : ShortLiterals (before ++ h ++ z :: c :: behind) := by
    have hz : ShortLiterals [z] := fun t ht _ => by
      rw [List.mem_singleton.mp ht, show z.text = "0" from congrArg Prod.snd hface]
      decide
    have hpre : ShortLiterals (before ++ h) := fun t ht => hshort t (List.mem_append_left _ ht)
    have hpost : ShortLiterals (x :: vs) := fun t ht => hshort t (List.mem_append_right _ ht)
    exact hpre.append (hz.append (hpost.alike halike))
  obtain ⟨read, t, errors, hrun, herr, -⟩ := hway.run_broken hzk hck hnet hl hshort' hd
  refine ⟨read, errors, ?_, fun outer front mid u hway => ?_⟩
  · simp only [parse, parseTokens, htwo, hrun, herr, braceError]
  · obtain ⟨read', t', errors', hrun', herr', hiff⟩ := hway.run_broken hzk hck hnet hl hshort' hd
    cases hrun.symm.trans hrun'
    cases herr.symm.trans herr'
    refine ⟨hiff, ?_⟩
    rintro rfl
    rw [hiff, List.nil_append, oneBraceOver_semicolon rfl hzk hck]

/-- At the end of a block the one error is all. -/
theorem parse_broken_hashmap_in_block :
    Scanner.Paired "if (a) \x7b x = \x7b1: 2".toList ∧
    "\x7d \x7d".toList.head? = some '\x7d' ∧
    (∃ body, parse 60 ("if (a) \x7b x = \x7b1: 2" ++ "\x7d \x7d") = .ok ⟨body, []⟩) ∧
    ∃ before h e z c behind front u read,
      tokenize "if (a) \x7b x = \x7b1: 2" = before ++ h ++ [e] ∧ OpenHashmap h ∧
      parse 60 ("if (a) \x7b x = \x7b1: 2" ++ " 0 " ++ "\x7d \x7d") =
        .ok ⟨read, [⟨z.pos, .expected .rbrace z⟩]⟩ ∧
      OneBraceOver (front ++ ⟨.semicolon, ";", z.pos⟩ :: resumption u z (c :: behind)) := by
  have hq : Scanner.Paired "if (a) \x7b x = \x7b1: 2".toList := rfl
  have hp : parse 60 ("if (a) \x7b x = \x7b1: 2" ++ "\x7d \x7d") = .ok ⟨[.expr (.ifThen
      (.ident "a") [.assign "x" (.hashmap [(.int 1, .int 2)])] none)], []⟩ := by cbv
  have hbroken : (parse 60 ("if (a) \x7b x = \x7b1: 2" ++ " 0 " ++ "\x7d \x7d")).map
      (·.errors.length) = .ok 1 := by cbv
  have hd : 2 * (tokenize ("if (a) \x7b x = \x7b1: 2" ++ " 0 " ++ "\x7d \x7d")).length ≤ 60 := by
    cbv
  have ht : tokenize "if (a) \x7b x = \x7b1: 2" =
      [⟨.kwIf, "if", ⟨1, 1⟩⟩, ⟨.lparen, "(", ⟨1, 4⟩⟩, ⟨.ident, "a", ⟨1, 5⟩⟩, ⟨.rparen, ")", ⟨1, 6⟩⟩,
        ⟨.lbrace, "\x7b", ⟨1, 8⟩⟩, ⟨.ident, "x", ⟨1, 10⟩⟩, ⟨.assign, "=", ⟨1, 12⟩⟩] ++
      [⟨.lbrace, "\x7b", ⟨1, 14⟩⟩, ⟨.int, "1", ⟨1, 15⟩⟩, ⟨.colon, ":", ⟨1, 16⟩⟩,
        ⟨.int, "2", ⟨1, 18⟩⟩] ++ [⟨.eof, "", ⟨1, 19⟩⟩] := by cbv
  have hh : OpenHashmap [⟨.lbrace, "\x7b", ⟨1, 14⟩⟩, ⟨.int, "1", ⟨1, 15⟩⟩, ⟨.colon, ":", ⟨1, 16⟩⟩,
      ⟨.int, "2", ⟨1, 18⟩⟩] :=
    openHashmap_integers rfl rfl (by decide) rfl rfl (by decide)
  obtain ⟨z, c, behind, -, -, -, ⟨outer, front, mid, u, hway⟩, hparse, hexhausts⟩ :=
    parse_broken_hashmap hq rfl hp ht hh
  obtain ⟨read, errors, hread, hiff⟩ := hparse 60 (hexhausts 60 hd)
  have hnil : errors = [] := by
    simp only [hread, Except.map, List.length_cons, Except.ok.injEq] at hbroken
    exact List.eq_nil_of_length_eq_zero (by omega)
  exact ⟨hq, rfl, ⟨_, hp⟩, _, _, _, z, c, behind, front, u, read, ht, hh, hnil ▸ hread,
    (hiff outer front mid u hway).1.mp hnil⟩

/-- In another hashmap the error is not the only one, as the reader starts again in the middle. -/
theorem parse_broken_inner_hashmap :
    Scanner.Paired "\x7b1: \x7b2: 3".toList ∧ "\x7d\x7d".toList.head? = some '\x7d' ∧
    (∃ before h e, tokenize "\x7b1: \x7b2: 3" = before ++ h ++ [e] ∧ OpenHashmap h) ∧
    (∃ body, parse 60 ("\x7b1: \x7b2: 3" ++ "\x7d\x7d") = .ok ⟨body, []⟩) ∧
    (∃ body, parse 60 ("\x7b1: \x7b2: 3" ++ " 0 " ++ "\x7d\x7d") = .ok ⟨body,
      [⟨⟨1, 11⟩, .expected .rbrace ⟨.int, "0", ⟨1, 11⟩⟩⟩, ⟨⟨1, 14⟩, .strayBrace⟩]⟩) := by
  have ht : tokenize "\x7b1: \x7b2: 3" = [⟨.lbrace, "\x7b", ⟨1, 1⟩⟩, ⟨.int, "1", ⟨1, 2⟩⟩,
      ⟨.colon, ":", ⟨1, 3⟩⟩] ++ [⟨.lbrace, "\x7b", ⟨1, 5⟩⟩, ⟨.int, "2", ⟨1, 6⟩⟩,
        ⟨.colon, ":", ⟨1, 7⟩⟩, ⟨.int, "3", ⟨1, 9⟩⟩] ++ [⟨.eof, "", ⟨1, 10⟩⟩] := by cbv
  refine ⟨rfl, rfl, ⟨_, _, _, ht, openHashmap_integers rfl rfl (by decide) rfl rfl (by decide)⟩,
    ⟨[.expr (.hashmap [(.int 1, .hashmap [(.int 2, .int 3)])])], by cbv⟩, ⟨[], by cbv⟩⟩

end Scriptlet
