import Scriptlet.Proofs.Parse.Acceptance
import Scriptlet.Proofs.Parse.Moved
import Scriptlet.Proofs.Parse.ViablePrefix
import Scriptlet.Proofs.Token.Appending

/-!
Programs line behind line. Statements that all have their ends are read in front of anything, and
what stands behind them is read as if it stood alone.
-/

namespace Scriptlet

open Scriptlet.Parser

variable {us vs ts : List Token} {ss rest : List Stmt} {st : Stmt} {c : Token}

/-- The tokens spell statements of which each one has its end. -/
inductive Closed : List Stmt → List Token → Prop where
  | nil : Closed [] []
  | skip {c : Token} {ss : List Stmt} {us : List Token} (hc : c.kind = .semicolon)
    (h : Closed ss us) : Closed ss (c :: us)
  | cons {c : Token} {st : Stmt} {ss : List Stmt} {us vs : List Token}
    (hst : Derives (.stmt st) us) (hc : c.kind = .semicolon) (h : Closed ss vs) :
    Closed (st :: ss) (us ++ c :: vs)

/-- A semicolon behind statements is the end of the last one, or stands alone. -/
theorem Derives.closed_append (h : Derives (.stmts ss) us) (hc : c.kind = .semicolon) :
    Closed ss (us ++ [c]) := by
  generalize hφ : Phrase.stmts ss = φ at h
  induction h generalizing ss with
  | stmtsNil =>
    cases hφ
    exact .skip hc .nil
  | stmtsSkip ht _ ih =>
    cases hφ
    exact .skip ht (ih rfl)
  | stmtsLast hs =>
    cases hφ
    exact .cons hs hc .nil
  | stmtsCons hs ht _ _ ih =>
    cases hφ
    rw [List.append_assoc]
    exact .cons hs ht (ih rfl)
  | _ => cases hφ

/-- Only the last statement can be without its end, and it ends in a token that can end one. -/
theorem Derives.closed (h : Derives (.stmts ss) us) (hu : ¬ EndsStatement us) : Closed ss us := by
  generalize hφ : Phrase.stmts ss = φ at h
  induction h generalizing ss with
  | stmtsNil =>
    cases hφ
    exact .nil
  | stmtsSkip ht _ ih =>
    cases hφ
    exact .skip ht (ih (fun he => hu he.cons) rfl)
  | stmtsLast hs => exact absurd hs.stmt_endsStatement hu
  | stmtsCons hs ht _ _ ih =>
    cases hφ
    exact .cons hs ht (ih (fun he => hu he.cons.append) rfl)
  | _ => cases hφ

namespace Parser

variable {α β : Type} {s : State} {p : Parser α} {f : α → Parser β} {r : Rules}
  {er : List SyntaxError} {x : Token} {res : EStateM.Result Stop State (List Stmt)}

/-! ### What no run ends in -/

/-- A rule does not fail: it gives a result or stops. -/
def Unfailing (p : Parser α) : Prop := ∀ s t, p s ≠ .error .failed t

theorem unfailing_of_ok {g : State → α} {k : State → State} (h : ∀ s, p s = .ok (g s) (k s)) :
    Unfailing p := by
  intro s t hf
  rw [h s] at hf
  cases hf

theorem unfailing_pure (a : α) : Unfailing (pure a : Parser α) := unfailing_of_ok fun _ => rfl

theorem unfailing_modify (g : State → State) : Unfailing (modify g : Parser PUnit) :=
  unfailing_of_ok fun _ => rfl

theorem unfailing_get : Unfailing (get : Parser State) := unfailing_of_ok fun _ => rfl

theorem unfailing_current : Unfailing current := unfailing_of_ok fun _ => rfl

theorem unfailing_peek : Unfailing peek := unfailing_of_ok fun _ => rfl

theorem unfailing_ahead : Unfailing ahead := unfailing_of_ok fun _ => rfl

theorem Unfailing.bind (hp : Unfailing p) (hf : ∀ a, Unfailing (f a)) : Unfailing (p >>= f) := by
  intro s t
  rw [bind_apply]
  cases hs : p s with
  | ok a u => exact hf a u t
  | error e u =>
    rintro ⟨⟩
    exact hp s t hs

theorem unfailing_attempt (p : Parser α) : Unfailing (attempt p) := by
  intro s t
  unfold Parser.attempt
  cases p s with
  | ok a u => rintro ⟨⟩
  | error e u => cases e <;> rintro ⟨⟩

theorem unfailing_advance : Unfailing advance := unfailing_modify _

theorem unfailing_synchronizeWithin (n opened : Nat) :
    Unfailing (synchronizeWithin n opened) := by
  induction n generalizing opened with
  | zero => exact unfailing_pure ()
  | succ n ih =>
    have hn (k : Nat) : Unfailing (advance >>= fun _ => synchronizeWithin n k) :=
      unfailing_advance.bind fun _ => ih k
    refine unfailing_current.bind fun t => ?_
    split
    · exact unfailing_pure ()
    · exact hn _
    · by_cases ho : opened = 0
      · simpa [ho] using unfailing_pure ()
      · simpa [ho] using hn _
    · by_cases ho : opened = 0
      · simpa [ho] using unfailing_advance.bind fun _ => unfailing_pure ()
      · simpa [ho] using hn _
    · exact hn _

theorem unfailing_synchronize : Unfailing synchronize :=
  unfailing_ahead.bind fun n => unfailing_synchronizeWithin n 0

namespace Rules

theorem unfailing_terminate (o : Option Stmt) : Unfailing (terminate o) := by
  cases o with
  | none => exact unfailing_synchronize.bind fun _ => unfailing_pure _
  | some st =>
    refine unfailing_peek.bind fun t => ?_
    split
    · exact unfailing_advance.bind fun _ => unfailing_advance.bind fun _ => unfailing_pure _
    · exact unfailing_advance.bind fun _ => unfailing_pure _
    · exact unfailing_advance.bind fun _ => unfailing_pure _
    · exact (unfailing_modify _).bind fun _ => unfailing_advance.bind fun _ =>
        unfailing_synchronize.bind fun _ => unfailing_pure _

theorem unfailing_terminated : Unfailing r.terminated := by
  refine unfailing_current.bind fun t => ?_
  split
  · exact unfailing_advance.bind fun _ => unfailing_pure _
  · exact (unfailing_attempt _).bind unfailing_terminate

/-- A statement that fails does not end the program. -/
theorem unfailing_program (n : Nat) (recovering : Bool) : Unfailing (r.program n recovering) := by
  induction n generalizing recovering with
  | zero => exact unfailing_pure _
  | succ n ih =>
    refine unfailing_get.bind fun s => ?_
    split
    · exact unfailing_pure _
    · cases recovering with
      | true => exact unfailing_advance.bind fun _ => ih false
      | false =>
        exact (unfailing_modify _).bind fun _ => unfailing_advance.bind fun _ => ih false
    · exact unfailing_terminated.bind fun _ => unfailing_get.bind fun _ => (ih _).bind fun _ =>
        unfailing_pure _

/-! ### Statements in front of a program -/

/-- A run has read statements and has come to the tokens behind them, unless it stops. -/
inductive Proceeds (r : Rules) (ss : List Stmt) (ts : List Token) (er : List SyntaxError) :
    EStateM.Result Stop State (List Stmt) → Prop where
  | stops {res : EStateM.Result Stop State (List Stmt)} (h : Stops res) : Proceeds r ss ts er res
  | program {t : State} {n : Nat} (h : On t ts er) (hn : t.rest.length ≤ n) :
    Proceeds r ss ts er ((r.program n false >>= fun rest => pure (ss ++ rest)) t)

/-- Nothing is read behind a stop. -/
theorem stops_bind (h : Stops (p s)) : Stops ((p >>= f) s) := by
  rw [bind_apply]
  generalize p s = res at h
  match res, h with
  | .error .tooDeep _, _ => trivial
  | .error (.literalTooLong _) _, _ => trivial

theorem eq_ok_or_stops {a : α} (h : ArrivesOn a us er (p s)) :
    (∃ t, p s = .ok a t ∧ On t us er) ∨ Stops (p s) := by
  generalize p s = res at h
  match res, h with
  | .ok _ t, ⟨rfl, ht⟩ => exact .inl ⟨t, rfl, ht⟩
  | .error .tooDeep _, _ => exact .inr trivial
  | .error (.literalTooLong _) _, _ => exact .inr trivial

/-- Other statements in front of what is read. -/
theorem Proceeds.prepend {p : Parser (List Stmt)} (h : Proceeds r ss ts er (p s))
    (front : List Stmt) :
    Proceeds r (front ++ ss) ts er ((p >>= fun rest => pure (front ++ rest)) s) := by
  generalize hp : p s = res at h
  cases h with
  | stops h => exact .stops (stops_bind (hp ▸ h))
  | @program t n h hn =>
    have hfront : Proceeds r (front ++ ss) ts er
        ((r.program n false >>= fun rest => pure (front ++ ss ++ rest)) t) := .program h hn
    rw [bind_apply, hp]
    rw [bind_apply] at hfront ⊢
    cases hr : r.program n false t with
    | ok rest u =>
      simp only [hr, List.append_assoc] at hfront ⊢
      exact hfront
    | error e u =>
      simp only [hr] at hfront ⊢
      exact hfront

/-- A statement or a semicolon alone is read, and then the program goes on. -/
theorem proceeds_cons {d N : Nat} {o : Option Stmt} (hc : ¬ EndsStmts s.current.kind)
    (hs : s.errors = er) (ho : ArrivesOn o us er ((rules d).terminated s))
    (hrest : ∀ t, On t us er → Proceeds (rules d) ss ts er ((rules d).program N false t)) :
    Proceeds (rules d) (o.toList ++ ss) ts er ((rules d).program (N + 1) false s) := by
  simp only [program, get_bind]
  generalize s.current.kind = k at hc
  split
  · exact absurd (.inr rfl) hc
  · exact absurd (.inl rfl) hc
  · rcases eq_ok_or_stops ho with ⟨t, hterm, ht⟩ | hstop
    · rw [bind_apply, hterm]
      simp only [get_bind]
      rw [hs, ht.errors, decide_eq_false (Nat.lt_irrefl _)]
      exact (hrest t ht).prepend _
    · exact .stops (stops_bind hstop)

/-- Statements that have their ends are read whatever stands behind them. -/
theorem proceeds_closed {d N : Nat} (h : Closed ss us) (hts : ts ≠ [])
    (hs : On s (us ++ ts) er) (hN : s.rest.length ≤ N) :
    Proceeds (rules d) ss ts er ((rules d).program N false s) := by
  have hlen (s : State) (vs : List Token) (hs : On s vs er) : s.rest.length + 1 = vs.length := by
    rw [← hs.tokens]
    rfl
  have hpos : 0 < ts.length := List.length_pos_of_ne_nil hts
  have hne (vs : List Token) : vs ++ ts ≠ [] := by simp [hts]
  induction h generalizing s N with
  | nil =>
    have hp : Proceeds (rules d) [] ts er
        (((rules d).program N false >>= fun rest => pure ([] ++ rest)) s) := .program hs hN
    simpa using hp
  | @skip c ss us hc h ih =>
    have hl := hlen s _ hs
    simp only [List.cons_append, List.length_cons, List.length_append] at hl
    obtain ⟨N, rfl⟩ : ∃ m, N = m + 1 := ⟨N - 1, by omega⟩
    have hk : ¬ EndsStmts s.current.kind := by
      simp only [List.cons_append] at hs
      simp [hs.current, EndsStmts, hc]
    refine proceeds_cons hk hs.errors (arrivesOn_terminated_skip hc (hne us) hs) fun t ht => ?_
    have ht' := hlen t _ ht
    simp only [List.length_append] at ht'
    exact ih ht (by omega)
  | @cons c st ss us vs hst hc h ih =>
    have hread : StmtReading st us := complete_of_derives hst
    have hl := hlen s _ hs
    rw [List.append_assoc, List.cons_append] at hs
    simp only [List.length_append, List.length_cons] at hl
    obtain ⟨N, rfl⟩ : ∃ m, N = m + 1 := ⟨N - 1, by omega⟩
    have hk : ¬ EndsStmts s.current.kind := by
      obtain ⟨x, xs, rfl, hx⟩ := hread.starts
      rw [List.cons_append] at hs
      rw [hs.current]
      exact fun he => hx (.inr he)
    have ho : ArrivesOn (some st) (vs ++ ts) er ((rules d).terminated s) :=
      hread.arrivesOn_terminated (.inl hc) hs fun t ht =>
        arrivesOn_terminate_semicolon hc (hne vs) ht
    refine proceeds_cons (o := some st) hk hs.errors ho fun t ht => ?_
    have ht' := hlen t _ ht
    simp only [List.length_append] at ht'
    exact ih ht (by omega)

end Rules

/-! ### The rest of a program at another place -/

variable {d : Nat} {place : Position → Position}

/-- A run whose literals are short ends with a program, for want of depth apart. -/
theorem exists_run_eq_ok (hl : Lexed ts) (hs : ShortLiterals ts) (he : ¬ Exhausts d ts) :
    ∃ ss t, run d ts = .ok ss t := by
  cases hr : run d ts with
  | ok ss t => exact ⟨ss, t, rfl⟩
  | error e t =>
    cases e with
    | failed => exact absurd hr (Rules.unfailing_program _ _ _ t)
    | tooDeep => exact absurd ⟨t, hr⟩ he
    | literalTooLong n => exact absurd (longLiteral_of_run hl.ne_nil hr) hs.not_longLiteral

theorem moved_ofTokens {t : State} (hts : ts ≠ []) (ht : On t (ts.map (Token.moved place)) er) :
    t = (State.ofTokens ts).moved ⟨place, er, t.moves⟩ := by
  obtain ⟨c, cs, rfl⟩ := List.exists_cons_of_ne_nil hts
  obtain ⟨cur, rst, ers, n⟩ := t
  obtain ⟨htokens, rfl, -⟩ := ht
  obtain ⟨rfl, rfl⟩ := List.cons.inj htokens
  simp [State.moved, State.ofTokens]

/-- A program is read from other places on as if it stood alone, whatever was found before. -/
theorem program_moved {t : State} {n : Nat} (hts : Lexed ts)
    (ht : On t (ts.map (Token.moved place)) er) (hn : t.rest.length ≤ n) :
    (rules d).program n false t = movedResult ⟨place, er, t.moves⟩ (run d ts) := by
  let m : Move := ⟨place, er, t.moves⟩
  have htm : t = (State.ofTokens ts).moved m := moved_ofTokens hts.ne_nil ht
  have hlen : (State.ofTokens ts).rest.length ≤ n := by
    rw [htm] at hn
    simpa [State.moved] using hn
  change _ = movedResult m _
  rw [htm, Rules.equivariant_program (equivariant_rules d).statement]
  exact congrArg _ ((Rules.fueled_program (sound_rules d) false).eq hts.good_ofTokens hlen
    (Nat.le_refl _))

/-- What a program gives behind statements, if it gives anything. -/
theorem run_of_program_moved {t u : State} {n : Nat} {body : List Stmt} (hts : Lexed ts)
    (ht : On t (ts.map (Token.moved place)) er) (hn : t.rest.length ≤ n)
    (h : ((rules d).program n false >>= fun rest => pure (ss ++ rest)) t = .ok body u) :
    ∃ (rest : List Stmt) (v : State) (m : Move), m.place = place ∧ m.errors = er ∧
      run d ts = .ok rest v ∧ body = ss ++ rest ∧ u = v.moved m := by
  rw [bind_apply, program_moved hts ht hn] at h
  cases hr : run d ts with
  | ok rest v =>
    rw [hr] at h
    obtain ⟨rfl, rfl⟩ := EStateM.Result.ok.inj h
    exact ⟨rest, v, _, rfl, rfl, rfl, rfl, rfl⟩
  | error e v =>
    rw [hr] at h
    cases h

/-- What stands behind statements is read as if it stood alone. -/
theorem run_append (h : Closed ss us) (hts : Lexed ts)
    (hl : Lexed (us ++ ts.map (Token.moved place)))
    (hshort : ShortLiterals (us ++ ts.map (Token.moved place)))
    (he : ¬ Exhausts d (us ++ ts.map (Token.moved place))) :
    ∃ (rest : List Stmt) (t : State) (m : Move), m.place = place ∧ m.errors = [] ∧
      run d ts = .ok rest t ∧
        run d (us ++ ts.map (Token.moved place)) = .ok (ss ++ rest) (t.moved m) := by
  have hon : On (.ofTokens (us ++ ts.map (Token.moved place)))
      (us ++ ts.map (Token.moved place)) [] :=
    ⟨hl.tokens_ofTokens, ofTokens_errors _, hl.good_ofTokens⟩
  have hp : Rules.Proceeds (rules d) ss (ts.map (Token.moved place)) []
      (run d (us ++ ts.map (Token.moved place))) :=
    Rules.proceeds_closed h (by simpa using hts.ne_nil) hon (Nat.le_refl _)
  obtain ⟨body, u, hr⟩ := exists_run_eq_ok hl hshort he
  rw [hr] at hp ⊢
  generalize hres : EStateM.Result.ok body u = res at hp
  cases hp with
  | stops hstop =>
    subst hres
    exact hstop.elim
  | @program t n ht hn =>
    obtain ⟨rest, v, m, hm, hme, hrun, rfl, rfl⟩ := run_of_program_moved hts ht hn hres.symm
    exact ⟨rest, v, m, hm, hme, hrun, hres.symm⟩

end Parser

/-- Texts that are read one behind the other, each from a line of its own, give their statements
one behind the other, and the errors of the second one, further down. -/
theorem parse_append_line {s₁ s₂ : String} {b₁ : List Stmt} {d₁ d : Nat}
    (hq : s₁.toList.count '"' % 2 = 0) (hp : parse d₁ s₁ = .ok ⟨b₁, []⟩)
    (h₁ : ShortLiterals (tokenize s₁)) (h₂ : ShortLiterals (tokenize s₂))
    (he : ¬ Exhausts d (tokenize (s₁ ++ "\n" ++ s₂))) :
    ∃ b₂ errors, parse d s₂ = .ok ⟨b₂, errors⟩ ∧
      parse d (s₁ ++ "\n" ++ s₂) = .ok ⟨b₁ ++ b₂,
        errors.map (SyntaxError.moved (Position.below (s₁.toList.count '\n' + 1)))⟩ := by
  obtain ⟨us, e, sep, htok, hek, hboth, hsep⟩ := tokenize_append_line hq s₂
  -- all statements of the first text have their ends
  have hclosed : Closed b₁ (us ++ sep) := by
    obtain ⟨t, ht, hnone⟩ := parse_eq_ok_iff.mp hp
    obtain ⟨vs, x, hvs, hx, hd⟩ := spells_of_run (lexed_tokenize s₁) ht hnone
    obtain ⟨rfl, -⟩ := List.append_inj' (htok.symm.trans hvs) rfl
    rcases hsep with ⟨-, c, rfl, hc⟩ | ⟨hu, rfl⟩
    · exact hd.closed_append hc
    · rw [List.append_nil]
      exact hd.closed hu
  have hshort : ShortLiterals (us ++ sep ++ (tokenize s₂).map
      (Token.moved (Position.below (s₁.toList.count '\n' + 1)))) := by
    refine ShortLiterals.append (ShortLiterals.append ?_ ?_) ?_
    · intro t ht
      exact h₁ t (by simp [htok, ht])
    · rcases hsep with ⟨-, c, rfl, hc⟩ | ⟨-, rfl⟩
      · intro t ht hk
        obtain rfl := List.mem_singleton.mp ht
        simp [hc] at hk
      · nofun
    · intro t ht
      obtain ⟨u, hu, rfl⟩ := List.mem_map.mp ht
      exact h₂ u hu
  have hl := lexed_tokenize (s₁ ++ "\n" ++ s₂)
  rw [hboth, ← List.append_assoc] at hl he
  obtain ⟨b₂, t, m, hm, hme, hr₂, hr⟩ := run_append hclosed (lexed_tokenize s₂) hl hshort he
  refine ⟨b₂, t.errors, ?_, ?_⟩
  · simp only [parse, parseTokens, hr₂]
  · simp only [parse, parseTokens, hboth, ← List.append_assoc, hr]
    simp [State.moved, hm, hme]

end Scriptlet
