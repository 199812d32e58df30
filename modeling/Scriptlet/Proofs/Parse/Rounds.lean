import Scriptlet.Proofs.Parse.Appending
import Scriptlet.Proofs.Parse.Moves

/-!
Repetitions round by round. The bound of a repetition is for its definition only: the repetition
goes on until a round ends it, and every round that another one follows moves the reader on.
-/

namespace Scriptlet.Parser

variable {α β σ : Type} {s t u : State} {p : Parser α} {r : Rules} {n : Nat} {a : α} {x : σ} {b : β}
  {round : σ → Parser (Option σ)} {once : Parser (Option (List α))} {result : σ → β}
  {R : State → α → State → Prop}

/-- How a repetition runs: round after round, until one of them ends it or stops. A round gives what
the next one starts from, and it has moved the reader if there is a next one. -/
inductive Runs (round : σ → Parser (Option σ)) (result : σ → β) :
    σ → State → EStateM.Result Stop State β → Prop where
  | ends {x : σ} {s t : State} (h : round x s = .ok none t) :
    Runs round result x s (.ok (result x) t)
  | stops {x : σ} {s t : State} {e : Stop} (h : round x s = .error e t) :
    Runs round result x s (.error e t)
  | goesOn {x y : σ} {s t : State} {res : EStateM.Result Stop State β}
    (h : round x s = .ok (some y) t) (hm : s.moves < t.moves) (hr : Runs round result y t res) :
    Runs round result x s res

/-- A repetition that has come to an end did so by a round that ended it. -/
theorem Runs.last (h : Runs round result x s (.ok b t)) : ∃ y u, round y u = .ok none t := by
  generalize hres : EStateM.Result.ok b t = res at h
  induction h with
  | ends h =>
    cases hres
    exact ⟨_, _, h⟩
  | stops => cases hres
  | goesOn _ _ _ ih => exact ih hres

/-- A round that another one follows leaves fewer tokens ahead, and where there are none it is the
last one. -/
structure Advances (once : Parser (Option α)) : Prop where
  onward {s t : State} {a : α} (hs : s.Good) (h : once s = .ok (some a) t) :
    Steps s t ∧ t.rest.length < s.rest.length
  atEnd {s : State} (hs : s.Good) (hr : s.rest = []) : once s = .ok none s

theorem Advances.moves_lt {once : Parser (Option α)} (h : Advances once) (hs : s.Good)
    (ho : once s = .ok (some a) t) : s.moves < t.moves := by
  obtain ⟨hst, hlt⟩ := h.onward hs ho
  have hle := Steps.account_le hst
  simp only [State.account] at hle
  omega

/-- A bound that is no less than the number of tokens ahead does not end the repetition. -/
theorem runs_of_rounds (loop : Nat → σ → Parser β) (hround : ∀ x, Advances (round x))
    (hzero : ∀ x, loop 0 x = pure (result x))
    (hsucc : ∀ n x, loop (n + 1) x = round x >>= fun o => match o with
      | none => pure (result x)
      | some y => loop n y)
    (x : σ) (hs : s.Good) (hn : s.rest.length ≤ n) : Runs round result x s (loop n x s) := by
  induction n generalizing x s with
  | zero =>
    -- nothing is ahead, so that the round that the bound leaves out would end the repetition
    rw [hzero]
    exact .ends ((hround x).atEnd hs (List.eq_nil_of_length_eq_zero (by omega)))
  | succ n ih =>
    rw [hsucc, bind_apply]
    cases h : round x s with
    | error e t => exact .stops h
    | ok o t =>
      cases o with
      | none => exact .ends h
      | some y =>
        obtain ⟨hst, hlt⟩ := (hround x).onward hs h
        exact .goesOn h ((hround x).moves_lt hs h) (ih y (hst.good hs) (by omega))

/-! ### Rounds that add to a list -/

/-- What a round reads comes behind what has been read. -/
def collecting (once : Parser (Option (List α))) (done : List α) : Parser (Option (List α)) :=
  once >>= fun o => pure (o.map (done ++ ·))

theorem Advances.collecting (h : Advances once) (done : List α) :
    Advances (collecting once done) := by
  refine ⟨fun {s t a} hs ha => ?_, fun {s} hs hr => ?_⟩
  · rw [Parser.collecting] at ha
    obtain ⟨o, u, ho, ha⟩ := bind_eq_ok.mp ha
    cases o with
    | none => cases ha
    | some more =>
      cases ha
      exact h.onward hs ho
  · rw [Parser.collecting, bind_apply, h.atEnd hs hr]
    rfl

theorem runs_collecting {loop : Nat → Parser (List α)} (h : Advances once)
    (hzero : loop 0 = pure [])
    (hsucc : ∀ n, loop (n + 1) = once >>= fun o => match o with
      | none => pure []
      | some more => loop n >>= fun rest => pure (more ++ rest)) (hs : s.Good) :
    Runs (collecting once) id [] s (loop s.rest.length s) := by
  have hruns : Runs (collecting once) id [] s ((loop s.rest.length >>= fun rest =>
      pure ([] ++ rest)) s) :=
    runs_of_rounds (fun n done => loop n >>= fun rest => pure (done ++ rest)) h.collecting
      (fun done => by simp [hzero]) (fun n done => ?_) [] hs (Nat.le_refl _)
  · simpa using hruns
  · rw [hsucc, collecting, bind_assoc, bind_assoc]
    congr 1
    funext o
    cases o <;>
      simp only [Option.map_none, Option.map_some, pure_bind, bind_assoc, id, List.append_assoc]
    simp

/-! ### Rounds that begin with the token ahead -/

theorem onward_of_advance {q : Unit → Parser α} (hq : Ensures (q ()) R) (hr : s.rest ≠ [])
    (h : (advance >>= q) s = .ok a t) : Steps s t ∧ t.rest.length < s.rest.length := by
  rw [advance_bind] at h
  have hst := hq.steps h
  have hle := hst.rest_length_le
  have hpos := List.length_pos_iff.mpr hr
  rw [advance_rest, List.length_tail] at hle
  exact ⟨(steps_advance s).trans hst, by omega⟩

/-- There is a round if the token ahead calls for one, which the end token does not. -/
theorem advances_ifPeek {c : Token → Prop} [∀ t, Decidable (c t)] {q : Unit → Parser (Option α)}
    {R : State → Option α → State → Prop} (hc : ∀ t, c t → t.kind ≠ .eof) (hq : Ensures (q ()) R) :
    Advances (peek >>= fun t => if c t then advance >>= q else pure none) := by
  refine ⟨fun {s t a} hs h => ?_, fun {s} hs hr => ?_⟩
  · rw [peek_bind] at h
    split at h
    · next hp => exact onward_of_advance hq (hs.rest_ne_nil_of_peek (hc _ hp)) h
    · cases h
  · rw [peek_bind, if_neg fun hp => hc _ hp (hs.peek_kind hr)]
    rfl

/-- One more element of a list, if a comma is ahead. -/
def commaRound (element : Parser α) : Parser (Option (List α)) := do
  if (← peek).kind = .comma then
    advance
    return some [← element]
  else return none

theorem advances_commaRound (h : Ensures p R) : Advances (commaRound p) :=
  advances_ifPeek (c := fun t => t.kind = .comma) (fun _ h => by simp [h]) <|
    h.bind fun _ => ensures_pure _

theorem runs_commas {loop : Nat → Parser (List α)} (h : Ensures p R) (hzero : loop 0 = pure [])
    (hsucc : ∀ n, loop (n + 1) = peek >>= fun t =>
      if t.kind = .comma then advance >>= fun _ => p >>= fun a => loop n >>= fun rest =>
        pure (a :: rest)
      else pure []) (hs : s.Good) :
    Runs (collecting (commaRound p)) id [] s (loop s.rest.length s) := by
  refine runs_collecting (advances_commaRound h) hzero (fun n => ?_) hs
  rw [hsucc]
  funext t
  simp only [commaRound, bind_assoc, peek_bind]
  split
  · simp
  · rfl

namespace Rules
variable (r)

/-- An element of a list behind a comma. -/
def item : Parser Expr := do
  skipLineEnds
  advance
  let item ← r.expression Power.lowest
  skipLineEnds
  return item

/-- An entry of a hashmap behind a comma. -/
def pair : Parser (Expr × Expr) := do
  skipLineEnds
  advance
  r.entry (← r.expression Power.lowest)

/-- A parameter behind a comma. -/
def param : Parser String := do
  expect .ident
  return (← current).text

/-- What follows an operand and binds more strongly than a power, if it is ahead. -/
def operatorRound (power : Nat) (left : Expr) : Parser (Option Expr) := do
  if power < (← peek).kind.power then
    advance
    return some (← r.extend left)
  else return none

/-- One more statement of a block, unless the block or the text is at its end. -/
def statementRound : Parser (Option (List Stmt)) := do
  match (← current).kind with
  | .rbrace | .eof => return none
  | _ => return some (← r.terminated).toList

/-- One more statement of a program, or a closing brace that closes nothing, unless the text is at
its end. -/
def programRound : List Stmt × Bool → Parser (Option (List Stmt × Bool))
  | (done, recovering) => do
    let s ← get
    match s.current.kind with
    | .eof => return none
    | .rbrace =>
      unless recovering do record s.current.pos .strayBrace
      advance
      return some (done, false)
    | _ =>
      let stmt ← r.terminated
      let found := (← get).errors.length
      return some (done ++ stmt.toList, s.errors.length < found)

end Rules

/-- One more token that is passed over to start again, unless a statement can start there. -/
def recoveryRound (opened : Nat) : Parser (Option Nat) := do
  match (← current).kind with
  | .eof => return none
  | .lbrace =>
    advance
    return some (opened + 1)
  | .rbrace =>
    if opened = 0 then return none
    advance
    return some (opened - 1)
  | .semicolon =>
    advance
    return if opened = 0 then none else some opened
  | _ =>
    advance
    return some opened

namespace Rules

theorem advances_operatorRound (hr : r.Sound) (power : Nat) (left : Expr) :
    Advances (r.operatorRound power left) :=
  advances_ifPeek (c := fun t => power < t.kind.power)
    (fun _ h => Kind.ne_eof_of_power_pos (Nat.zero_lt_of_lt h)) <|
      (ensures_extend hr left).bind fun _ => ensures_pure _

/-- A statement that cannot be read moves the reader on as well. -/
theorem advances_statementRound (hr : r.Sound) : Advances r.statementRound := by
  refine ⟨fun {s t a} hs h => ?_, fun {s} hs hn => ?_⟩
  · rw [statementRound, current_bind] at h
    generalize hk : s.current.kind = k at h
    split at h
    · cases h
    · cases h
    · next hb he =>
      obtain ⟨o, u, ho, h⟩ := bind_eq_ok.mp h
      cases h
      exact ⟨(ensures_terminated hr).steps ho, terminated_rest_lt hr hs (hk ▸ hb) (hk ▸ he) ho⟩
  · rw [statementRound, current_bind, hs.rest_eq_nil_iff.mp hn]
    rfl

theorem advances_programRound (hr : r.Sound) (x : List Stmt × Bool) :
    Advances (r.programRound x) := by
  obtain ⟨done, recovering⟩ := x
  refine ⟨fun {s t a} hs h => ?_, fun {s} hs hn => ?_⟩
  · simp only [programRound, get_bind] at h
    generalize hk : s.current.kind = k at h
    split at h
    · cases h
    · have hn : s.rest ≠ [] := hs.rest_ne_nil (by simp [hk])
      cases recovering with
      | true =>
        exact onward_of_advance (q := fun _ => pure (some (done, false))) (ensures_pure _) hn h
      | false =>
        obtain ⟨hst, hlt⟩ := onward_of_advance (s := s.record s.current.pos .strayBrace)
          (q := fun _ => pure (some (done, false))) (ensures_pure _) hn h
        exact ⟨.head (.atCurrent s .strayBrace) hst, hlt⟩
    · next he hb =>
      obtain ⟨o, u, ho, h⟩ := bind_eq_ok.mp h
      cases h
      exact ⟨(ensures_terminated hr).steps ho, terminated_rest_lt hr hs (hk ▸ hb) (hk ▸ he) ho⟩
  · simp only [programRound, get_bind, hs.rest_eq_nil_iff.mp hn]
    rfl

end Rules

theorem advances_recoveryRound (opened : Nat) : Advances (recoveryRound opened) := by
  refine ⟨fun {s t a} hs h => ?_, fun {s} hs hn => ?_⟩
  · have hmove (hk : s.current.kind ≠ .eof) {o : Option Nat}
        (h : (advance >>= fun _ => pure o) s = .ok (some a) t) :
        Steps s t ∧ t.rest.length < s.rest.length :=
      onward_of_advance (q := fun _ => pure o) (ensures_pure o) (hs.rest_ne_nil hk) h
    rw [recoveryRound, current_bind] at h
    generalize s.current.kind = k at h hmove
    split at h
    · cases h
    · exact hmove (by simp) h
    · by_cases ho : opened = 0
      · simp only [ho] at h
        cases h
      · simp only [ho] at h
        exact hmove (by simp) h
    · exact hmove (by simp) h
    · next he _ _ _ => exact hmove he h
  · rw [recoveryRound, current_bind, hs.rest_eq_nil_iff.mp hn]
    rfl

/-! ### The repetitions -/

theorem runs_synchronize (hs : s.Good) :
    Runs recoveryRound (fun _ => ()) 0 s (synchronize s) := by
  refine runs_of_rounds synchronizeWithin advances_recoveryRound (fun _ => rfl)
    (fun n opened => ?_) 0 hs (Nat.le_refl _)
  funext t
  simp only [synchronizeWithin, recoveryRound, bind_assoc, current_bind]
  generalize t.current.kind = k
  split
  · rfl
  · simp
  · by_cases ho : opened = 0 <;> simp [ho]
  · by_cases ho : opened = 0 <;> simp [ho]
  · simp

namespace Rules

theorem runs_moreItems (hr : r.Sound) (hs : s.Good) :
    Runs (collecting (commaRound r.item)) id [] s (r.moreItems s.rest.length s) :=
  runs_commas (p := r.item)
    (ensures_skipLineEnds.bind fun _ => ensures_advance.bind fun _ => (hr.expression _).bind
      fun _ => ensures_skipLineEnds.bind fun _ => ensures_pure _)
    rfl (fun n => by simp only [moreItems, item, bind_assoc, pure_bind]) hs

theorem runs_moreEntries (hr : r.Sound) (hs : s.Good) :
    Runs (collecting (commaRound r.pair)) id [] s (r.moreEntries s.rest.length s) :=
  runs_commas (p := r.pair)
    (ensures_skipLineEnds.bind fun _ => ensures_advance.bind fun _ => (hr.expression _).bind
      fun key => ensures_entry hr key)
    rfl (fun n => by simp only [moreEntries, pair, bind_assoc]) hs

theorem runs_moreParams (hs : s.Good) :
    Runs (collecting (commaRound param)) id [] s (moreParams s.rest.length s) :=
  runs_commas (p := param)
    ((ensures_expect (by simp)).bind fun _ => ensures_current.bind fun _ => ensures_pure _)
    rfl (fun n => by simp only [moreParams, param, bind_assoc, pure_bind]) hs

theorem runs_chain (hr : r.Sound) (power : Nat) (left : Expr) (hs : s.Good) :
    Runs (r.operatorRound power) id left s (r.chain power s.rest.length left s) := by
  refine runs_of_rounds (r.chain power) (advances_operatorRound hr power) (fun _ => rfl)
    (fun n left => ?_) left hs (Nat.le_refl _)
  funext t
  simp only [chain, operatorRound, bind_assoc, peek_bind]
  split
  · simp
  · rfl

theorem runs_moreStatements (hr : r.Sound) (hs : s.Good) :
    Runs (collecting r.statementRound) id [] s (r.moreStatements s.rest.length s) := by
  refine runs_collecting (advances_statementRound hr) rfl (fun n => ?_) hs
  funext t
  simp only [moreStatements, statementRound, bind_assoc, current_bind]
  generalize t.current.kind = k
  split
  · rfl
  · rfl
  · simp

theorem runs_program (hr : r.Sound) (recovering : Bool) (hs : s.Good) :
    Runs r.programRound Prod.fst ([], recovering) s (r.program s.rest.length recovering s) := by
  have hruns : Runs r.programRound Prod.fst ([], recovering) s
      ((r.program s.rest.length recovering >>= fun rest => pure ([] ++ rest)) s) :=
    runs_of_rounds (fun n x => r.program n x.2 >>= fun rest => pure (x.1 ++ rest))
      (advances_programRound hr) (fun x => by simp [program]) (fun n x => ?_) ([], recovering) hs
      (Nat.le_refl _)
  · simpa using hruns
  · obtain ⟨done, recovering⟩ := x
    funext t
    simp only [program, programRound, bind_assoc, get_bind]
    generalize t.current.kind = k
    split
    · simp
    · cases recovering <;> simp
    · simp only [bind_assoc, pure_bind, List.append_assoc]

/-- All repetitions that can begin in a state run round by round: those of the statements of a
program and of a block, of recovery from an error, of the further elements of a list, parameters and
entries of a hashmap, and of operators behind an operand. -/
structure InRounds (r : Rules) (s : State) : Prop where
  program (recovering : Bool) :
    Runs r.programRound Prod.fst ([], recovering) s (r.program s.rest.length recovering s)
  block : Runs (collecting r.statementRound) id [] s (r.moreStatements s.rest.length s)
  recovery : Runs recoveryRound (fun _ => ()) 0 s (synchronize s)
  list : Runs (collecting (commaRound r.item)) id [] s (r.moreItems s.rest.length s)
  params : Runs (collecting (commaRound param)) id [] s (moreParams s.rest.length s)
  hashmap : Runs (collecting (commaRound r.pair)) id [] s (r.moreEntries s.rest.length s)
  operators (power : Nat) (left : Expr) :
    Runs (r.operatorRound power) id left s (r.chain power s.rest.length left s)

theorem Sound.inRounds (hr : r.Sound) (hs : s.Good) : r.InRounds s where
  program recovering := runs_program hr recovering hs
  block := runs_moreStatements hr hs
  recovery := runs_synchronize hs
  list := runs_moreItems hr hs
  params := runs_moreParams hs
  hashmap := runs_moreEntries hr hs
  operators power left := runs_chain hr power left hs

/-- No program ends in front of the end token. -/
theorem current_of_program (hr : r.Sound) {recovering : Bool} {ss : List Stmt} (hs : s.Good)
    (h : r.program s.rest.length recovering s = .ok ss t) : t.current.kind = .eof := by
  -- of the rounds only the one on the end token ends the repetition
  have hruns := runs_program hr recovering hs
  rw [h] at hruns
  obtain ⟨⟨done, recovering⟩, u, hu⟩ := hruns.last
  simp only [programRound, get_bind] at hu
  generalize hk : u.current.kind = k at hu
  split at hu
  · cases hu
    exact hk
  · cases recovering <;> cases hu
  · obtain ⟨_, _, -, hu⟩ := bind_eq_ok.mp hu
    cases hu

end Rules

/-! ### Reading a program -/

theorem countP_of_lexed {ts : List Token} (h : Lexed ts) :
    ts.countP (·.kind ≠ .eof) + 1 = ts.length := by
  induction h with
  | eof h => simp [h]
  | cons ht _ _ ih =>
    rw [List.countP_cons_of_pos (by simpa using ht), List.length_cons, ih]

theorem Spends.account {Q : α → State → Prop} {res : EStateM.Result Stop State α}
    (h : Spends s Q res) : (after res).account = s.account := by
  cases res with
  | ok a t => exact h.1
  | error e t => exact h.1

theorem account_ofTokens {ts : List Token} (h : Lexed ts) :
    (State.ofTokens ts).account = ts.countP (·.kind ≠ .eof) := by
  have hcount := countP_of_lexed h
  obtain ⟨c, cs, rfl⟩ := List.exists_cons_of_ne_nil h.ne_nil
  rw [List.length_cons] at hcount
  simp only [State.account, State.ofTokens]
  omega

/-- A program is read up to the end token, with one move for every other token, unless reading
stops. Wherever it stops, the reader has moved on from other tokens only, and it has left each of
them once or not at all. -/
theorem run_moves (source : String) :
    (∀ depth, Relation.ReflTransGen Forward (.ofTokens (tokenize source))
        (after (run depth (tokenize source))) ∧
      (after (run depth (tokenize source))).account =
        (tokenize source).countP (·.kind ≠ .eof)) ∧
    (ShortLiterals (tokenize source) → ∀ depth, ¬ Exhausts depth (tokenize source) →
      ∃ body s, run depth (tokenize source) = .ok body s ∧ s.current.kind = .eof ∧
        s.moves = (tokenize source).countP (·.kind ≠ .eof)) ∧
    (∀ depth, 2 * (tokenize source).length ≤ depth → ¬ Exhausts depth (tokenize source)) ∧
    ∀ depth s, s.Good → (rules depth).InRounds s := by
  have hl := lexed_tokenize source
  have hg := hl.good_ofTokens
  have haccount (depth : Nat) : (after (run depth (tokenize source))).account =
      (tokenize source).countP (·.kind ≠ .eof) :=
    (Rules.thrifty_program (thrifty_rules depth) _ false _ hg).account.trans (account_ofTokens hl)
  refine ⟨fun depth => ⟨?_, haccount depth⟩, fun hs depth he => ?_,
    fun depth hd => not_exhausts hl hd, fun depth s hs => (sound_rules depth).inRounds hs⟩
  · have hsteps : Steps (.ofTokens (tokenize source)) (after (run depth (tokenize source))) :=
      (Rules.ensures_program (sound_rules depth) _ false _).steps
    exact hsteps.forward hg ((haccount depth).trans (account_ofTokens hl).symm)
  · obtain ⟨body, s, hrun⟩ := exists_run_eq_ok hl hs he
    have hend := Rules.current_of_program (sound_rules depth) hg hrun
    have hmoves := haccount depth
    have hgood := (Rules.ensures_program (sound_rules depth) _ false).steps hrun
    rw [hrun] at hmoves
    refine ⟨body, s, hrun, hend, ?_⟩
    have hr := (hgood.good hg).rest_eq_nil_iff.mpr hend
    simpa [after, State.account, hr] using hmoves

/-- A list and a block are both broken off. -/
theorem run_moves_broken_off : ShortLiterals (tokenize "\x7b f([1 2, \x7d 3") ∧
    (∃ body s, run 20 (tokenize "\x7b f([1 2, \x7d 3") = .ok body s ∧ s.current.kind = .eof ∧
      s.moves = 9) ∧
    (rules 20).InRounds (.ofTokens (tokenize "\x7b f([1 2, \x7d 3")) := by
  have htokens : tokenize "\x7b f([1 2, \x7d 3" = [⟨.lbrace, "\x7b", ⟨1, 1⟩⟩, ⟨.ident, "f", ⟨1, 3⟩⟩,
      ⟨.lparen, "(", ⟨1, 4⟩⟩, ⟨.lbracket, "[", ⟨1, 5⟩⟩, ⟨.int, "1", ⟨1, 6⟩⟩, ⟨.int, "2", ⟨1, 8⟩⟩,
      ⟨.comma, ",", ⟨1, 9⟩⟩, ⟨.rbrace, "\x7d", ⟨1, 11⟩⟩, ⟨.int, "3", ⟨1, 13⟩⟩,
      ⟨.eof, "", ⟨1, 14⟩⟩] := by cbv
  have hs : ShortLiterals (tokenize "\x7b f([1 2, \x7d 3") := by
    rw [htokens, ShortLiterals]
    decide
  obtain ⟨-, hrun, hdepth, hrounds⟩ := run_moves "\x7b f([1 2, \x7d 3"
  obtain ⟨body, s, hok, hend, hmoves⟩ := hrun hs 20 (hdepth 20 (by rw [htokens]; decide))
  exact ⟨hs, ⟨body, s, hok, hend, by rw [hmoves, htokens]; rfl⟩,
    hrounds 20 _ (lexed_tokenize _).good_ofTokens⟩

end Scriptlet.Parser
