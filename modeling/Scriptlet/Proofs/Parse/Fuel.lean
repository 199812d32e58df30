import Scriptlet.Proofs.Parse.Soundness

/-!
The bounds of repetitions cut nothing off. Every round moves the reader on, so that a repetition
does the same with every bound that is no less than the number of tokens ahead.
-/

namespace Scriptlet.Parser

variable {α β ι : Type} {s t : State} {p q : Parser α} {f g : α → Parser β} {k : Nat} {r : Rules}
  {R : State → α → State → Prop}

theorem Steps.rest_length_le (h : Steps s t) : t.rest.length ≤ s.rest.length := by
  simpa [State.tokens] using h.tokens_suffix.length_le

/-- The reader after a run, however it ended. -/
def after : EStateM.Result Stop State α → State
  | .ok _ t => t
  | .error _ t => t

theorem Ends.steps {R : α → State → Prop} {res : EStateM.Result Stop State α} (h : Ends s R res) :
    Steps s (after res) := by
  match res, h with
  | .ok _ _, h => exact h.1
  | .error .failed _, h => exact h.1
  | .error .tooDeep _, h => exact h
  | .error (.literalTooLong _) _, h => exact h.1

theorem Ensures.steps (h : Ensures p R) {a : α} (hp : p s = .ok a t) : Steps s t := by
  have hs := (h s).steps
  rwa [hp] at hs

/-- Two rules do the same to every reader with no more than the given number of tokens ahead. -/
def Same (k : Nat) (p q : Parser α) : Prop := ∀ s, s.Good → s.rest.length ≤ k → p s = q s

theorem Same.refl (k : Nat) (p : Parser α) : Same k p p := fun _ _ _ => rfl

theorem Same.bind (h : Same k p q) (hp : Ensures p R) (hf : ∀ a, Same k (f a) (g a)) :
    Same k (p >>= f) (q >>= g) := by
  intro s hg hk
  rw [bind_apply, bind_apply, ← h s hg hk]
  cases hps : p s with
  | ok a t =>
    have hst := hp.steps hps
    exact hf a t (hst.good hg) (Nat.le_trans hst.rest_length_le hk)
  | error e t => rfl

theorem Same.then (h : Same k p q) (f : α → Parser β) : Same k (p >>= f) (q >>= f) := by
  intro s hg hk
  rw [bind_apply, bind_apply, h s hg hk]

/-- Behind one token less are ahead. -/
theorem advance_same {f g : Unit → Parser β} (h : Same k (f ()) (g ())) (hg : s.Good)
    (hk : s.rest.length ≤ k + 1) : (advance >>= f) s = (advance >>= g) s := by
  rw [advance_bind, advance_bind]
  refine h _ hg.advance ?_
  rw [advance_rest, List.length_tail]
  omega

/-- A repetition does the same with all bounds that are large enough. -/
def Fueled (f : Nat → Parser α) : Prop := ∀ k n m, k ≤ n → k ≤ m → Same k (f n) (f m)

theorem Fueled.eq {f : Nat → Parser α} (h : Fueled f) {n m : Nat} (hg : s.Good)
    (hn : s.rest.length ≤ n) (hm : s.rest.length ≤ m) : f n s = f m s :=
  h s.rest.length n m hn hm s hg (Nat.le_refl _)

theorem Fueled.then {f : Nat → Parser α} (h : Fueled f) (g : α → Parser β) :
    Fueled fun n => f n >>= g :=
  fun k n m hn hm => (h k n m hn hm).then g

/-- At the end nothing is repeated, and a round in front of it leaves fewer tokens. -/
theorem fueled_of_rounds {f : ι → Nat → Parser α}
    (hend : ∀ i n s, s.Good → s.rest = [] → f i (n + 1) s = f i 0 s)
    (hround : ∀ k n m, (∀ i, Same k (f i n) (f i m)) →
      ∀ i, Same (k + 1) (f i (n + 1)) (f i (m + 1)))
    (i : ι) : Fueled (f i) := by
  intro k
  induction k generalizing i with
  | zero =>
    have hz : ∀ n s, s.Good → s.rest = [] → f i n s = f i 0 s := by
      intro n s hg hr
      cases n with
      | zero => rfl
      | succ n => exact hend i n s hg hr
    intro n m _ _ s hg hk
    have hr : s.rest = [] := List.eq_nil_of_length_eq_zero (by omega)
    rw [hz n s hg hr, hz m s hg hr]
  | succ k ih =>
    intro n m hn hm
    obtain ⟨n, rfl⟩ : ∃ n', n = n' + 1 := ⟨n - 1, by omega⟩
    obtain ⟨m, rfl⟩ : ∃ m', m = m' + 1 := ⟨m - 1, by omega⟩
    exact hround k n m (fun i => ih i n m (by omega) (by omega)) i

theorem State.Good.peek_kind (hg : s.Good) (hr : s.rest = []) : s.peek.kind = .eof := by
  simpa [State.peek, hr] using hg.rest_eq_nil_iff.mp hr

theorem fueled_skipLineEndsUpTo : Fueled skipLineEndsUpTo := by
  refine fueled_of_rounds (ι := Unit) (f := fun _ => skipLineEndsUpTo) (fun _ n s hg hr => ?_)
    (fun k n m ih _ s hg hk => ?_) ()
  · have hp : s.peek.isLineEnd = false := by simp [Token.isLineEnd, hg.peek_kind hr]
    simp only [skipLineEndsUpTo, peek_bind, hp]
    rfl
  · simp only [skipLineEndsUpTo, peek_bind]
    split
    · exact advance_same (ih ()) hg hk
    · rfl

namespace Rules

theorem fueled_moreItems (hr : r.Sound) : Fueled r.moreItems := by
  refine fueled_of_rounds (ι := Unit) (f := fun _ => r.moreItems) (fun _ n s hg hn => ?_)
    (fun k n m ih _ s hg hk => ?_) ()
  · simp only [moreItems, peek_bind, hg.peek_kind hn]
    rfl
  · simp only [moreItems, peek_bind]
    split
    · refine advance_same ?_ hg hk
      exact (Same.refl _ _).bind ensures_skipLineEnds fun _ => (Same.refl _ _).bind ensures_advance
        fun _ => (Same.refl _ _).bind (hr.expression _) fun _ =>
          (Same.refl _ _).bind ensures_skipLineEnds fun _ => (ih ()).then _
    · rfl

theorem fueled_moreEntries (hr : r.Sound) : Fueled r.moreEntries := by
  refine fueled_of_rounds (ι := Unit) (f := fun _ => r.moreEntries) (fun _ n s hg hn => ?_)
    (fun k n m ih _ s hg hk => ?_) ()
  · simp only [moreEntries, peek_bind, hg.peek_kind hn]
    rfl
  · simp only [moreEntries, peek_bind]
    split
    · refine advance_same ?_ hg hk
      exact (Same.refl _ _).bind ensures_skipLineEnds fun _ => (Same.refl _ _).bind ensures_advance
        fun _ => (Same.refl _ _).bind (hr.expression _) fun key =>
          (Same.refl _ _).bind (ensures_entry hr key) fun _ => (ih ()).then _
    · rfl

theorem fueled_moreParams : Fueled moreParams := by
  refine fueled_of_rounds (ι := Unit) (f := fun _ => moreParams) (fun _ n s hg hn => ?_)
    (fun k n m ih _ s hg hk => ?_) ()
  · simp only [moreParams, peek_bind, hg.peek_kind hn]
    rfl
  · simp only [moreParams, peek_bind]
    split
    · refine advance_same ?_ hg hk
      exact (Same.refl _ _).bind (ensures_expect (by simp)) fun _ =>
        (Same.refl _ _).bind ensures_current fun _ => (ih ()).then _
    · rfl

theorem fueled_chain (hr : r.Sound) (power : Nat) (left : Expr) :
    Fueled fun n => r.chain power n left := by
  refine fueled_of_rounds (f := fun left n => r.chain power n left) (fun left n s hg hn => ?_)
    (fun k n m ih left s hg hk => ?_) left
  · simp only [chain, peek_bind, hg.peek_kind hn]
    rfl
  · simp only [chain, peek_bind]
    split
    · refine advance_same ?_ hg hk
      exact (Same.refl _ _).bind (ensures_extend hr left) fun _ => ih _
    · rfl

/-! ### Statements -/

theorem synchronize_rest_lt (hg : s.Good) (hb : s.current.kind ≠ .rbrace)
    (he : s.current.kind ≠ .eof) : (after (synchronize s)).rest.length < s.rest.length := by
  have hr : s.rest ≠ [] := hg.rest_ne_nil he
  have hm {p : Parser Unit} (h : Ensures p fun _ _ _ => True) :
      (after ((advance >>= fun _ => p) s)).rest.length < s.rest.length := by
    have hl := (h s.advance).steps.rest_length_le
    have := List.length_pos_iff.mpr hr
    rw [advance_rest, List.length_tail] at hl
    rw [advance_bind]
    omega
  obtain ⟨n, hn⟩ : ∃ n, s.rest.length = n + 1 :=
    Nat.exists_eq_succ_of_ne_zero (by simpa using hr)
  simp only [synchronize, ahead_bind, hn, synchronizeWithin, current_bind, ↓reduceIte, ne_eq,
    not_true_eq_false]
  rw [← hn]
  generalize s.current.kind = k at hb he
  split
  · exact absurd rfl he
  · exact hm (ensures_synchronizeWithin _ _)
  · exact absurd rfl hb
  · exact hm (p := pure ()) fun _ => ⟨.refl, fun _ _ => trivial⟩
  · exact hm (ensures_synchronizeWithin _ _)

/-- The end of a statement is behind the statement, or in front of a token that is left out. -/
theorem terminate_rest_lt (o : Option Stmt) (hg : s.Good)
    (hb : s.current.kind ≠ .rbrace) (he : s.current.kind ≠ .eof) :
    (after (terminate o s)).rest.length < s.rest.length := by
  have hr : s.rest ≠ [] := hg.rest_ne_nil he
  have hm {q : Parser (Option Stmt)} {t : State} (ht : t.rest.length = s.rest.length)
      (h : Ensures q fun _ _ _ => True) :
      (after ((advance >>= fun _ => q) t)).rest.length < s.rest.length := by
    have hl := (h t.advance).steps.rest_length_le
    have := List.length_pos_iff.mpr hr
    rw [advance_rest, List.length_tail] at hl
    rw [advance_bind]
    omega
  have hp (a : Option Stmt) : Ensures (pure a) fun _ _ _ => True :=
    fun _ => ⟨.refl, fun _ _ => trivial⟩
  cases o with
  | none =>
    have h := synchronize_rest_lt hg hb he
    simp only [terminate, bind_apply]
    generalize synchronize s = res at h
    cases res <;> exact h
  | some st =>
    simp only [terminate, peek_bind]
    generalize s.peek.kind = k
    split
    · exact hm rfl ((ensures_advance.bind fun _ => hp _).mono fun _ _ _ _ _ => trivial)
    · exact hm rfl (hp _)
    · exact hm rfl (hp _)
    · exact hm (t := s.record s.peek.pos _) rfl
        ((ensures_synchronize.bind fun _ => hp _).mono fun _ _ _ _ _ => trivial)

theorem terminated_rest_lt (hr : r.Sound) {o : Option Stmt} (hg : s.Good)
    (hb : s.current.kind ≠ .rbrace) (he : s.current.kind ≠ .eof) (h : r.terminated s = .ok o t) :
    t.rest.length < s.rest.length := by
  simp only [terminated, current_bind] at h
  split at h
  · cases h
    have hpos := List.length_pos_iff.mpr (hg.rest_ne_nil he)
    rw [advance_rest, List.length_tail]
    omega
  · obtain ⟨o', u, hu, h⟩ := bind_eq_ok.mp h
    have hsu := hr.statement.attempt.steps hu
    rcases Nat.lt_or_eq_of_le hsu.rest_length_le with hlt | heq
    · exact Nat.lt_of_le_of_lt ((ensures_terminate o').steps h).rest_length_le hlt
    · -- the statement has not moved the reader
      have htok : u.tokens = s.tokens :=
        hsu.tokens_suffix.eq_of_length (by simp [State.tokens, heq])
      have hcur : u.current = s.current := (List.cons.inj htok).1
      have hlt := terminate_rest_lt o' (hsu.good hg) (hcur ▸ hb) (hcur ▸ he)
      rw [h] at hlt
      exact heq ▸ hlt

theorem fueled_moreStatements (hr : r.Sound) : Fueled r.moreStatements := by
  refine fueled_of_rounds (ι := Unit) (f := fun _ => r.moreStatements) (fun _ n s hg hn => ?_)
    (fun k n m ih _ s hg hk => ?_) ()
  · simp only [moreStatements, current_bind, hg.rest_eq_nil_iff.mp hn]
  · simp only [moreStatements, current_bind]
    generalize hc : s.current.kind = c
    split
    · rfl
    · rfl
    · next hb he =>
      rw [bind_apply, bind_apply]
      cases hs : r.terminated s with
      | error e t => rfl
      | ok o t =>
        have hlt := terminated_rest_lt hr hg (hc ▸ hb) (hc ▸ he) hs
        exact (ih ()).then _ t ((ensures_terminated hr).steps hs |>.good hg) (by omega)

theorem fueled_program (hr : r.Sound) (recovering : Bool) :
    Fueled fun n => r.program n recovering := by
  refine fueled_of_rounds (f := fun recovering n => r.program n recovering)
    (fun recovering n s hg hn => ?_) (fun k n m ih recovering s hg hk => ?_) recovering
  · simp only [program, get_bind, hg.rest_eq_nil_iff.mp hn]
  · simp only [program, get_bind]
    generalize hc : s.current.kind = c
    split
    · rfl
    · cases recovering with
      | true =>
        exact advance_same (f := fun _ => r.program n false) (g := fun _ => r.program m false)
          (ih false) hg hk
      | false =>
        exact advance_same (f := fun _ => r.program n false) (g := fun _ => r.program m false)
          (s := s.record s.current.pos .strayBrace) (ih false) hg hk
    · next he hb =>
      rw [bind_apply, bind_apply]
      cases hs : r.terminated s with
      | error e t => rfl
      | ok o t =>
        have hlt := terminated_rest_lt hr hg (hc ▸ hb) (hc ▸ he) hs
        simp only [get_bind]
        exact (ih _).then _ t ((ensures_terminated hr).steps hs |>.good hg) (by omega)

end Rules

end Scriptlet.Parser
