import Mathlib.Data.BitVec
import Scriptlet.Embed

/-!
Integer arithmetic is that of machine words of 64 bits in two's complement. A tree of integers, names
of integers, minus signs and the operators `+ - * / %` has the value that it has for the machine, and
the first division by zero on the way is the result of the whole.
-/

namespace Scriptlet

open Number Value

/-- The operators of integer arithmetic. -/
inductive ArithOp where
  | add | sub | mul | div | mod
  deriving DecidableEq, Repr

/-- Trees of integer arithmetic. -/
inductive Arith where
  | literal (w : BitVec 64)
  | name (x : String)
  | neg (e : Arith)
  | binary (op : ArithOp) (left right : Arith)
  deriving DecidableEq, Repr

/-- The operator of programs. -/
def ArithOp.toInfix : ArithOp → InfixOp
  | add => .add
  | sub => .sub
  | mul => .mul
  | div => .div
  | mod => .mod

/-- What the machine does with two words, none of which it divides by zero. -/
def ArithOp.machine : ArithOp → BitVec 64 → BitVec 64 → Except Fault (BitVec 64)
  | add, a, b => .ok (a + b)
  | sub, a, b => .ok (a - b)
  | mul, a, b => .ok (a * b)
  | div, a, b => if b = 0 then .error .divisionByZero else .ok (a.sdiv b)
  | mod, a, b => if b = 0 then .error .moduloByZero else .ok (a.srem b)

namespace Arith

/-- The tree as an expression of a program. -/
def toExpr : Arith → Expr
  | literal w => .int w.toInt
  | name x => .ident x
  | neg e => .unary .neg e.toExpr
  | binary op l r => .binary op.toInfix l.toExpr r.toExpr

/-- The names in a tree. -/
def names : Arith → List String
  | literal _ => []
  | name x => [x]
  | neg e => e.names
  | binary _ l r => l.names ++ r.names

/-- The number of levels of a tree. -/
def height : Arith → Nat
  | literal _ | name _ => 1
  | neg e => e.height + 1
  | binary _ l r => max l.height r.height + 1

/-- The word that the machine computes, where names stand for words: the left operand first, then the
right one, then the operator. -/
def machine (word : String → BitVec 64) : Arith → Except Fault (BitVec 64)
  | literal w => .ok w
  | name x => .ok (word x)
  | neg e => do return -(← e.machine word)
  | binary op l r => do op.machine (← l.machine word) (← r.machine word)

end Arith

/-- A value that shows what the machine computes. -/
def Shows : Except Fault (BitVec 64) → Value → Prop
  | .ok w, v => ∃ mark, v = .int w.toInt mark
  | .error f, v => v = ofFault f

/-! ### Operators -/

/-- Division that cuts off toward zero, by the quotient of the magnitudes. By zero there is none. -/
def Number.quotient? (a b : Int) : Option Int :=
  if b = 0 then none
  else
    let q : Int := (a.natAbs / b.natAbs : Nat)
    some (if a < 0 ↔ b < 0 then q else -q)

/-- An operator between integers, where the quotient is asked for only once the divisor has been
looked at. -/
def InfixOp.onInts? (op : InfixOp) (a b : Int) : Option Value :=
  match op with
  | div => if b = 0 then some (ofFault .divisionByZero) else do return ofInt (wrap (← quotient? a b))
  | mod =>
    if b = 0 then some (ofFault .moduloByZero)
    else do return ofInt (wrap (a - b * (← quotient? a b)))
  | op => some (op.onInts a b)

variable {word : String → BitVec 64} {t : Arith} {s : Store} {scope d : Nat} {a b : BitVec 64}
  {x : Except Fault (BitVec 64)} {P Q : Prop} {op : ArithOp} {v v' : Value}

theorem Number.quotient?_eq {m n : Int} (hn : n ≠ 0) : quotient? m n = some (m.tdiv n) := by
  rw [quotient?, if_neg hn]
  cases m with
  | ofNat m => cases n with
    | ofNat n =>
      have hm : ¬ ((m : Int) < 0) := by omega
      have hn : ¬ ((n : Int) < 0) := by omega
      simp [Int.tdiv, hm, hn]
    | negSucc n => simp [Int.tdiv]
  | negSucc m => cases n with
    | ofNat n => simp [Int.tdiv]
    | negSucc n => simp [Int.tdiv]

/-- No operator divides by zero. -/
theorem InfixOp.onInts?_eq (op : InfixOp) (m n : Int) : op.onInts? m n = some (op.onInts m n) := by
  by_cases hn : n = 0
  · cases op <;> simp [onInts?, onInts, hn]
  · cases op <;> simp [onInts?, onInts, hn, quotient?_eq hn, Int.tmod_def]

theorem inWord_toInt (a : BitVec 64) : InWord a.toInt := by
  have hlo := a.le_toInt
  have hhi := a.toInt_lt
  simp only [InWord, minWord, maxWord]
  omega

theorem toInt_eq_zero_iff : a.toInt = 0 ↔ a = 0 := BitVec.toInt_inj (y := 0)

/-- A result that is wrapped shows the word that is congruent to it. -/
theorem shows_wrap {n : Int} (h : a.toInt = wrap n) : Shows (.ok a) (ofInt (wrap n)) :=
  ⟨none, h ▸ rfl⟩

theorem ArithOp.shows_onInts (op : ArithOp) (a b : BitVec 64) :
    Shows (op.machine a b) (op.toInfix.onInts a.toInt b.toInt) := by
  cases op with
  | add => exact shows_wrap (BitVec.toInt_add a b)
  | sub => exact shows_wrap BitVec.toInt_sub
  | mul => exact shows_wrap (BitVec.toInt_mul a b)
  | div =>
    simp only [machine, toInfix, InfixOp.onInts, toInt_eq_zero_iff]
    split
    · rfl
    · exact shows_wrap (BitVec.toInt_sdiv a b)
  | mod =>
    simp only [machine, toInfix, InfixOp.onInts, toInt_eq_zero_iff]
    split
    · rfl
    · have hw := inWord_toInt (a.srem b)
      rw [BitVec.toInt_srem] at hw
      exact shows_wrap ((BitVec.toInt_srem a b).trans (wrap_of_inWord hw).symm)

/-- An operator on values that show words. -/
theorem ArithOp.shows_apply (op : ArithOp) (ha : Shows (.ok a) v) (hb : Shows (.ok b) v') :
    Shows (op.machine a b) (op.toInfix.apply v v') := by
  obtain ⟨m, rfl⟩ := ha
  obtain ⟨m', rfl⟩ := hb
  have happly : op.toInfix.apply (.int a.toInt m) (.int b.toInt m') =
      op.toInfix.onInts a.toInt b.toInt := by cases op <;> rfl
  exact happly ▸ op.shows_onInts a b

theorem shows_neg (ha : Shows (.ok a) v) : Shows (.ok (-a)) (PrefixOp.neg.apply v) := by
  obtain ⟨m, rfl⟩ := ha
  exact shows_wrap BitVec.toInt_neg

theorem Shows.isSignal_of_ok (h : Shows (.ok a) v) : v.isSignal = false := by
  obtain ⟨m, rfl⟩ := h
  rfl

/-! ### Trees -/

/-- How an evaluation ends that changes nothing: with a value that shows what the machine computes, or
without room for the levels. If there is no such room, only a fault can come first. -/
def Computes (s : Store) (fits : Prop) (x : Except Fault (BitVec 64)) :
    EStateM.Result Halt Store (Option Value) → Prop
  | .ok o t => t = s ∧ (∃ v, o = some v ∧ Shows x v) ∧ (fits ∨ ∃ f, x = .error f)
  | .error h t => t = s ∧ h = .tooDeep ∧ ¬ fits

theorem Computes.mono {res : EStateM.Result Halt Store (Option Value)} (h : Computes s P x res)
    (hP : P ↔ Q) : Computes s Q x res := by
  match res, h with
  | .ok _ _, ⟨ht, hv, hf⟩ => exact ⟨ht, hv, hf.imp_left hP.mp⟩
  | .error _ _, ⟨ht, hh, hf⟩ => exact ⟨ht, hh, fun hq => hf (hP.mpr hq)⟩

theorem computes_some (h : Shows x v) (hP : P) : Computes s P x (.ok (some v) s) :=
  ⟨rfl, ⟨v, rfl, h⟩, .inl hP⟩

/-- An operand is computed, and then the rest, unless the operand is a fault. -/
theorem Computes.operand {p : Eval (Option Value)} {f : Value → Eval (Option Value)}
    {g : BitVec 64 → Except Fault (BitVec 64)} (hp : Computes s P x (p s))
    (hf : ∀ a v, Shows (.ok a) v → Computes s Q (g a) (f v s)) :
    Computes s (P ∧ Q) (x >>= g)
      (((do return (← p).getD .null) >>= fun v => if v.isSignal then return some v else f v) s) := by
  simp only [Bind.bind, EStateM.bind]
  generalize p s = res at hp
  match res, hp with
  | .error h t, ⟨ht, hh, hfit⟩ => exact ⟨ht, hh, fun hpq => hfit hpq.1⟩
  | .ok o t, ⟨ht, ⟨v, ho, hv⟩, hfit⟩ =>
    subst ht ho
    cases x with
    | error fault =>
      obtain rfl : v = ofFault fault := hv
      exact ⟨rfl, ⟨_, rfl, rfl⟩, .inr ⟨fault, rfl⟩⟩
    | ok a =>
      have hP : P := hfit.resolve_right nofun
      have hrest := (hf a v hv).mono (Q := P ∧ Q) ⟨fun hQ => ⟨hP, hQ⟩, And.right⟩
      simpa [Pure.pure, EStateM.pure, Except.bind, hv.isSignal_of_ok] using hrest

/-- A tree is computed, whatever room there is. -/
theorem computes_eval
    (hn : ∀ n ∈ t.names, ∃ mark, s.lookup? scope n = some (.int (word n).toInt mark)) (d : Nat) :
    Computes s (t.height ≤ d) (t.machine word) (eval d (.expr t.toExpr) scope s) := by
  induction t generalizing d with
  | literal w =>
    cases d with
    | zero => exact ⟨rfl, rfl, by simp [Arith.height]⟩
    | succ d => exact computes_some ⟨none, rfl⟩ (Nat.le_add_left 1 d)
  | name n =>
    obtain ⟨mark, hmark⟩ := hn n (List.mem_singleton.mpr rfl)
    cases d with
    | zero => exact ⟨rfl, rfl, by simp [Arith.height]⟩
    | succ d =>
      have heval : eval (d + 1) (.expr (.ident n)) scope s =
          .ok (some (.int (word n).toInt mark)) s := by
        have hget : (get : Eval Store) s = .ok s s := rfl
        change (Evaluator.identifier scope n >>= fun v => pure (some v)) s = _
        simp only [Evaluator.identifier, Bind.bind, EStateM.bind, hget, hmark]
        rfl
      exact heval ▸ computes_some ⟨mark, rfl⟩ (Nat.le_add_left 1 d)
  | neg e ih =>
    cases d with
    | zero => exact ⟨rfl, rfl, by simp [Arith.height]⟩
    | succ d =>
      refine Computes.mono (Computes.operand (Q := True) (ih hn d) fun a v hv => ?_) ?_
      · exact computes_some (shows_neg hv) trivial
      · simp [Arith.height]
  | binary op l r ihl ihr =>
    obtain ⟨hl, hr⟩ := List.forall_mem_append.mp hn
    cases d with
    | zero => exact ⟨rfl, rfl, by simp [Arith.height]⟩
    | succ d =>
      refine Computes.mono (Computes.operand (ihl hl d) fun a v hv =>
        Computes.operand (Q := True) (ihr hr d) fun b w hw => ?_) ?_
      · exact computes_some (op.shows_apply hv hw) trivial
      · simp [Arith.height]

/-- With room for its levels a tree evaluates to what the machine computes, and leaves the store as it
was. With less there is no result, unless a division by zero comes first. No operator divides by zero
at all. -/
theorem eval_arithmetic
    (hn : ∀ n ∈ t.names, ∃ mark, s.lookup? scope n = some (.int (word n).toInt mark)) (d : Nat) :
    (t.height ≤ d →
      ∃ v, eval d (.expr t.toExpr) scope s = .ok (some v) s ∧ Shows (t.machine word) v) ∧
    (d < t.height → eval d (.expr t.toExpr) scope s = .error .tooDeep s ∨
      ∃ f, t.machine word = .error f ∧ eval d (.expr t.toExpr) scope s = .ok (some (ofFault f)) s) ∧
    ∀ (op : InfixOp) (m n : Int), op.onInts? m n = some (op.onInts m n) := by
  have h := computes_eval hn d
  generalize eval d (.expr t.toExpr) scope s = res at h
  refine ⟨fun hd => ?_, fun hd => ?_, InfixOp.onInts?_eq⟩
  · match res, h with
    | .ok _ _, ⟨ht, ⟨v, hv, hs⟩, _⟩ => exact ⟨v, by rw [ht, hv], hs⟩
    | .error _ _, ⟨_, _, hfit⟩ => exact absurd hd hfit
  · match res, h with
    | .ok _ _, ⟨ht, ⟨v, hv, hs⟩, hfit⟩ =>
      obtain ⟨f, hf⟩ := hfit.resolve_left (Nat.not_le_of_lt hd)
      rw [hf] at hs
      exact .inr ⟨f, hf, by rw [ht, hv, hs]⟩
    | .error _ _, ⟨ht, hh, _⟩ => exact .inl (by rw [ht, hh])

/-- The quotient of the least word and minus one is the least word again. -/
example : InfixOp.onInts .div minWord (-1) = ofInt minWord ∧
    InfixOp.onInts .mod minWord (-1) = ofInt 0 := by decide

/-- A store whose scope binds `x` to the least word. -/
def leastBound : Store := (({} : Store).newScope none).2.bind 0 "x" (.ofInt minWord)

/-- The left operand overflows, and the right one is a remainder by zero: `x / -1 + x % (3 - 3)`. -/
def overflowAndModulo : Arith :=
  .binary .add (.binary .div (.name "x") (.literal (-1)))
    (.binary .mod (.name "x") (.binary .sub (.literal 3) (.literal 3)))

theorem eval_arithmetic_modulo_by_zero :
    (∀ n ∈ overflowAndModulo.names, ∃ mark,
      leastBound.lookup? 0 n = some (.int (BitVec.intMin 64).toInt mark)) ∧
    eval 4 (.expr overflowAndModulo.toExpr) 0 leastBound =
      .ok (some (ofFault .moduloByZero)) leastBound := by
  have hn : ∀ n ∈ overflowAndModulo.names, ∃ mark,
      leastBound.lookup? 0 n = some (.int (BitVec.intMin 64).toInt mark) := by
    simp only [overflowAndModulo, Arith.names, List.cons_append, List.nil_append, List.append_nil,
      List.forall_mem_cons, List.not_mem_nil, false_implies, implies_true, and_true, and_self]
    exact ⟨none, by decide⟩
  obtain ⟨v, hv, hs⟩ := (eval_arithmetic hn 4).1 (by decide)
  have hmachine : overflowAndModulo.machine (fun _ => BitVec.intMin 64) = .error .moduloByZero := by
    decide
  rw [hmachine] at hs
  exact ⟨hn, hv.trans (by rw [hs])⟩

/-- One, and so many ones added to it from left to right. -/
def Arith.ones : Nat → Arith
  | 0 => literal 1
  | n + 1 => binary .add (ones n) (literal 1)

theorem Arith.height_ones (n : Nat) : (ones n).height = n + 1 := by
  induction n with
  | zero => rfl
  | succ n ih => simp [ones, height, ih]

theorem Arith.names_ones (n : Nat) : (ones n).names = [] := by
  induction n with
  | zero => rfl
  | succ n ih => simp [ones, names, ih]

theorem Arith.machine_ones (n : Nat) : (ones n).machine word = .ok (BitVec.ofNat 64 (n + 1)) := by
  induction n with
  | zero => rfl
  | succ n ih =>
    have hadd : BitVec.ofNat 64 (n + 1) + 1 = BitVec.ofNat 64 (n + 1 + 1) :=
      (BitVec.ofNat_add (n + 1) 1).symm
    rw [ones, machine, ih]
    exact congrArg Except.ok hadd

theorem Arith.eval_ones {n : Nat} (hd : d ≤ n) :
    eval d (.expr (ones n).toExpr) scope s = .error .tooDeep s := by
  have h : Computes s ((ones n).height ≤ d) ((ones n).machine fun _ => 0)
      (eval d (.expr (ones n).toExpr) scope s) := computes_eval (by simp [names_ones]) d
  rw [machine_ones, height_ones] at h
  generalize eval d (.expr (ones n).toExpr) scope s = res at h
  match res, h with
  | .ok _ _, ⟨_, _, hfit⟩ =>
    obtain hle | ⟨f, hf⟩ := hfit
    · omega
    · cases hf
  | .error _ _, ⟨ht, hh, _⟩ => rw [ht, hh]

/-- The sum of three thousand ones has no value, as the levels of its tree are too many. -/
theorem eval_three_thousand_ones :
    (Arith.ones 2999).names = [] ∧ (Arith.ones 2999).machine (fun _ => 0) = .ok 3000 ∧
    ¬ ∃ v t, eval defaultDepth (.expr (Arith.ones 2999).toExpr) 0 {} = .ok (some v) t ∧
      Shows ((Arith.ones 2999).machine fun _ => 0) v := by
  refine ⟨Arith.names_ones 2999, Arith.machine_ones 2999, fun ⟨v, t, hv, _⟩ => ?_⟩
  rw [Arith.eval_ones (by decide)] at hv
  cases hv

end Scriptlet
