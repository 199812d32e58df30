import Mathlib
import Scriptlet.Embed
import Scriptlet.Proofs.Parse.FirstError
import Scriptlet.Proofs.Token.Spelling

/-!
How a call of the host ends. It gets a result, or it gets a failure back; an error of the host's own
ends the call only where an integer has too many digits, in the text or in the bindings.
-/

namespace Scriptlet
open Number Scanner
open Scriptlet.Parser

variable {α β : Type} {s : Store} {P : Prop} {p : Importing α} {f : α → Importing β} {n : Int}
  {h v : Host} {depth : Nat} {cs : List Char} {source : String} {names : Option (List String)}
  {bindings : List (HostKey × Host)}

/-- Host data from which an integer is read: it is in the data, or a number of the data is cut to
it. -/
inductive Host.Holds (n : Int) : Host → Prop where
  | int : Holds n (.int n)
  | real {x : Binary64} (h : x.truncate? = some n) : Holds n (.real x)
  | list {items : List Host} {v : Host} (hm : v ∈ items) (h : Holds n v) : Holds n (.list items)
  | tuple {items : List Host} {v : Host} (hm : v ∈ items) (h : Holds n v) : Holds n (.tuple items)
  | map {entries : List (HostKey × Host)} {e : HostKey × Host} (hm : e ∈ entries)
    (h : Holds n e.2) : Holds n (.map entries)

/-- Some integer of some host data has too many digits to write it. -/
def Host.TooLong (h : Host) : Prop := ∃ n, h.Holds n ∧ ¬ Writable n

/-! ### What goes in -/

/-- Only under the condition is there an integer that cannot be written. -/
def UnwritableOnly (P : Prop) : Except ConversionFault (α × Store) → Prop
  | .error .unwritable => P
  | _ => True

theorem UnwritableOnly.mono {P' : Prop} {x : Except ConversionFault (α × Store)}
    (h : UnwritableOnly P x) (hP : P → P') : UnwritableOnly P' x := by
  unfold UnwritableOnly at h ⊢
  split
  · exact hP h
  · trivial

theorem UnwritableOnly.bind (hp : UnwritableOnly P (p s))
    (hf : ∀ a t, UnwritableOnly P (f a t)) : UnwritableOnly P ((p >>= f) s) := by
  simp only [Bind.bind, StateT.bind, Except.bind]
  generalize p s = x at hp
  match x, hp with
  | .error fault, hp =>
    cases fault <;> exact hp
  | .ok (a, t), _ => exact hf a t

theorem unwritableOnly_importInt (n : Int) (s : Store) :
    UnwritableOnly (¬ Writable n) (Host.importInt n s) := by
  unfold Host.importInt
  split
  · exact True.intro
  · split
    · exact True.intro
    · next hn => exact hn

theorem unwritableOnly_mapM {g : Host → Importing Value} (items : List Host)
    (hg : ∀ v ∈ items, ∀ s, UnwritableOnly P (g v s)) (s : Store) :
    UnwritableOnly P (items.mapM g s) := by
  induction items generalizing s with
  | nil => exact True.intro
  | cons v items ih =>
    obtain ⟨hv, hitems⟩ := List.forall_mem_cons.mp hg
    rw [List.mapM_cons]
    exact (hv s).bind fun w t => (ih hitems t).bind fun ws u => True.intro

theorem unwritableOnly_foldlM {g : Hashmap → HostKey × Host → Importing Hashmap}
    (entries : List (HostKey × Host)) (hg : ∀ e ∈ entries, ∀ m s, UnwritableOnly P (g m e s))
    (m : Hashmap) (s : Store) : UnwritableOnly P (entries.foldlM g m s) := by
  induction entries generalizing s m with
  | nil => exact True.intro
  | cons e entries ih =>
    obtain ⟨he, hentries⟩ := List.forall_mem_cons.mp hg
    rw [List.foldlM_cons]
    exact (he m s).bind fun m' t => ih hentries m' t

theorem unwritableOnly_importIn (depth : Nat) (path : List String) (h : Host) (s : Store) :
    UnwritableOnly h.TooLong (Host.importIn depth path h s) := by
  induction depth generalizing s path h with
  | zero => exact True.intro
  | succ d ih =>
    cases h with
    | int n => exact (unwritableOnly_importInt n s).mono fun hn => ⟨n, .int, hn⟩
    | real x =>
      simp only [Host.importIn]
      cases hx : x.truncate? with
      | some n => exact (unwritableOnly_importInt n s).mono fun hn => ⟨n, .real hx, hn⟩
      | none => exact True.intro
    | list items =>
      refine (unwritableOnly_mapM items (fun v hv s => (ih _ v s).mono ?_) s).bind
        fun vs t => True.intro
      exact fun ⟨n, hn, hw⟩ => ⟨n, .list hv hn, hw⟩
    | tuple items =>
      refine (unwritableOnly_mapM items (fun v hv s => (ih _ v s).mono ?_) s).bind
        fun vs t => True.intro
      exact fun ⟨n, hn, hw⟩ => ⟨n, .tuple hv hn, hw⟩
    | map entries =>
      refine (unwritableOnly_foldlM entries (fun e he m s => ?_) _ s).bind fun m t => True.intro
      obtain ⟨key, v⟩ := e
      cases key with
      | text name =>
        refine ((ih _ v s).mono ?_).bind fun w t => True.intro
        exact fun ⟨n, hn, hw⟩ => ⟨n, .map he hn, hw⟩
      | other typeName => exact True.intro
    | null | bool | text | foreign | up => exact True.intro

/-- Bindings of host data fail with such an integer only if one of them has it. -/
theorem tooLong_of_bindEach {scope : Nat}
    {selection : List (HostKey × Except ConversionFault Host)}
    (he : ∀ key, (key, .error .unwritable) ∉ selection)
    (h : (s.bindEach depth scope selection).2 = some .unwritable) :
    ∃ key v, (key, .ok v) ∈ selection ∧ v.TooLong := by
  induction selection generalizing s with
  | nil => simp [Store.bindEach] at h
  | cons b selection ih =>
    obtain ⟨key, host⟩ := b
    have hrest {t : Store} (h : (t.bindEach depth scope selection).2 = some .unwritable) :
        ∃ key' v, (key', .ok v) ∈ (key, host) :: selection ∧ v.TooLong := by
      obtain ⟨key', v, hm, hv⟩ := ih (fun key' hm => he key' (List.mem_cons_of_mem _ hm)) h
      exact ⟨key', v, List.mem_cons_of_mem _ hm, hv⟩
    cases host with
    | error fault =>
      have hf : fault = .unwritable := by simpa [Store.bindEach, Except.bind] using h
      exact absurd (by simp [hf]) (he key)
    | ok v =>
      have hv : UnwritableOnly v.TooLong (v.toValue depth s) := unwritableOnly_importIn depth [] v s
      simp only [Store.bindEach, Except.bind] at h
      generalize v.toValue depth s = x at hv h
      match x, hv, h with
      | .error fault, hv, h =>
        have hf : fault = .unwritable := by simpa using h
        subst hf
        exact ⟨key, v, by simp, hv⟩
      | .ok (w, t), _, h =>
        cases key with
        | text name => exact hrest h
        | other typeName => exact hrest h

theorem mem_of_mem_selected {key : HostKey} (h : (key, .ok v) ∈ selected bindings names) :
    ∃ key, (key, v) ∈ bindings := by
  cases names with
  | none =>
    obtain ⟨⟨key', v'⟩, hm, he⟩ := List.mem_map.mp h
    simp only [Prod.mk.injEq, Except.ok.injEq] at he
    exact ⟨key', he.2 ▸ hm⟩
  | some names =>
    obtain ⟨name, -, he⟩ := List.mem_map.mp h
    simp only [Prod.mk.injEq] at he
    obtain ⟨-, he⟩ := he
    split at he
    · next w hw =>
      simp only [Except.ok.injEq] at he
      obtain ⟨before, after, hb, -⟩ := List.lookup_eq_some_iff.mp hw
      exact ⟨.text name, by simp [hb, he]⟩
    · simp at he

theorem error_not_mem_selected (key : HostKey) :
    (key, .error .unwritable) ∉ selected bindings names := by
  intro h
  cases names with
  | none => simp [selected] at h
  | some names =>
    obtain ⟨name, -, he⟩ := List.mem_map.mp h
    simp only [Prod.mk.injEq] at he
    obtain ⟨-, he⟩ := he
    split at he <;> simp at he

/-! ### What comes out -/

/-- Not an error about an integer that cannot be written. -/
def Exports (x : Except ExportFault α) : Prop := x ≠ .error (.conversion .unwritable)

theorem Exports.bind {x : Except ExportFault α} {g : α → Except ExportFault β} (hx : Exports x)
    (hg : ∀ a, Exports (g a)) : Exports (x >>= g) := by
  cases x with
  | error fault =>
    intro he
    exact hx (by simpa [Bind.bind, Except.bind] using he)
  | ok a => exact hg a

theorem exports_mapM {γ : Type} {g : γ → Except ExportFault α} (items : List γ)
    (hg : ∀ a, Exports (g a)) : Exports (items.mapM g) := by
  induction items with
  | nil => simp [Exports, pure, Except.pure]
  | cons a items ih =>
    rw [List.mapM_cons]
    exact (hg a).bind fun b => ih.bind fun bs => by simp [Exports, pure, Except.pure]

theorem exports_exportIn (s : Store) (depth : Nat) (path : List Value) (v : Value) :
    Exports (s.exportIn depth path v) := by
  induction depth generalizing path v with
  | zero => simp [Exports, Store.exportIn]
  | succ d ih =>
    cases v with
    | array place =>
      simp only [Store.exportIn]
      split
      · simp [Exports]
      · exact (exports_mapM _ fun v => ih _ v).bind fun _ => by simp [Exports, pure, Except.pure]
    | hashmap place =>
      simp only [Store.exportIn]
      split
      · simp [Exports]
      · refine (exports_mapM _ fun e => ?_).bind fun _ => by simp [Exports, pure, Except.pure]
        exact (ih _ e.value).bind fun _ => by simp [Exports, pure, Except.pure]
    | _ => simp [Exports, Store.exportIn]

/-! ### Calls -/

/-- No result of a program is an integer that cannot be written. -/
theorem kind_ofValue {result : Option Value} {f : Failure}
    (h : (Run.ofValue depth s result).result = .error f) : f.kind ≠ .valueError := by
  intro hk
  cases result with
  | none => cases h
  | some v =>
    have hv : Exports (s.toHost depth v) := exports_exportIn s depth [] v
    simp only [Run.ofValue] at h
    generalize s.toHost depth v = x at h hv
    cases x with
    | ok a => cases h
    | error fault =>
      cases fault with
      | error | tooDeep =>
        cases h
        cases hk
      | conversion fault =>
        cases h
        cases fault with
        | unwritable => exact hv rfl
        | _ => cases hk

theorem tooLong_of_runProgram {body : List Stmt} {f : Failure}
    (h : (runProgram depth body bindings names).result = .error f) (hk : f.kind = .valueError) :
    ∃ key v, (key, v) ∈ bindings ∧ v.TooLong := by
  simp only [runProgram] at h
  split at h
  · next fault hb =>
    cases h
    have hfault : fault = .unwritable := by
      cases fault <;> simp [Failure.kind, ConversionFault.kind] at hk ⊢
    obtain ⟨key, v, hm, hv⟩ :=
      tooLong_of_bindEach error_not_mem_selected ((congrArg Prod.snd hb).trans (by rw [hfault]))
    obtain ⟨key, hm⟩ := mem_of_mem_selected hm
    exact ⟨key, v, hm, hv⟩
  · split at h
    · exact absurd hk (kind_ofValue h)
    · cases h
      cases hk

theorem longLiteral_of_parse {e : LiteralTooLong} (h : parse depth source = .error e) :
    LongLiteral (tokenize source) := by
  unfold parse parseTokens at h
  split at h
  · cases h
  · next digits t hr => exact longLiteral_of_run (lexed_tokenize source).ne_nil hr
  · cases h

theorem longLiteral_or_tooLong_of_run {f : Failure}
    (h : (run depth source bindings names).result = .error f) (hk : f.kind = .valueError) :
    LongLiteral (tokenize source) ∨ ∃ key v, (key, v) ∈ bindings ∧ v.TooLong := by
  unfold run at h
  split at h
  · next hp => exact .inl (longLiteral_of_parse hp)
  · exact .inr (tooLong_of_runProgram h hk)
  · cases h
    cases hk

theorem tokenize_digits (hc : ∀ c ∈ cs, isDigit c = true) (hn : cs ≠ []) :
    tokenize (String.ofList cs) =
      [⟨.int, String.ofList cs, ⟨1, 1⟩⟩, ⟨.eof, "", ⟨1, cs.length + 1⟩⟩] := by
  obtain ⟨c, ds, hcs⟩ := List.exists_cons_of_ne_nil hn
  have hd : isDigit c = true := hc c (by simp [hcs])
  obtain ⟨hb, hnl, hq⟩ := isWordChar_ne (c := c) (by simp [isWordChar, hd])
  let s : Scanner := { rest := cs }
  have hrun : s.readRun isDigit = (cs, s.skip cs.length []) := by
    simp only [readRun, List.takeWhile_eq_self_iff.mpr hc, List.dropWhile_eq_nil_iff.mpr hc, s]
  have hscan : s.scan = (⟨.int, String.ofList cs, ⟨1, 1⟩⟩, s.skip cs.length []) := by
    simp only [scan, show s.rest = c :: ds from hcs, hnl, hq, isLetter_of_isDigit hd, hd, hrun,
      if_false, if_true, Bool.false_eq_true]
    rfl
  have hblank : s.skipBlank = s := skipBlank_eq hcs hb
  have hnext : s.next = (⟨.int, String.ofList cs, ⟨1, 1⟩⟩,
      { s.skip cs.length [] with atEnd := true }) := by
    simp only [next, hblank, hscan]
    rfl
  have htokens (n : Nat) : s.tokens (n + 1) =
      [⟨.int, String.ofList cs, ⟨1, 1⟩⟩, ⟨.eof, "", ⟨1, cs.length + 1⟩⟩] := by
    rw [tokens, hnext]
    cases n <;> simp [tokens, next, skipBlank, skipBlank.go, scan, skip, pos, s]
  have hsource : Scanner.ofText (String.ofList cs) = s := by simp [Scanner.ofText, s]
  have hlen : cs.length = ds.length + 1 := by simp [hcs]
  rw [tokenize, hsource, ← htokens ds.length, ← hlen]

/-- An integer alone. -/
theorem parse_digits (depth : Nat) (hc : ∀ c ∈ cs, isDigit c = true)
    (hl : digitLimit < cs.length) :
    parse (depth + 2) (String.ofList cs) = .error ⟨cs.length⟩ := by
  have hn : cs ≠ [] := by
    rintro rfl
    simp at hl
  let t : Token := ⟨.int, String.ofList cs, ⟨1, 1⟩⟩
  have hoperand (s : State) (hs : s.current = t) :
      (rules depth).operand s = .error (.literalTooLong cs.length) s := by
    simp only [Rules.operand, current_bind, hs, Rules.integer_apply, String.toList_ofList,
      if_pos hl, t]
  have hexpression (s : State) (hs : s.current = t) :
      (rules (depth + 1)).expression Power.lowest s = .error (.literalTooLong cs.length) s := by
    change (rules depth).expressionRule Power.lowest s = _
    rw [Rules.expressionRule, bind_apply, hoperand s hs]
  have hstatement (s : State) (hs : s.current = t) :
      (rules (depth + 2)).statement s = .error (.literalTooLong cs.length) s := by
    change (rules (depth + 1)).statementRule s = _
    simp only [Rules.statementRule, current_bind, hs, t, peek_bind, reduceCtorEq, decide_false,
      Bool.false_and, Bool.false_eq_true, if_false]
    rw [bind_apply, hexpression s hs]
  let s : State := { current := t, rest := [⟨.eof, "", ⟨1, cs.length + 1⟩⟩] }
  have hterminated : (rules (depth + 2)).terminated s = .error (.literalTooLong cs.length) s := by
    simp only [Rules.terminated, current_bind, s, t, reduceCtorEq, if_false]
    rw [bind_apply, attempt, hstatement _ rfl]
  have hrun : Parser.run (depth + 2) [t, ⟨.eof, "", ⟨1, cs.length + 1⟩⟩] =
      .error (.literalTooLong cs.length) s := by
    change (rules (depth + 2)).program 1 false s = _
    simp only [Rules.program, get_bind, s, t]
    rw [bind_apply, hterminated]
  rw [parse, parseTokens, tokenize_digits hc hn, hrun]

/-- An integer of the bindings. -/
theorem evaluate_unwritable (depth : Nat) (hn : ¬ Writable n) :
    evaluate (depth + 1) "" [(.text "x", .int n)] none = .error (.conversion .unwritable) := by
  have hword : ¬ InWord n := by
    intro hw
    apply hn
    have hn : n.natAbs < 10 ^ 19 := by
      simp only [InWord, minWord, maxWord] at hw
      omega
    rw [Writable, Nat.length_toDigits_le_iff (by decide) (by decide)]
    exact Nat.lt_of_lt_of_le hn (Nat.pow_le_pow_right (by decide) (by decide))
  have hrun : (run (depth + 1) "" [(.text "x", .int n)] none).result =
      .error (.conversion .unwritable) := by
    have hp : parse (depth + 1) "" = .ok ⟨[], []⟩ := rfl
    have himport (s : Store) : Host.importInt n s = .error .unwritable := by
      simp only [Host.importInt, hword, hn, if_false]
      rfl
    simp only [run, hp, runProgram, Store.bindAll, selected, List.map_cons, List.map_nil,
      Store.bindEach, Except.bind, Host.toValue, Host.importIn, himport]
  rw [evaluate, hrun]
  rfl

theorem not_writable_pow : ¬ Writable (10 ^ digitLimit) := by
  rw [Writable, Int.natAbs_pow, Nat.length_toDigits_le_iff (by decide) (by decide),
    show Int.natAbs 10 = 10 from rfl]
  exact Nat.lt_irrefl _

end Scriptlet
