import Scriptlet.Embed
import Scriptlet.Proofs.Grammar.Spelt
import Scriptlet.Proofs.Host.Native
import Scriptlet.Proofs.Parse.Acceptance

/-!
Program texts compute with words. The literals of a text without errors are words, and so is every
integer from there to the result that the host gets.
-/

namespace Scriptlet
open Number Value

variable {depth : Nat} {source : String} {body : List Stmt} {bindings : List (HostKey × Host)}
  {names : Option (List String)} {s : Store}

theorem inRange_of_parse (hp : parse depth source = .ok ⟨body, []⟩) :
    (Node.program body).InRange := by
  obtain ⟨t, ht, hn⟩ := parse_eq_ok_iff.mp hp
  exact (Parser.spells_of_run (lexed_tokenize source) ht hn).spelt.inRange

/-- A result that is host data is plain and can be bound again. -/
theorem returns_ofValue {t : Store} {o : Option Value} {h : Host} (ht : t.InRange)
    (ho : ∀ v ∈ o, v.InRange) (hr : (Run.ofValue depth t o).result = .ok h) :
    h.Native ∧ ∀ d s, depth ≤ d → 0 < d → ∃ v u, h.toValue d s = .ok (v, u) := by
  cases o with
  | none =>
    cases hr
    refine ⟨.null, fun d s _ hd => ?_⟩
    obtain ⟨d, rfl, -⟩ := exists_succ_of_le hd
    exact ⟨.null, s, rfl⟩
  | some v =>
    simp only [Run.ofValue] at hr
    split at hr <;> cases hr
    obtain ⟨hn, hi⟩ := returns_exportIn ht (ho v rfl) ‹_›
    exact ⟨hn, fun d s hd _ => hi d hd [] s⟩

/-- A program that gives a result has been evaluated on the bindings. -/
theorem runProgram_eq_ok
    (hb : (({} : Store).newScope none).2.bindAll depth 0 bindings names = (s, none))
    (hr : (runProgram depth body bindings names).result = .ok h) :
    ∃ o t, eval depth (.program body) 0 s = .ok o t ∧ (Run.ofValue depth t o).result = .ok h := by
  rw [runProgram_of_bound hb] at hr
  split at hr
  · next o t he => exact ⟨o, t, he, hr⟩
  · cases hr

/-- All integers in the course of a program text, run on bindings, are words, if what is counted has
no more elements than there are words for: those in the stores and nodes, in all outcomes and in the
arguments of builtins. A result is plain host data, which the host can bind again. -/
theorem words_of_run (hp : parse depth source = .ok ⟨body, []⟩)
    (hb : (({} : Store).newScope none).2.bindAll depth 0 bindings names = (s, none))
    (hc : ∀ x, (⟨depth, .program body, 0, s⟩ : Visit).Leads x → Counts x) :
    (∀ x, (⟨depth, .program body, 0, s⟩ : Visit).Leads x →
      x.store.InRange ∧ x.node.InRange ∧ RangedOutcome x.result ∧
      ∀ b args t, x.Applies b args t → t.InRange ∧ ∀ a ∈ args, a.InRange) ∧
    ∀ h, (run depth source bindings names).result = .ok h →
      h.Native ∧ ∀ d t, depth ≤ d → ∃ v u, h.toValue d t = .ok (v, u) := by
  have hn := inRange_of_parse hp
  have hs : s.InRange := by
    have hs := inRange_bindAll depth 0 bindings names (Store.InRange.empty.newScope none)
    rwa [hb] at hs
  refine ⟨fun x hx => ?_, fun h hr => ?_⟩
  · obtain ⟨hxs, hxn⟩ := hx.inRange hs hn hc
    have hxc : ∀ y, x.Leads y → Counts y := fun y hy => hc y (hx.trans hy)
    exact ⟨hxs, hxn, ranged_eval x.depth hxs hxn hxc, fun b args t ha =>
      ha.inRange (entersRanged_of_counts hxc) hxs hxn⟩
  · have he := ranged_eval depth hs hn hc
    rw [run, hp] at hr
    change (runProgram depth body bindings names).result = _ at hr
    obtain ⟨o, t, heval, hr⟩ := runProgram_eq_ok hb hr
    rw [heval] at he
    have hd : 0 < depth := by
      cases depth with
      | zero => cases heval
      | succ n => exact Nat.succ_pos n
    obtain ⟨hnat, hi⟩ := returns_ofValue he.1 he.2 hr
    exact ⟨hnat, fun d t hle => hi d t hle (Nat.lt_of_lt_of_le hd hle)⟩

/-- The length of a text. -/
theorem words_of_run_len : parse 12 "len(\"ab\")" =
      .ok ⟨[.expr (.call (.ident "len") [.string "ab"])], []⟩ ∧
    (run 12 "len(\"ab\")" [] none).result = .ok (.int 2) ∧ (Host.int 2).Native ∧
    ∀ d t, 12 ≤ d → ∃ v u, (Host.int 2).toValue d t = .ok (v, u) := by
  have hp : parse 12 "len(\"ab\")" =
      .ok ⟨[.expr (.call (.ident "len") [.string "ab"])], []⟩ := by cbv
  have hr : (run 12 "len(\"ab\")" [] none).result = .ok (.int 2) := by
    rw [run, hp]
    rfl
  have hb : (({} : Store).newScope none).2.bindAll 12 0 [] none =
      ((({} : Store).newScope none).2, none) := rfl
  refine ⟨hp, hr, (words_of_run hp hb fun x hx => ?_).2 _ hr⟩
  -- the program and its parts are all that is evaluated, and the argument is always the text
  have hident (d : Nat) {r : Option Value} {t : Store}
      (h : eval d (.expr (.ident "len")) 0 (({} : Store).newScope none).2 = .ok r t) :
      r = some (.builtin .len) ∧ t = (({} : Store).newScope none).2 := by
    cases d with
    | zero => cases h
    | succ d =>
      cases h
      exact ⟨rfl, rfl⟩
  have hstring (d i : Nat) {vs : List Value} {t u : Store}
      (h : (eval d).values i [.string "ab"] t = .ok (.ok vs) u) : vs = [.string "ab" none] := by
    cases d with
    | zero => cases h
    | succ d =>
      cases h
      rfl
  have hnode : x.scope = 0 ∧ x.store = (({} : Store).newScope none).2 ∧
      (x.node = .program [.expr (.call (.ident "len") [.string "ab"])] ∨
        x.node = .stmt (.expr (.call (.ident "len") [.string "ab"])) ∨
        x.node = .expr (.call (.ident "len") [.string "ab"]) ∨
        x.node = .expr (.ident "len") ∨ x.node = .expr (.string "ab")) := by
    induction hx with
    | refl => exact ⟨rfl, rfl, .inl rfl⟩
    | tail _ hyz ih =>
      obtain ⟨hi, hs, hn⟩ := ih
      cases hyz with
      | part hm =>
        subst hi hs
        rcases hn with rfl | rfl | rfl | rfl | rfl
        · cases hm with
          | here => exact ⟨rfl, rfl, .inr (.inl rfl)⟩
          | next _ _ hm => cases hm
        · cases hm with
          | here => exact ⟨rfl, rfl, .inr (.inr (.inl rfl))⟩
          | next _ _ hm => cases hm
        · cases hm with
          | here => exact ⟨rfl, rfl, .inr (.inr (.inr (.inl rfl)))⟩
          | next he _ hm =>
            obtain ⟨-, rfl⟩ := hident _ he
            cases hm with
            | here => exact ⟨rfl, rfl, .inr (.inr (.inr (.inr rfl)))⟩
            | next _ _ hm => cases hm
        · cases hm
        · cases hm
      | consequence => simp at hn
      | alternative => simp at hn
      | body hf =>
        subst hi hs
        simp only [reduceCtorEq, false_or, or_false, Node.expr.injEq, Expr.call.injEq] at hn
        obtain ⟨rfl, rfl⟩ := hn
        obtain ⟨o, ho, hv⟩ := value_eq_ok hf
        obtain ⟨rfl, -⟩ := hident _ ho
        cases hv
  rintro a t ⟨hf, ha⟩
  obtain ⟨-, -, hn⟩ := hnode
  simp only [reduceCtorEq, false_or, or_false, Node.expr.injEq, Expr.call.injEq] at hn
  obtain ⟨rfl, rfl⟩ := hn
  cases hstring _ _ ha
  change "ab".length < 0x8000000000000000
  decide

end Scriptlet
