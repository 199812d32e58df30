import Scriptlet.Embed
import Scriptlet.Proofs.Eval.Unmentioned
import Scriptlet.Proofs.Host.Exporting

/-!
Without `push` no collection comes to contain itself. A collection is filled before it is there for
others to contain, and only the builtin adds to it later. Builtins are values that come from their
names only, so a program text without the name never gets hold of this one.
-/

namespace Scriptlet
open Value

variable {s t : Store} {v : Value} {c : Closure} {m : Hashmap} {name : String} {scope place : Nat}

/-! ### Builtins -/

theorem PrefixOp.apply_ne_builtin (op : PrefixOp) (v : Value) (b : Builtin) :
    op.apply v ≠ .builtin b := by
  unfold apply
  split <;> nofun

theorem InfixOp.apply_ne_builtin (op : InfixOp) (l r : Value) (b : Builtin) :
    op.apply l r ≠ .builtin b := by
  unfold apply
  split
  · nofun
  · split
    case h_5 =>
      unfold onInts
      split
      case h_4 | h_5 => split <;> nofun
      all_goals nofun
    case h_6 =>
      unfold onStrings
      split <;> nofun
    all_goals nofun

/-- A builtin gives another builtin only as an element of an array. -/
theorem Builtin.apply_eq_builtin {b b' : Builtin} {args : List Value}
    (h : (b.apply args s).1 = .builtin b') : ∃ place, .builtin b' ∈ s.elements place := by
  have he (place : Nat) {o : Option Value} (ho : ∀ v ∈ o, v ∈ s.elements place)
      (h : o.getD .null = .builtin b') : ∃ place, .builtin b' ∈ s.elements place := by
    cases o with
    | none => cases h
    | some v => exact ⟨place, ho _ (congrArg some h)⟩
  unfold apply at h
  split at h
  case h_6 place => exact he place (fun v hv => Array.mem_of_getElem? hv) h
  case h_8 place => exact he place (fun v hv => Array.mem_of_back? hv) h
  all_goals cases h

theorem Builtin.name_of_ofName? {b : Builtin} (h : ofName? name = some b) : b.name = name :=
  of_decide_eq_true (List.find?_some h :)

/-! ### Stores -/

/-- A store that no `push` was done in, and none can be by what is in it. -/
structure Store.Unpushed (s : Store) : Prop where
  wellFormed : s.WellFormed
  founded : s.Founded
  data : s.All (· ≠ .builtin .push)
  bodies : ∀ ⦃place : Nat⦄ ⦃c : Closure⦄, s.closures[place]? = some c →
    (Node.stmt (.block c.body)).Named (· ≠ "push")

namespace Store.Unpushed

theorem start : (({} : Store).newScope none).2.Unpushed where
  wellFormed := WellFormed.empty.newScope nofun
  founded := Founded.empty.newScope none
  data := All.empty.newScope none
  bodies := by simp [newScope]

theorem newScope (h : s.Unpushed) {outer : Option Nat} (ho : ∀ o ∈ outer, o < s.scopes.size) :
    (s.newScope outer).2.Unpushed :=
  ⟨h.wellFormed.newScope ho, h.founded.newScope outer, h.data.newScope outer, h.bodies⟩

theorem bind (h : s.Unpushed) (hd : s.IsData v) (hv : v ≠ .builtin .push) (scope : Nat)
    (name : String) : (s.bind scope name v).Unpushed :=
  ⟨h.wellFormed.bind hd scope name, h.founded.bind scope name v, h.data.bind hv scope name,
    h.bodies⟩

theorem newArray (h : s.Unpushed) {a : Array Value} (hd : ∀ v ∈ a, s.IsData v)
    (ha : ∀ v ∈ a, v ≠ .builtin .push) : (s.newArray a).2.Unpushed :=
  ⟨h.wellFormed.newArray hd, h.founded.newArray h.wellFormed hd, h.data.newArray ha, h.bodies⟩

theorem newHashmap (h : s.Unpushed) (hf : m.IsFilled s)
    (hm : ∀ e ∈ m.entries, e.value ≠ .builtin .push) : (s.newHashmap m).2.Unpushed :=
  ⟨h.wellFormed.newHashmap hf.1 hf.2, h.founded.newHashmap h.wellFormed hf.2,
    h.data.newHashmap hm, h.bodies⟩

theorem newClosure (h : s.Unpushed) (hs : c.scope < s.scopes.size)
    (hb : (Node.stmt (.block c.body)).Named (· ≠ "push")) : (s.newClosure c).2.Unpushed := by
  refine ⟨h.wellFormed.newClosure hs, h.founded.newClosure c, h.data.newClosure c,
    fun place d hd => ?_⟩
  simp only [Store.newClosure, Array.getElem?_push] at hd
  split at hd
  · cases hd
    exact hb
  · exact h.bodies hd

/-- What the host brings is no builtin. -/
theorem gains (h : s.Unpushed) (hg : s.Gains t) : t.Unpushed where
  wellFormed := hg.wellFormed h.wellFormed
  founded := hg.founded h.wellFormed h.founded
  data := hg.all (fun _ _ hv => hv.ne_builtin .push) h.data
  bodies := hg.closures ▸ h.bodies

end Store.Unpushed

/-! ### Evaluation -/

/-- The discipline of evaluation without `push`. -/
def unpushed : Discipline where
  Inv := Store.Unpushed
  Data s v := s.IsData v ∧ v ≠ .builtin .push
  Filled s m := m.IsFilled s ∧ ∀ e ∈ m.entries, e.value ≠ .builtin .push
  Runs s scope node := scope < s.scopes.size ∧ node.Named (· ≠ "push")

theorem unpushed_later (ht : t.Unpushed) (he : s.Extends t) : unpushed.Later s t where
  inv := ht
  data _ hv := ⟨hv.1.mono he, hv.2⟩
  filled _ hm := ⟨hm.1.mono he, hm.2⟩
  runs _ _ hn := ⟨Nat.lt_of_lt_of_le hn.1 he.scopes, hn.2⟩

theorem unpushed_answer (h : v.IsPlain) (hv : v ≠ .builtin .push) : unpushed.Answer s v :=
  h.imp_left fun hs => ⟨Store.isData_of_isScalar hs, hv⟩

/-- The other builtins change nothing. -/
theorem unpushed_apply (hs : s.Unpushed) {b : Builtin} (hb : b ≠ .push) {args : List Value} :
    (b.apply args s).2 = s ∧ unpushed.Answer s (b.apply args s).1 := by
  have hne : (b.apply args s).1 ≠ .builtin .push := fun h => by
    obtain ⟨place, hm⟩ := Builtin.apply_eq_builtin h
    exact hs.data.element hm rfl
  rcases b.apply_cases args s with ⟨v, hv, h⟩ | ⟨place, v, rfl, -, -⟩ | ⟨place, v, -, hv, h⟩
  · rw [h] at hne ⊢
    exact ⟨rfl, unpushed_answer hv hne⟩
  · exact absurd rfl hb
  · rw [h] at hne ⊢
    exact ⟨rfl, .inl ⟨hs.wellFormed.data.element hv, hne⟩⟩

theorem unpushed_enter (hs : s.Unpushed) {args : List Value} (hc : s.closures[place]? = some c)
    (ha : ∀ v ∈ args, unpushed.Data s v) :
    unpushed.Later s (s.enter c args) ∧ s.scopes.size < (s.enter c args).scopes.size := by
  refine Store.enter_induction
    (motive := fun t => unpushed.Later s t ∧ s.scopes.size < t.scopes.size) ?_ ?_
  · refine ⟨unpushed_later (hs.newScope ?_) (Store.extends_newScope _), by simp [Store.newScope]⟩
    simpa using hs.wellFormed.closure hc
  · rintro t name v hv ⟨hlt, hsize⟩
    obtain ⟨hd, hne⟩ := hlt.data (ha v hv)
    have he : t.Extends (t.bind s.scopes.size name v) := Store.extends_bind
    exact ⟨hlt.trans (unpushed_later (hlt.inv.bind hd hne _ name) he),
      Nat.lt_of_lt_of_le hsize he.scopes⟩

theorem lawful_unpushed : unpushed.Lawful where
  inside h hm := ⟨h.1, h.2.inside hm⟩
  not_signal h := h.1.not_signal
  null _ := ⟨trivial, nofun⟩
  bool _ _ := ⟨trivial, nofun⟩
  string _ _ := ⟨trivial, nofun⟩
  int _ := ⟨trivial, nofun⟩
  name hs _ hl := ⟨hs.wellFormed.data.lookup hl, hs.data.lookup hl⟩
  builtin {_ _ name _} hr hb := by
    refine ⟨trivial, fun he => hr.2.own name (by simp [Node.ownNames]) ?_⟩
    cases he
    exact (Builtin.name_of_ofName? hb).symm
  unary op _ _ := unpushed_answer (op.isPlain_apply _) (op.apply_ne_builtin _ _)
  binary op _ _ _ _ := unpushed_answer (op.isPlain_apply _ _) (op.apply_ne_builtin _ _ _)
  element hs _ hv := ⟨hs.wellFormed.data.element hv, hs.data.element hv⟩
  entry hs _ hg := ⟨hs.wellFormed.data.get hg, hs.data.get hg⟩
  apply hs hb _ := by
    obtain ⟨he, ha⟩ := unpushed_apply hs fun h => hb.2 (h ▸ rfl)
    rw [he]
    exact ⟨.refl hs, ha⟩
  empty s := ⟨Hashmap.isFilled_empty s, by simp⟩
  put hm _ _ hv := by
    refine ⟨hm.1.put _ hv.1, fun e he => ?_⟩
    rcases Hashmap.mem_putIn he with rfl | he
    · exact hv.2
    · exact hm.2 e he
  newArray hs hv := by
    refine ⟨unpushed_later (hs.newArray ?_ ?_) (Store.extends_newArray _),
      by simp [unpushed, Store.newArray, Store.IsData]⟩
    · exact fun v hm => (hv v (List.mem_toArray.mp hm)).1
    · exact fun v hm => (hv v (List.mem_toArray.mp hm)).2
  newHashmap hs hm := ⟨unpushed_later (hs.newHashmap hm.1 hm.2) (Store.extends_newHashmap _),
    by simp [unpushed, Store.newHashmap, Store.IsData]⟩
  newClosure hs hr := by
    have hb := hr.2.within (.inr ⟨_, _, rfl, rfl⟩)
    exact ⟨unpushed_later (hs.newClosure hr.1 hb) (Store.extends_newClosure _),
      by simp [unpushed, Store.newClosure, Store.IsData]⟩
  bind hs _ hv := unpushed_later (hs.bind hv.1 hv.2 _ _) Store.extends_bind
  enter hs _ hc _ ha := by
    obtain ⟨hlt, hsize⟩ := unpushed_enter hs hc ha
    exact ⟨hlt, hsize, hs.bodies hc⟩

theorem unpushed_endStore {x : Visit} (h : unpushed.Allows x) :
    (endStore x.result).Unpushed := by
  have hk := h.keeps lawful_unpushed
  generalize x.result = r at hk
  cases r with
  | ok o t => exact hk.1.inv
  | error e t => exact hk.inv

variable {depth : Nat} {source : String} {body : List Stmt} {bindings : List (HostKey × Host)}
  {names : Option (List String)}

/-- No text of a name in a program text, no node of that name in the program. -/
theorem named_ne_of_parse (hp : parse depth source = .ok ⟨body, []⟩)
    (hn : ¬ Mentions source name) : (Node.program body).Named (· ≠ name) :=
  fun m hm n hin he => hn (he ▸ named_of_parse hp m hm n hin)

/-- In the course of a program text that does not mention `push`, run on bindings that convert, no
collection in a store contains itself: not in the stores that evaluations start from, nor in those
that they end with, nor where builtins are applied. So the result of a run is never told to be
cyclic. -/
theorem acyclic_of_run (hp : parse depth source = .ok ⟨body, []⟩)
    (hpush : ¬ Mentions source "push")
    (hb : (({} : Store).newScope none).2.bindAll depth 0 bindings names = (s, none)) :
    (∀ x, (⟨depth, .program body, 0, s⟩ : Visit).Leads x →
      (∀ v, x.store.Acyclic v) ∧ (∀ v, (endStore x.result).Acyclic v) ∧
      ∀ b args t, x.Applies b args t → b ≠ .push ∧ ∀ v, t.Acyclic v) ∧
    ∀ tag, (run depth source bindings names).result ≠ .error (.conversion (.cyclic tag)) := by
  have hg := Store.gains_bindAll depth 0 bindings names (({} : Store).newScope none).2
  rw [hb] at hg
  have hscope : 0 < s.scopes.size := Nat.lt_of_lt_of_le Nat.one_pos hg.extends.scopes
  have hstart : unpushed.Allows ⟨depth, .program body, 0, s⟩ :=
    ⟨Store.Unpushed.start.gains hg, hscope, named_ne_of_parse hp hpush⟩
  refine ⟨fun x hx => ?_, fun tag hr => ?_⟩
  · have hx := hstart.leads lawful_unpushed hx
    refine ⟨hx.inv.founded.acyclic, (unpushed_endStore hx).founded.acyclic, fun b args t ha => ?_⟩
    obtain ⟨ht, hd, -⟩ := hx.applies lawful_unpushed ha
    exact ⟨fun h => hd.2 (h ▸ rfl), ht.founded.acyclic⟩
  · have hend := unpushed_endStore hstart
    rw [run, hp] at hr
    change (runProgram depth body bindings names).result = _ at hr
    rw [runProgram_of_bound hb] at hr
    rw [Visit.result] at hend
    generalize eval depth (.program body) 0 s = r at hr hend
    cases r with
    | error e t => cases hr
    | ok o t =>
      cases o with
      | none => cases hr
      | some v =>
        simp only [Run.ofValue] at hr
        split at hr <;> cases hr
        obtain ⟨u, -, hu, hin⟩ := Store.exists_cyclic_of_toHost ‹_›
        exact hend.founded.acyclic v u hu hin

/-- A function that nests what it gets, applied twice to a list of the host. -/
theorem acyclic_of_run_nested :
    let source := "f = fn(x) \x7b [x, \x7b1: x\x7d] \x7d\nf(f(y))"
    let call (e : Expr) := Expr.call (.ident "f") [e]
    let body := [Stmt.assign "f" (.function ["x"]
        [.expr (.array [.ident "x", .hashmap [(.int 1, .ident "x")]])]),
      .expr (call (call (.ident "y")))]
    let s := ((({} : Store).newScope none).2.newArray #[ofInt 7]).2.bind 0 "y" (.array 0)
    parse 20 source = .ok ⟨body, []⟩ ∧ ¬ Mentions source "push" ∧
    (({} : Store).newScope none).2.bindAll 20 0 [(.text "y", .list [.int 7])] none = (s, none) ∧
    (∀ v, (endStore (eval 20 (.program body) 0 s)).Acyclic v) ∧
    ∀ tag, (run 20 source [(.text "y", .list [.int 7])] none).result ≠
      .error (.conversion (.cyclic tag)) := by
  intro source call body s
  have hp : parse 20 source = .ok ⟨body, []⟩ := by cbv
  have hts : (tokenize source).all (fun t => !(t.kind == .ident && t.text == "push")) = true := by
    cbv
  have hpush : ¬ Mentions source "push" := by
    rintro ⟨t, ht, hk, he⟩
    have := List.all_eq_true.mp hts t ht
    simp [hk, he] at this
  have hb : (({} : Store).newScope none).2.bindAll 20 0 [(.text "y", .list [.int 7])] none =
      (s, none) := rfl
  obtain ⟨hcourse, hcyclic⟩ := acyclic_of_run hp hpush hb
  exact ⟨hp, hpush, hb, (hcourse _ .refl).2.1, hcyclic⟩

end Scriptlet
