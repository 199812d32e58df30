import Scriptlet.Proofs.Grammar.Derives

/-!
What phrases can start with. The start of a phrase is completed with a few tokens that have one
spelling each: a name, a colon and brackets.
-/

namespace Scriptlet

/-- A token that a phrase is completed with. -/
def filler (k : Kind) : Token := ⟨k, if k = .ident then "x" else k.text, ⟨1, 1⟩⟩

/-- Tokens that a phrase is completed with. -/
def Fills (zs : List Token) : Prop :=
  ∀ z ∈ zs, z ∈ [Kind.ident, .colon, .lparen, .rparen, .lbrace, .rbrace, .rbracket].map filler

instance (zs : List Token) : Decidable (Fills zs) := inferInstanceAs (Decidable (∀ z ∈ zs, _))

/-- Tokens that become something if others are put behind them. -/
def Completes (P : List Token → Prop) (us : List Token) : Prop := ∃ zs, Fills zs ∧ P (us ++ zs)

def IsExpr (l : Nat) (ts : List Token) : Prop := ∃ e, Derives (.expr l e) ts

def IsList (ts : List Token) : Prop := ∃ es, Derives (.list es) ts

def IsPairs (ts : List Token) : Prop := ∃ ps, Derives (.pairs ps) ts

def IsParams (ts : List Token) : Prop := ∃ names, Derives (.params names) ts

def IsBlock (ts : List Token) : Prop := ∃ body, Derives (.block body) ts

def IsStmt (ts : List Token) : Prop := ∃ st, Derives (.stmt st) ts

def IsStmts (ts : List Token) : Prop := ∃ ss, Derives (.stmts ss) ts

/-- The value of an entry, with the colon in front. -/
def IsValue (ts : List Token) : Prop :=
  ∃ c v us, ts = c :: us ∧ c.kind = .colon ∧ Derives (.expr 1 v) us

variable {P Q : List Token → Prop} {us xs zs : List Token} {l m : Nat} {t : Token}

theorem Fills.append (h : Fills us) (h' : Fills zs) : Fills (us ++ zs) := by
  intro z hz
  rcases List.mem_append.mp hz with hz | hz
  · exact h z hz
  · exact h' z hz

theorem completes_of (h : P us) : Completes P us := ⟨[], by decide, by simpa using h⟩

theorem Completes.wrap (h : Completes P us) {xs zs : List Token} (hz : Fills zs)
    (hQ : ∀ ts, P ts → Q (xs ++ (ts ++ zs))) : Completes Q (xs ++ us) := by
  obtain ⟨ys, hy, hP⟩ := h
  exact ⟨ys ++ zs, hy.append hz, by simpa using hQ _ hP⟩

theorem Completes.mono (h : Completes P us) (hQ : ∀ ts, P ts → Q ts) : Completes Q us := by
  obtain ⟨ys, hy, hP⟩ := h
  exact ⟨ys, hy, hQ _ hP⟩

theorem IsExpr.of_le {ts : List Token} (h : IsExpr m ts) (hl : l ≤ m) : IsExpr l ts := by
  obtain ⟨e, he⟩ := h
  exact ⟨e, he.of_le hl⟩

theorem derives_filler : Derives (.expr 8 (.ident "x")) [filler .ident] :=
  Derives.ident (t := filler .ident) rfl

/-- An expression can start with nothing. -/
theorem completes_expr_nil (hl : l ≤ 8) : Completes (IsExpr l) [] :=
  ⟨[filler .ident], by decide, _, derives_filler.of_le hl⟩

theorem IsList.exists_cons {ts : List Token} (h : IsList (t :: ts)) :
    ∃ e es, Derives (.list (e :: es)) (t :: ts) := by
  obtain ⟨es, hes⟩ := h
  cases es with
  | nil => cases hes
  | cons e es => exact ⟨e, es, hes⟩

theorem IsPairs.exists_cons {ts : List Token} (h : IsPairs (t :: ts)) :
    ∃ p ps, Derives (.pairs (p :: ps)) (t :: ts) := by
  obtain ⟨ps, hps⟩ := h
  cases ps with
  | nil => cases hps
  | cons p ps => exact ⟨p, ps, hps⟩

theorem IsParams.exists_cons {ts : List Token} (h : IsParams (t :: ts)) :
    ∃ n ns, Derives (.params (n :: ns)) (t :: ts) := by
  obtain ⟨ns, hns⟩ := h
  cases ns with
  | nil => cases hns
  | cons n ns => exact ⟨n, ns, hns⟩

theorem completes_value_nil : Completes IsValue [] :=
  ⟨[filler .colon, filler .ident], by decide, _, _, _, rfl, rfl, derives_filler.of_le (by simp)⟩

theorem isBlock_filler : IsBlock [filler .lbrace, filler .rbrace] :=
  ⟨[], .block rfl .stmtsNil rfl⟩

/-- The start of a hashmap behind its brace. -/
theorem IsPairs.hashmap {o : Token} {ts : List Token} (ho : o.kind = .lbrace) (h : IsPairs ts) :
    IsExpr 8 (o :: (ts ++ [filler .rbrace])) := by
  obtain ⟨ps, hps⟩ := h
  exact ⟨_, .hashmap ho hps rfl⟩

/-- The start of what stands in braces that hold something. -/
theorem Completes.braced (h : Completes IsStmts us)
    (ht : t.kind = .lbrace) : Completes (fun ts => IsStmt (t :: ts)) us := by
  obtain ⟨zs, hz, ss, hss⟩ := h
  by_cases hn : us ++ zs = []
  · obtain ⟨rfl, -⟩ := List.append_eq_nil_iff.mp hn
    have hx : Derives (.stmts [.expr (.ident "x")]) [filler .ident] :=
      .stmtsLast (.exprStmt (derives_filler.of_le (by simp)))
    exact ⟨[filler .ident, filler .rbrace], by decide, _, .blockStmt ht hx (by simp) rfl⟩
  · exact ⟨zs ++ [filler .rbrace], hz.append (by decide), _,
      by simpa using Derives.blockStmt ht hss hn (c := filler .rbrace) rfl⟩

end Scriptlet
