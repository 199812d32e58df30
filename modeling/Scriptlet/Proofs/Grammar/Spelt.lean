import Scriptlet.Proofs.Eval.Range
import Scriptlet.Proofs.Grammar.Derives

/-!
What the nodes of a program have of their own is spelt by its tokens: every integer literal is a
word and every name is the text of an identifier.
-/

namespace Scriptlet
open Number

variable {φ : Phrase} {ts us : List Token} {n : Node} {body : List Stmt}

/-- The names that a node has itself: one that it reads or assigns to, or its parameters. -/
def Node.ownNames : Node → List String
  | .expr (.ident name) | .stmt (.assign name _) => [name]
  | .expr (.function params _) => params
  | _ => []

/-- What a node has itself is spelt by some of the tokens. -/
structure Node.OwnSpelt (ts : List Token) (n : Node) : Prop where
  int : ∀ k, n = .expr (.int k) → InWord k
  names : ∀ name ∈ n.ownNames, ∃ t ∈ ts, t.kind = .ident ∧ t.text = name

/-- All nodes in a node are spelt by some of the tokens, those in the bodies of functions too. -/
def Node.Spelt (ts : List Token) (n : Node) : Prop :=
  ∀ m, Relation.ReflTransGen Within m n → m.OwnSpelt ts

/-- All nodes of a phrase and all names of parameters are spelt by some of the tokens. -/
def Phrase.Spelt (ts : List Token) : Phrase → Prop
  | expr _ e => (Node.expr e).Spelt ts
  | list es => ∀ e ∈ es, (Node.expr e).Spelt ts
  | pairs ps => ∀ p ∈ ps, (Node.expr p.1).Spelt ts ∧ (Node.expr p.2).Spelt ts
  | params names => ∀ name ∈ names, ∃ t ∈ ts, t.kind = .ident ∧ t.text = name
  | block body | stmts body => ∀ st ∈ body, (Node.stmt st).Spelt ts
  | stmt st => (Node.stmt st).Spelt ts

theorem spelt_of_within (h : n.OwnSpelt ts) (hm : ∀ m, Within m n → m.Spelt ts) : n.Spelt ts := by
  intro k hk
  rcases Relation.ReflTransGen.cases_tail hk with rfl | ⟨m, hkm, hmn⟩
  · exact h
  · exact hm m hmn k hkm

theorem spelt_block (h : ∀ st ∈ body, (Node.stmt st).Spelt ts) :
    (Node.stmt (.block body)).Spelt ts := by
  refine spelt_of_within ⟨nofun, nofun⟩ ?_
  rintro m (hm | ⟨_, _, _, hm⟩) <;> cases hm
  exact h _ ‹_›

theorem ownSpelt_name {t : Token} (ht : t ∈ ts) (hi : t.kind = .ident)
    (hn : n.ownNames = [t.text]) (hint : ∀ k, n ≠ .expr (.int k)) : n.OwnSpelt ts := by
  refine ⟨fun k hk => absurd hk (hint k), fun name hm => ⟨t, ht, hi, ?_⟩⟩
  rw [hn] at hm
  exact (List.mem_singleton.mp hm).symm

/-- The tokens of a phrase spell what its nodes have of their own. -/
theorem Derives.spelt (h : Derives φ us) (hu : ∀ t ∈ us, t ∈ ts) : φ.Spelt ts := by
  induction h with
  | @int t _ hn =>
    refine spelt_of_within ⟨fun k hk => ?_, nofun⟩ ?_
    · cases hk
      exact ⟨Int.le_trans (by decide) (Int.natCast_nonneg _), hn⟩
    · rintro m (hm | ⟨_, _, _, hm⟩) <;> cases hm
  | string | true | false =>
    refine spelt_of_within ⟨nofun, nofun⟩ ?_
    rintro m (hm | ⟨_, _, _, hm⟩) <;> cases hm
  | @ident t ht =>
    refine spelt_of_within (ownSpelt_name (hu t (by simp)) ht rfl nofun) ?_
    rintro m (hm | ⟨_, _, _, hm⟩) <;> cases hm
  | ifThen _ _ _ _ _ he ha =>
    refine spelt_of_within ⟨nofun, nofun⟩ ?_
    rintro m (hm | ⟨_, _, _, hm⟩) <;> cases hm
    · exact he fun t ht => hu t (by simp [ht])
    · exact spelt_block (ha fun t ht => hu t (by simp [ht]))
  | ifThenElse _ _ _ _ _ _ _ he ha hb =>
    refine spelt_of_within ⟨nofun, nofun⟩ ?_
    rintro m (hm | ⟨_, _, _, hm⟩) <;> cases hm
    · exact he fun t ht => hu t (by simp [ht])
    · exact spelt_block (ha fun t ht => hu t (by simp [ht]))
    · exact spelt_block (hb fun t ht => hu t (by simp [ht]))
  | function _ _ _ _ _ hp hb =>
    refine spelt_of_within ⟨nofun, hp fun t ht => hu t (by simp [ht])⟩ ?_
    rintro m (hm | ⟨_, _, rfl, hm⟩) <;> cases hm
    exact spelt_block (hb fun t ht => hu t (by simp [ht]))
  | array _ _ _ ih =>
    refine spelt_of_within ⟨nofun, nofun⟩ ?_
    rintro m (hm | ⟨_, _, rfl, hm⟩) <;> cases hm
    exact ih (fun t ht => hu t (by simp [ht])) _ ‹_›
  | hashmap _ _ _ ih =>
    refine spelt_of_within ⟨nofun, nofun⟩ ?_
    rintro m (hm | ⟨_, _, rfl, hm⟩) <;> cases hm
    · exact (ih (fun t ht => hu t (by simp [ht])) _ ‹_›).1
    · exact (ih (fun t ht => hu t (by simp [ht])) _ ‹_›).2
  | call _ _ _ _ hf hs =>
    refine spelt_of_within ⟨nofun, nofun⟩ ?_
    rintro m (hm | ⟨_, _, rfl, hm⟩) <;> cases hm
    · exact hf fun t ht => hu t (by simp [ht])
    · exact hs (fun t ht => hu t (by simp [ht])) _ ‹_›
  | index _ _ _ _ _ ha hi =>
    refine spelt_of_within ⟨nofun, nofun⟩ ?_
    rintro m (hm | ⟨_, _, rfl, hm⟩) <;> cases hm
    · exact ha fun t ht => hu t (by simp [ht])
    · exact hi fun t ht => hu t (by simp [ht])
  | not _ _ ih | neg _ _ ih | ret _ _ ih =>
    refine spelt_of_within ⟨nofun, nofun⟩ ?_
    rintro m (hm | ⟨_, _, rfl, hm⟩) <;> cases hm
    exact ih fun t ht => hu t (by simp [ht])
  | exprStmt _ ih =>
    refine spelt_of_within ⟨nofun, nofun⟩ ?_
    rintro m (hm | ⟨_, _, rfl, hm⟩) <;> cases hm
    exact ih hu
  | @assign t _ _ _ ht _ _ ih =>
    refine spelt_of_within (ownSpelt_name (hu t (by simp)) ht rfl nofun) ?_
    rintro m (hm | ⟨_, _, rfl, hm⟩) <;> cases hm
    exact ih fun t ht => hu t (by simp [ht])
  | binary _ _ _ ha hb =>
    refine spelt_of_within ⟨nofun, nofun⟩ ?_
    rintro m (hm | ⟨_, _, rfl, hm⟩) <;> cases hm
    · exact ha fun t ht => hu t (by simp [ht])
    · exact hb fun t ht => hu t (by simp [ht])
  | group _ _ _ _ ih | block _ _ _ ih | stmtsSkip _ _ ih =>
    exact ih fun t ht => hu t (by simp [ht])
  | tighter _ ih => exact ih hu
  | blockStmt _ _ _ _ ih => exact spelt_block (ih fun t ht => hu t (by simp [ht]))
  | listNil | pairsNil | stmtsNil | paramsNil => exact nofun
  | @paramsOne t ht => exact List.forall_mem_singleton.mpr ⟨t, hu t (by simp), ht, rfl⟩
  | @paramsCons t _ _ _ _ ht _ _ ih =>
    exact List.forall_mem_cons.mpr
      ⟨⟨t, hu t (by simp), ht, rfl⟩, ih fun t ht => hu t (by simp [ht])⟩
  | listOne _ _ ih =>
    exact List.forall_mem_singleton.mpr (ih fun t ht => hu t (by simp [ht]))
  | stmtsLast _ ih => exact List.forall_mem_singleton.mpr (ih hu)
  | listCons _ _ _ _ ih ihs | stmtsCons _ _ _ ih ihs =>
    exact List.forall_mem_cons.mpr
      ⟨ih fun t ht => hu t (by simp [ht]), ihs fun t ht => hu t (by simp [ht])⟩
  | pairsOne _ _ _ _ ihk ihv =>
    exact List.forall_mem_singleton.mpr
      ⟨ihk fun t ht => hu t (by simp [ht]), ihv fun t ht => hu t (by simp [ht])⟩
  | pairsCons _ _ _ _ _ _ ihk ihv ihs =>
    exact List.forall_mem_cons.mpr
      ⟨⟨ihk fun t ht => hu t (by simp [ht]), ihv fun t ht => hu t (by simp [ht])⟩,
        ihs fun t ht => hu t (by simp [ht])⟩

theorem Spells.spelt (h : Spells ts body) : (Node.program body).Spelt ts := by
  obtain ⟨us, e, rfl, -, hd⟩ := h
  refine spelt_of_within ⟨nofun, nofun⟩ ?_
  rintro m (hm | ⟨_, _, _, hm⟩) <;> cases hm
  exact hd.spelt (fun t ht => List.mem_append_left [e] ht) _ ‹_›

theorem Node.Spelt.inRange (h : n.Spelt ts) : n.InRange := fun k hk => (h _ hk).int k rfl

end Scriptlet
