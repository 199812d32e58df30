import Scriptlet.Proofs.Grammar.Derives

/-! The grammar does not look at where tokens stand, only at what they look like. -/

namespace Scriptlet

/-- What a token looks like: all but its place. -/
def Token.face (t : Token) : Kind × String := (t.kind, t.text)

variable {c d : Token} {ts us : List Token} {φ : Phrase}

theorem Token.kind_of_face (h : d.face = c.face) : d.kind = c.kind := congrArg Prod.fst h

theorem Token.text_of_face (h : d.face = c.face) : d.text = c.text := congrArg Prod.snd h

theorem Token.kind_eq_of_face {k : Kind} (h : d.face = c.face) (hc : c.kind = k) : d.kind = k :=
  (kind_of_face h).trans hc

theorem Token.isLineEnd_of_face (h : d.face = c.face) : d.isLineEnd = c.isLineEnd := by
  simp only [isLineEnd, kind_of_face h, text_of_face h]

/-- Tokens that look the same. -/
def Alike (us ts : List Token) : Prop := us.map Token.face = ts.map Token.face

theorem Alike.refl (ts : List Token) : Alike ts ts := rfl

@[simp] theorem alike_nil : Alike us [] ↔ us = [] := List.map_eq_nil_iff

@[simp] theorem alike_cons :
    Alike us (c :: ts) ↔ ∃ d vs, us = d :: vs ∧ d.face = c.face ∧ Alike vs ts :=
  List.map_eq_cons_iff

@[simp] theorem alike_append {ts' : List Token} :
    Alike us (ts ++ ts') ↔ ∃ vs ws, us = vs ++ ws ∧ Alike vs ts ∧ Alike ws ts' := by
  simp only [Alike, List.map_append, List.map_eq_append_iff]

theorem Dropped.alike (h : Dropped ts) (ha : Alike us ts) : Dropped us := by
  induction ts generalizing us with
  | nil => simpa [alike_nil.mp ha] using dropped_nil
  | cons c ts ih =>
    obtain ⟨d, vs, rfl, hd, ha⟩ := alike_cons.mp ha
    obtain ⟨hc, h⟩ := List.forall_mem_cons.mp h
    exact List.forall_mem_cons.mpr ⟨(Token.isLineEnd_of_face hd).trans hc, ih h ha⟩

open Token in
/-- Tokens that look the same spell the same. -/
theorem Derives.alike (h : Derives φ ts) (ha : Alike us ts) : Derives φ us := by
  induction h generalizing us <;> try simp only [alike_nil, alike_cons, alike_append] at ha
  case int ht hn =>
    obtain ⟨d, _, rfl, hd, rfl⟩ := ha
    rw [← text_of_face hd] at hn ⊢
    exact .int (kind_eq_of_face hd ht) hn
  case string ht =>
    obtain ⟨d, _, rfl, hd, rfl⟩ := ha
    rw [← text_of_face hd]
    exact .string (kind_eq_of_face hd ht)
  case true ht =>
    obtain ⟨d, _, rfl, hd, rfl⟩ := ha
    exact .true (kind_eq_of_face hd ht)
  case false ht =>
    obtain ⟨d, _, rfl, hd, rfl⟩ := ha
    exact .false (kind_eq_of_face hd ht)
  case ident ht =>
    obtain ⟨d, _, rfl, hd, rfl⟩ := ha
    rw [← text_of_face hd]
    exact .ident (kind_eq_of_face hd ht)
  case group ho _ hl hc ih =>
    obtain ⟨o, _, rfl, ho', vs, _, rfl, hvs, nl, _, rfl, hnl, c, _, rfl, hc', rfl⟩ := ha
    exact .group (kind_eq_of_face ho' ho) (ih hvs) (hl.alike hnl) (kind_eq_of_face hc' hc)
  case ifThen hi ho _ hc _ ih iha =>
    obtain ⟨i, _, rfl, hi', o, _, rfl, ho', vs, _, rfl, hvs, c, ws, rfl, hc', hws⟩ := ha
    exact .ifThen (kind_eq_of_face hi' hi) (kind_eq_of_face ho' ho) (ih hvs)
      (kind_eq_of_face hc' hc) (iha hws)
  case ifThenElse hi ho _ hc _ hl _ ih iha ihb =>
    obtain ⟨i, _, rfl, hi', o, _, rfl, ho', vs, _, rfl, hvs, c, _, rfl, hc', ws, _, rfl, hws, l,
      xs, rfl, hl', hxs⟩ := ha
    exact .ifThenElse (kind_eq_of_face hi' hi) (kind_eq_of_face ho' ho) (ih hvs)
      (kind_eq_of_face hc' hc) (iha hws) (kind_eq_of_face hl' hl) (ihb hxs)
  case function hf ho _ hc _ ih ihb =>
    obtain ⟨f, _, rfl, hf', o, _, rfl, ho', vs, _, rfl, hvs, c, ws, rfl, hc', hws⟩ := ha
    exact .function (kind_eq_of_face hf' hf) (kind_eq_of_face ho' ho) (ih hvs)
      (kind_eq_of_face hc' hc) (ihb hws)
  case array ho _ hc ih =>
    obtain ⟨o, _, rfl, ho', vs, _, rfl, hvs, c, _, rfl, hc', rfl⟩ := ha
    exact .array (kind_eq_of_face ho' ho) (ih hvs) (kind_eq_of_face hc' hc)
  case hashmap ho _ hc ih =>
    obtain ⟨o, _, rfl, ho', vs, _, rfl, hvs, c, _, rfl, hc', rfl⟩ := ha
    exact .hashmap (kind_eq_of_face ho' ho) (ih hvs) (kind_eq_of_face hc' hc)
  case call _ ho _ hc ihf ih =>
    obtain ⟨vs, _, rfl, hvs, o, _, rfl, ho', ws, _, rfl, hws, c, _, rfl, hc', rfl⟩ := ha
    exact .call (ihf hvs) (kind_eq_of_face ho' ho) (ih hws) (kind_eq_of_face hc' hc)
  case index _ ho _ hl hc iha ih =>
    obtain ⟨vs, _, rfl, hvs, o, _, rfl, ho', ws, _, rfl, hws, nl, _, rfl, hnl, c, _, rfl, hc',
      rfl⟩ := ha
    exact .index (iha hvs) (kind_eq_of_face ho' ho) (ih hws) (hl.alike hnl)
      (kind_eq_of_face hc' hc)
  case not ht _ ih =>
    obtain ⟨d, vs, rfl, hd, hvs⟩ := ha
    exact .not (kind_eq_of_face hd ht) (ih hvs)
  case neg ht _ ih =>
    obtain ⟨d, vs, rfl, hd, hvs⟩ := ha
    exact .neg (kind_eq_of_face hd ht) (ih hvs)
  case binary ht _ _ iha ihb =>
    obtain ⟨vs, _, rfl, hvs, d, ws, rfl, hd, hws⟩ := ha
    exact .binary (kind_of_face hd ▸ ht) (iha hvs) (ihb hws)
  case tighter ih => exact .tighter (ih ha)
  case listNil => exact ha ▸ .listNil
  case listOne _ hl ih =>
    obtain ⟨vs, nl, rfl, hvs, hnl⟩ := ha
    exact .listOne (ih hvs) (hl.alike hnl)
  case listCons _ hl hc _ ih ihs =>
    obtain ⟨vs, _, rfl, hvs, nl, _, rfl, hnl, c, ws, rfl, hc', hws⟩ := ha
    exact .listCons (ih hvs) (hl.alike hnl) (kind_eq_of_face hc' hc) (ihs hws)
  case pairsNil => exact ha ▸ .pairsNil
  case pairsOne _ hc _ hl ihk ihv =>
    obtain ⟨vs, _, rfl, hvs, c, _, rfl, hc', ws, nl, rfl, hws, hnl⟩ := ha
    exact .pairsOne (ihk hvs) (kind_eq_of_face hc' hc) (ihv hws) (hl.alike hnl)
  case pairsCons _ hc _ hl hd _ ihk ihv ihp =>
    obtain ⟨vs, _, rfl, hvs, c, _, rfl, hc', ws, _, rfl, hws, nl, _, rfl, hnl, d, xs, rfl, hd',
      hxs⟩ := ha
    exact .pairsCons (ihk hvs) (kind_eq_of_face hc' hc) (ihv hws) (hl.alike hnl)
      (kind_eq_of_face hd' hd) (ihp hxs)
  case paramsNil => exact ha ▸ .paramsNil
  case paramsOne ht =>
    obtain ⟨d, _, rfl, hd, rfl⟩ := ha
    rw [← text_of_face hd]
    exact .paramsOne (kind_eq_of_face hd ht)
  case paramsCons ht hc _ ih =>
    obtain ⟨d, _, rfl, hd, c, vs, rfl, hc', hvs⟩ := ha
    rw [← text_of_face hd]
    exact .paramsCons (kind_eq_of_face hd ht) (kind_eq_of_face hc' hc) (ih hvs)
  case block ho _ hc ih =>
    obtain ⟨o, _, rfl, ho', vs, _, rfl, hvs, c, _, rfl, hc', rfl⟩ := ha
    exact .block (kind_eq_of_face ho' ho) (ih hvs) (kind_eq_of_face hc' hc)
  case assign ht ha' _ ih =>
    obtain ⟨d, _, rfl, hd, a, vs, rfl, ha, hvs⟩ := ha
    rw [← text_of_face hd]
    exact .assign (kind_eq_of_face hd ht) (kind_eq_of_face ha ha') (ih hvs)
  case ret ht _ ih =>
    obtain ⟨d, vs, rfl, hd, hvs⟩ := ha
    exact .ret (kind_eq_of_face hd ht) (ih hvs)
  case exprStmt ih => exact .exprStmt (ih ha)
  case blockStmt ho _ hs hc ih =>
    obtain ⟨o, _, rfl, ho', vs, _, rfl, hvs, c, _, rfl, hc', rfl⟩ := ha
    have hne : vs ≠ [] := by
      rintro rfl
      exact hs (by simpa [Alike] using hvs)
    exact .blockStmt (kind_eq_of_face ho' ho) (ih hvs) hne (kind_eq_of_face hc' hc)
  case stmtsNil => exact ha ▸ .stmtsNil
  case stmtsSkip ht _ ih =>
    obtain ⟨d, vs, rfl, hd, hvs⟩ := ha
    exact .stmtsSkip (kind_eq_of_face hd ht) (ih hvs)
  case stmtsLast ih => exact .stmtsLast (ih ha)
  case stmtsCons ht _ ihs ih =>
    obtain ⟨vs, _, rfl, hvs, d, ws, rfl, hd, hws⟩ := ha
    exact .stmtsCons (ihs hvs) (kind_eq_of_face hd ht) (ih hws)

end Scriptlet
