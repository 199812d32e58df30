import Scriptlet.Host.Export
import Scriptlet.Proofs.Eval.Range
import Scriptlet.Proofs.Host.Gains

/-!
Words at the border to the host: host data that goes in brings words only, and what comes out of a
store of words only is plain host data, which could go in again.
-/

namespace Scriptlet
open Number Value

/-- Host data that programs give: of words, truth values, texts and nothing, in lists and in maps
whose keys are texts. -/
inductive Host.Native : Host → Prop where
  | null : Native .null
  | bool (b : Bool) : Native (.bool b)
  | int {n : Int} (h : InWord n) : Native (.int n)
  | text (s : String) : Native (.text s)
  | list {items : List Host} (h : ∀ v ∈ items, Native v) : Native (.list items)
  | map {entries : List (HostKey × Host)} (hk : ∀ e ∈ entries, ∃ key, e.1 = .text key)
    (h : ∀ e ∈ entries, Native e.2) : Native (.map entries)

variable {α β : Type} {s t : Store} {v : Value} {h : Host} {p : Importing α}
  {f : α → Importing β}

/-! ### What goes in -/

/-- A conversion that succeeds leaves words only in the store, with a result as described. -/
def ImportsRanged (R : α → Prop) : Except ConversionFault (α × Store) → Prop
  | .ok (a, t) => t.InRange ∧ R a
  | .error _ => True

theorem Store.IsImport.inRange (hv : s.IsImport v) : v.InRange := by
  cases hv with
  | int hn => exact hn
  | _ => trivial

theorem Store.Brings.inRange (h : s.Brings t) (hs : s.InRange) : t.InRange := by
  cases h with
  | array hv => exact hs.newArray fun v hm => (hv v hm).inRange
  | hashmap hm =>
    refine hs.newHashmap fun e he => ?_
    obtain ⟨⟨text, hk⟩, hv⟩ := hm.2 e he
    exact ⟨hk ▸ trivial, hv.inRange⟩
  | bound hv scope name => exact hs.bind hv.inRange scope name

theorem Store.Gains.inRange (h : s.Gains t) (hs : s.InRange) : t.InRange := by
  induction h with
  | refl => exact hs
  | tail _ hb ih => exact hb.inRange ih

theorem importsRanged_importIn (depth : Nat) (path : List String) (h : Host) (hs : s.InRange) :
    ImportsRanged Value.InRange (Host.importIn depth path h s) := by
  have hi := imports_importIn depth path h s
  generalize Host.importIn depth path h s = x at hi
  match x, hi with
  | .error _, _ => trivial
  | .ok (w, t), ⟨hg, hw⟩ => exact ⟨hg.inRange hs, hw.inRange⟩

/-- Bindings of host data bring words only, also those before a fault. -/
theorem inRange_bindEach (depth scope : Nat)
    (bindings : List (HostKey × Except ConversionFault Host)) (hs : s.InRange) :
    (s.bindEach depth scope bindings).1.InRange :=
  (Store.gains_bindEach depth scope bindings s).inRange hs

theorem inRange_bindAll (depth scope : Nat) (bindings : List (HostKey × Host))
    (names : Option (List String)) (hs : s.InRange) :
    (s.bindAll depth scope bindings names).1.InRange :=
  inRange_bindEach depth scope (selected bindings names) hs

/-! ### What comes out -/

/-- A conversion that succeeds from every store. -/
def Succeeds (p : Importing α) : Prop := ∀ s, ∃ a t, p s = .ok (a, t)

theorem succeeds_pure (a : α) : Succeeds (pure a : Importing α) := fun s => ⟨a, s, rfl⟩

theorem Succeeds.bind (hp : Succeeds p) (hf : ∀ a, Succeeds (f a)) : Succeeds (p >>= f) := by
  intro s
  obtain ⟨a, t, ha⟩ := hp s
  obtain ⟨b, u, hb⟩ := hf a t
  exact ⟨b, u, by simpa only [Bind.bind, StateT.bind, Except.bind, ha] using hb⟩

theorem succeeds_modifyGet (m : Store → α × Store) : Succeeds (modifyGet m : Importing α) :=
  fun s => ⟨(m s).1, (m s).2, rfl⟩

theorem succeeds_items {g : Host → Importing Value} {items : List Host}
    (hg : ∀ h ∈ items, Succeeds (g h)) : Succeeds (items.mapM g) := by
  induction items with
  | nil => exact succeeds_pure []
  | cons h items ih =>
    rw [List.mapM_cons]
    exact (hg h (by simp)).bind fun v => (ih fun h' hm => hg h' (by simp [hm])).bind fun vs =>
      succeeds_pure (v :: vs)

theorem succeeds_entries {g : Hashmap → HostKey × Host → Importing Hashmap}
    {entries : List (HostKey × Host)} (hg : ∀ m, ∀ e ∈ entries, Succeeds (g m e)) (m : Hashmap) :
    Succeeds (entries.foldlM g m) := by
  induction entries generalizing m with
  | nil => exact succeeds_pure m
  | cons e entries ih =>
    rw [List.foldlM_cons]
    exact (hg m e (by simp)).bind (ih fun m e he => hg m e (by simp [he]))

/-- Plain host data that goes in again with the depth it needed to come out, and with every larger
one. -/
def Host.Returns (depth : Nat) (h : Host) : Prop :=
  h.Native ∧ ∀ d, depth ≤ d → ∀ path, Succeeds (h.importIn d path)

theorem exists_succ_of_le {d depth : Nat} (h : depth + 1 ≤ d) : ∃ d', d = d' + 1 ∧ depth ≤ d' :=
  ⟨d - 1, by omega, by omega⟩

theorem returns_list {depth : Nat} {items : List Host} (h : ∀ v ∈ items, v.Returns depth) :
    (Host.list items).Returns (depth + 1) := by
  refine ⟨.list fun v hv => (h v hv).1, fun d hd path => ?_⟩
  obtain ⟨d, rfl, hle⟩ := exists_succ_of_le hd
  exact (succeeds_items fun v hv => (h v hv).2 d hle _).bind fun vs => succeeds_modifyGet _

/-- A map of which all keys are texts and all values go in again. -/
theorem returns_map {depth : Nat} {entries : List (HostKey × Host)}
    (h : ∀ e ∈ entries, (∃ key, e.1 = .text key) ∧ e.2.Returns depth) :
    (Host.map entries).Returns (depth + 1) := by
  refine ⟨.map (fun e he => (h e he).1) fun e he => (h e he).2.1, fun d hd path => ?_⟩
  obtain ⟨d, rfl, hle⟩ := exists_succ_of_le hd
  refine (succeeds_entries (fun m e he => ?_) _).bind fun m => succeeds_modifyGet _
  obtain ⟨⟨key, hk⟩, -, hv⟩ := h e he
  obtain ⟨k, v⟩ := e
  subst hk
  exact (hv d hle _).bind fun w => succeeds_pure _

theorem Host.mem_setEntry {key : String} {l : List (HostKey × Host)} {e : HostKey × Host}
    (he : e ∈ setEntry key h l) : e = (.text key, h) ∨ e ∈ l := by
  induction l with
  | nil => simpa [setEntry] using he
  | cons d l ih =>
    obtain ⟨k, w⟩ := d
    unfold setEntry at he
    split at he
    · next hk =>
      subst hk
      exact (List.mem_cons.mp he).imp_right (.tail _)
    · rcases List.mem_cons.mp he with rfl | he
      · exact .inr (.head _)
      · exact (ih he).imp_right (.tail _)

/-- What is collected step by step comes from the steps. -/
theorem mem_foldl_of {f : List α → α → List α} (hf : ∀ done b, ∀ a ∈ f done b, a = b ∨ a ∈ done)
    (l done : List α) : ∀ a ∈ l.foldl f done, a ∈ done ∨ a ∈ l := by
  induction l generalizing done with
  | nil => exact fun a ha => .inl ha
  | cons b l ih =>
    intro a ha
    rcases ih _ a ha with ha | ha
    · rcases hf done b a ha with rfl | ha
      · exact .inr (.head _)
      · exact .inl ha
    · exact .inr (.tail _ ha)

/-- A map made of entries has entries of these only. -/
theorem Host.exists_ofEntries (l : List (HostKey × Host)) :
    ∃ l', ofEntries l = .map l' ∧ ∀ e ∈ l', e ∈ l := by
  refine ⟨_, rfl, fun e he => (mem_foldl_of ?_ l [] e he).resolve_left (by simp)⟩
  rintro done ⟨k, v⟩ e he
  cases k with
  | text key => exact mem_setEntry he
  | other name => simpa [or_comm] using he

/-- What a successful traversal gives comes from what it went through. -/
theorem exists_of_mem_mapM {ε : Type} {g : α → Except ε β} {l : List α} {bs : List β}
    (h : l.mapM g = .ok bs) : ∀ b ∈ bs, ∃ a ∈ l, g a = .ok b := by
  induction l generalizing bs with
  | nil =>
    cases h
    simp
  | cons a l ih =>
    rw [List.mapM_cons] at h
    cases ha : g a with
    | error e => simp [ha, Bind.bind, Except.bind] at h
    | ok b =>
      cases hl : l.mapM g with
      | error e => simp [ha, hl, Bind.bind, Except.bind] at h
      | ok bs' =>
        simp only [ha, hl, Bind.bind, Except.bind] at h
        cases h
        rintro b' (_ | ⟨_, hb⟩)
        · exact ⟨a, by simp, ha⟩
        · obtain ⟨a', ha', hg⟩ := ih hl b' hb
          exact ⟨a', by simp [ha'], hg⟩

/-- A value of words only comes out as plain host data, which goes in again. -/
theorem returns_exportIn {depth : Nat} {path : List Value} (hs : s.InRange) (hv : v.InRange)
    (he : s.exportIn depth path v = .ok h) : h.Returns depth := by
  induction depth generalizing path v h with
  | zero => cases he
  | succ d ih =>
    have hscalar {h : Host} (hn : h.Native)
        (hi : ∀ d path, Succeeds (h.importIn (d + 1) path)) : h.Returns (d + 1) := by
      refine ⟨hn, fun d' hd path => ?_⟩
      obtain ⟨d', rfl, -⟩ := exists_succ_of_le hd
      exact hi d' path
    unfold Store.exportIn at he
    split at he
    · cases he
      refine hscalar (.int hv) fun d path => ?_
      simp only [Host.importIn, Host.importInt, if_pos (show InWord _ from hv)]
      exact succeeds_pure _
    · cases he
      exact hscalar (.bool _) fun d path => succeeds_pure _
    · cases he
      exact hscalar (.text _) fun d path => succeeds_pure _
    · cases he
      exact hscalar .null fun d path => succeeds_pure _
    · cases he
    · next place =>
      split at he
      · cases he
      · cases hm : (s.elements place).toList.mapM (s.exportIn d (.array place :: path)) with
        | error e => simp [hm, Bind.bind, Except.bind] at he
        | ok items =>
          simp only [hm, Bind.bind, Except.bind] at he
          cases he
          refine returns_list fun w hw => ?_
          obtain ⟨a, ha, hea⟩ := exists_of_mem_mapM hm w hw
          exact ih (hs.data.element (Array.mem_toList_iff.mp ha)) hea
    · next place =>
      split at he
      · cases he
      · obtain ⟨r, hm⟩ : ∃ r, r = (s.hashmap place).entries.mapM fun e => do
            return (HostKey.text e.key.text, ← s.exportIn d (.hashmap place :: path) e.value) :=
          ⟨_, rfl⟩
        rw [← hm] at he
        cases r with
        | error e => cases he
        | ok l =>
          cases he
          obtain ⟨l', hl, hl'⟩ := Host.exists_ofEntries l
          rw [hl]
          refine returns_map fun e he => ?_
          obtain ⟨a, ha, hea⟩ := exists_of_mem_mapM hm.symm e (hl' e he)
          cases hw : s.exportIn d (.hashmap place :: path) a.value with
          | error e => simp [hw, Bind.bind, Except.bind] at hea
          | ok w =>
            simp only [hw, Bind.bind, Except.bind] at hea
            cases hea
            exact ⟨⟨_, rfl⟩, ih (hs.data.entry ha) hw⟩
    · cases he
    · cases he
    · cases he

end Scriptlet
