import Scriptlet.Host.Basic
import Scriptlet.Number.Word
import Scriptlet.Proofs.Value.Parts
import Scriptlet.Proofs.Value.WellFormed

/-!
Collections taken apart. A value without cycles stands for host data, in which a collection that is
shared is there as often as one comes to it; values with one structure stand for the same.
-/

namespace Scriptlet

open Number Relation

variable {α β γ : Type} {s t : Store} {v w : Value} {h g : Host}

/-- The host data that a value stands for. -/
inductive Store.Represents (s : Store) : Value → Host → Prop where
  | null : s.Represents .null .null
  | bool (b : Bool) : s.Represents (.bool b) (.bool b)
  | int {n : Int} (h : InWord n) (mark : Mark) : s.Represents (.int n mark) (.int n)
  | text (t : String) (mark : Mark) : s.Represents (.string t mark) (.text t)
  | list {place : Nat} {l : List (Value × Host)} (hp : place < s.arrays.size)
    (he : (s.elements place).toList = l.map (·.1)) (h : ∀ e ∈ l, s.Represents e.1 e.2) :
    s.Represents (.array place) (.list (l.map (·.2)))
  | map {place : Nat} {l : List (Entry × Host)} (hp : place < s.hashmaps.size)
    (he : (s.hashmap place).entries = l.map (·.1)) (hk : (s.hashmap place).Keyed)
    (ht : ∀ e ∈ l, ∃ t, e.1.key = .string t) (h : ∀ e ∈ l, s.Represents e.1.value e.2) :
    s.Represents (.hashmap place) (.map (l.map fun e => (.text e.1.key.text, e.2)))

/-- Values, each in a store of its own, of the same structure: the same scalars, arrays of elements
of the same structure, and hashmaps with such values under the same keys in the same order. -/
inductive SameStructure (s t : Store) : Value → Value → Prop where
  | null : SameStructure s t .null .null
  | bool (b : Bool) : SameStructure s t (.bool b) (.bool b)
  | int (n : Int) (mark mark' : Mark) : SameStructure s t (.int n mark) (.int n mark')
  | string (x : String) (mark mark' : Mark) : SameStructure s t (.string x mark) (.string x mark')
  | array {p q : Nat} {l : List (Value × Value)} (hp : (s.elements p).toList = l.map (·.1))
    (hq : (t.elements q).toList = l.map (·.2)) (h : ∀ e ∈ l, SameStructure s t e.1 e.2) :
    SameStructure s t (.array p) (.array q)
  | hashmap {p q : Nat} {l : List (Entry × Entry)} (hp : (s.hashmap p).entries = l.map (·.1))
    (hq : (t.hashmap q).entries = l.map (·.2)) (hk : ∀ e ∈ l, e.1.key = e.2.key)
    (h : ∀ e ∈ l, SameStructure s t e.1.value e.2.value) :
    SameStructure s t (.hashmap p) (.hashmap q)

/-- What a value can reach that is to become host data: no signal, function or builtin, words for
integers, and texts for keys. -/
def Store.Transferable (s : Store) : Value → Prop
  | .null | .bool _ | .string .. => True
  | .int n _ => InWord n
  | .array place => place < s.arrays.size
  | .hashmap place => place < s.hashmaps.size ∧ (s.hashmap place).Keyed ∧
      ∀ e ∈ (s.hashmap place).entries, ∃ t, e.key = .string t
  | _ => False

/-- A value that can become host data. -/
structure Store.Convertible (s : Store) (v : Value) : Prop where
  transferable : ∀ u, s.Reaches v u → s.Transferable u
  acyclic : s.Acyclic v

/-- A store that has the arrays and hashmaps of another one, with the contents that they have there. -/
structure Store.Within (s t : Store) : Prop where
  arrays : s.arrays.size ≤ t.arrays.size
  hashmaps : s.hashmaps.size ≤ t.hashmaps.size
  elements : ∀ place < s.arrays.size, t.elements place = s.elements place
  hashmap : ∀ place < s.hashmaps.size, t.hashmap place = s.hashmap place

/-! ### Lists in pairs -/

/-- Two lists with the same images pair by pair. -/
theorem exists_pairs {f : α → γ} {g : β → γ} {as : List α} {bs : List β}
    (h : as.map f = bs.map g) :
    ∃ ps : List (α × β), as = ps.map (·.1) ∧ bs = ps.map (·.2) ∧ ∀ p ∈ ps, f p.1 = g p.2 := by
  induction as generalizing bs with
  | nil =>
    obtain rfl : bs = [] := by simpa using h.symm
    exact ⟨[], rfl, rfl, by simp⟩
  | cons a as ih =>
    obtain ⟨b, bs, rfl⟩ := List.exists_cons_of_ne_nil (l := bs) (by rintro rfl; simp at h)
    simp only [List.map_cons, List.cons.injEq] at h
    obtain ⟨ps, rfl, rfl, hps⟩ := ih h.2
    exact ⟨(a, b) :: ps, rfl, rfl, List.forall_mem_cons.mpr ⟨h.1, hps⟩⟩

/-- A list with a partner for each of its items. -/
theorem exists_partners {R : α → β → Prop} (as : List α) (h : ∀ a ∈ as, ∃ b, R a b) :
    ∃ ps : List (α × β), as = ps.map (·.1) ∧ ∀ p ∈ ps, R p.1 p.2 := by
  induction as with
  | nil => exact ⟨[], rfl, by simp⟩
  | cons a as ih =>
    obtain ⟨⟨b, hb⟩, has⟩ := List.forall_mem_cons.mp h
    obtain ⟨ps, rfl, hps⟩ := ih has
    exact ⟨(a, b) :: ps, rfl, List.forall_mem_cons.mpr ⟨hb, hps⟩⟩

/-- A traversal with one way to fail, which some items do. -/
theorem mapM_map_eq_ite {m : Type → Type} [Monad m] [LawfulMonad m] (bad : ∀ δ, m δ)
    (hbad : ∀ {δ ε : Type} (q : δ → m ε), bad δ >>= q = bad ε) {k : γ → α} {f : α → m β} {g : γ → β}
    {p : γ → Prop} [DecidablePred p] {es : List γ}
    (h : ∀ e ∈ es, f (k e) = if p e then pure (g e) else bad β) :
    (es.map k).mapM f = if ∀ e ∈ es, p e then pure (es.map g) else bad (List β) := by
  induction es with
  | nil => simp
  | cons e es ih =>
    obtain ⟨he, hes⟩ := List.forall_mem_cons.mp h
    rw [List.map_cons, List.mapM_cons, he, ih hes, if_congr List.forall_mem_cons rfl rfl]
    by_cases hp : p e
    · by_cases hps : ∀ e ∈ es, p e
      · rw [if_pos hp, if_pos hps, if_pos ⟨hp, hps⟩, pure_bind, pure_bind, List.map_cons]
      · have hnot : ¬ (p e ∧ ∀ e ∈ es, p e) := fun hall => hps hall.2
        rw [if_pos hp, if_neg hps, if_neg hnot, pure_bind, hbad]
    · have hnot : ¬ (p e ∧ ∀ e ∈ es, p e) := fun hall => hp hall.1
      rw [if_neg hp, if_neg hnot, hbad]

/-! ### Parts of host data -/

namespace Host

theorem sizeOf_lt_list {items : List Host} (hv : h ∈ items) : sizeOf h < sizeOf (list items) := by
  have hlt := List.sizeOf_lt_of_mem hv
  simp only [list.sizeOf_spec]
  omega

theorem sizeOf_lt_tuple {items : List Host} (hv : h ∈ items) :
    sizeOf h < sizeOf (tuple items) := by
  have hlt := List.sizeOf_lt_of_mem hv
  simp only [tuple.sizeOf_spec]
  omega

theorem sizeOf_lt_map {entries : List (HostKey × Host)} {e : HostKey × Host} (he : e ∈ entries) :
    sizeOf e.2 < sizeOf (map entries) := by
  have hlt := List.sizeOf_lt_of_mem he
  obtain ⟨k, v⟩ := e
  simp only [Prod.mk.sizeOf_spec] at hlt
  simp only [map.sizeOf_spec]
  omega

end Host

/-! ### What a value stands for -/

namespace Store

/-- A value stands for one host datum at most. -/
theorem Represents.unique (hv : s.Represents v h) (hg : s.Represents v g) : h = g := by
  induction hv generalizing g with
  | null | bool | int | text =>
    cases hg
    rfl
  | list _ he _ ih =>
    cases hg with
    | list _ he' h' =>
      obtain ⟨ps, rfl, rfl, hps⟩ := exists_pairs (he.symm.trans he')
      simp only [List.map_map, Host.list.injEq]
      refine List.map_congr_left fun p hp => ih p.1 (List.mem_map_of_mem hp) ?_
      exact hps p hp ▸ h' p.2 (List.mem_map_of_mem hp)
  | map _ he _ _ _ ih =>
    cases hg with
    | map _ he' _ _ h' =>
      obtain ⟨ps, rfl, rfl, hps⟩ := exists_pairs (he.symm.trans he')
      simp only [List.map_map, Host.map.injEq]
      refine List.map_congr_left fun p hp => ?_
      have hh := ih p.1 (List.mem_map_of_mem hp) (hps p hp ▸ h' p.2 (List.mem_map_of_mem hp))
      simp only [Function.comp_apply, hps p hp, hh]

/-- Values of one structure are what stands for the same. -/
theorem Represents.sameStructure (hv : s.Represents v h) (hw : t.Represents w h) :
    SameStructure s t v w := by
  induction hv generalizing w with
  | null =>
    cases hw
    exact .null
  | bool b =>
    cases hw
    exact .bool b
  | int _ mark =>
    cases hw with
    | int _ mark' => exact .int _ mark mark'
  | text _ mark =>
    cases hw with
    | text _ mark' => exact .string _ mark mark'
  | @list p es _ he _ ih =>
    generalize hg : Host.list (es.map (·.2)) = g at hw
    cases hw with
    | list _ he' h' =>
      obtain ⟨ps, rfl, rfl, hps⟩ := exists_pairs (Host.list.inj hg)
      refine .array (l := ps.map fun p => (p.1.1, p.2.1)) (he.trans ?_) (he'.trans ?_) ?_
      · rw [List.map_map, List.map_map]
        rfl
      · rw [List.map_map, List.map_map]
        rfl
      · rintro e he
        obtain ⟨p, hp, rfl⟩ := List.mem_map.mp he
        exact ih p.1 (List.mem_map_of_mem hp) (hps p hp ▸ h' p.2 (List.mem_map_of_mem hp))
    | _ => cases hg
  | @map p es _ he _ ht _ ih =>
    generalize hg : Host.map _ = g at hw
    cases hw with
    | map _ he' _ ht' h' =>
      obtain ⟨ps, rfl, rfl, hps⟩ := exists_pairs (Host.map.inj hg)
      have hkey {e : (Entry × Host) × (Entry × Host)} (hp : e ∈ ps) : e.1.1.key = e.2.1.key := by
        obtain ⟨x, hx⟩ := ht e.1 (List.mem_map_of_mem hp)
        obtain ⟨y, hy⟩ := ht' e.2 (List.mem_map_of_mem hp)
        simpa [hx, hy, Key.text] using congrArg Prod.fst (hps e hp)
      refine .hashmap (l := ps.map fun p => (p.1.1, p.2.1)) (he.trans ?_) (he'.trans ?_) ?_ ?_
      · rw [List.map_map, List.map_map]
        rfl
      · rw [List.map_map, List.map_map]
        rfl
      · rintro e he
        obtain ⟨p, hp, rfl⟩ := List.mem_map.mp he
        exact hkey hp
      · rintro e he
        obtain ⟨p, hp, rfl⟩ := List.mem_map.mp he
        exact ih p.1 (List.mem_map_of_mem hp)
          ((Prod.mk.inj (hps p hp)).2 ▸ h' p.2 (List.mem_map_of_mem hp))
    | _ => cases hg

/-- What a value stands for does not change while its collections are as they were. -/
theorem Represents.within (hv : s.Represents v h) (ht : s.Within t) : t.Represents v h := by
  induction hv with
  | null => exact .null
  | bool b => exact .bool b
  | int hn mark => exact .int hn mark
  | text x mark => exact .text x mark
  | list hp he _ ih =>
    exact .list (Nat.lt_of_lt_of_le hp ht.arrays) (by rwa [ht.elements _ hp]) ih
  | map hp he hk htext _ ih =>
    exact .map (Nat.lt_of_lt_of_le hp ht.hashmaps) (by rwa [ht.hashmap _ hp])
      (by rwa [ht.hashmap _ hp]) htext ih

theorem Convertible.part (hv : s.Convertible v) {u : Value} (hu : s.Part u v) : s.Convertible u :=
  ⟨fun w hw => hv.transferable w (hw.tail hu), hv.acyclic.part hu⟩

/-- A value that can become host data stands for some. -/
theorem Convertible.exists_represents (hv : s.Convertible v) : ∃ h, s.Represents v h := by
  induction hv.acyclic.acc with
  | intro v _ ih =>
    have hparts (u : Value) (hu : s.Part u v) : ∃ h, s.Represents u h := ih u hu (hv.part hu)
    have hdata : s.Transferable v := hv.transferable v .refl
    cases v with
    | null => exact ⟨_, .null⟩
    | bool b => exact ⟨_, .bool b⟩
    | int n mark => exact ⟨_, .int hdata mark⟩
    | string t mark => exact ⟨_, .text t mark⟩
    | array place =>
      obtain ⟨es, he, h⟩ := exists_partners (s.elements place).toList fun u hu =>
        hparts u (.element (Array.mem_toList_iff.mp hu))
      exact ⟨_, .list hdata he h⟩
    | hashmap place =>
      obtain ⟨hp, hk, ht⟩ := hdata
      obtain ⟨es, he, h⟩ := exists_partners (R := fun e h => s.Represents e.value h)
        (s.hashmap place).entries fun e he => hparts e.value (.entry he)
      exact ⟨_, .map hp he hk (fun e hm => ht e.1 (he ▸ List.mem_map_of_mem hm)) h⟩
    | function | builtin | error | returned => exact hdata.elim

/-- A part of a value stands for less. -/
theorem Represents.part (hv : s.Represents v h) {u : Value} (hu : s.Part u v) :
    ∃ g, s.Represents u g ∧ sizeOf g < sizeOf h := by
  cases hv with
  | list _ he hes =>
    cases hu with
    | element hu =>
      obtain ⟨e, hm, rfl⟩ := List.mem_map.mp (he ▸ Array.mem_toList_iff.mpr hu)
      exact ⟨e.2, hes e hm, Host.sizeOf_lt_list (List.mem_map_of_mem hm)⟩
  | map _ he _ _ hes =>
    cases hu with
    | entry hu =>
      obtain ⟨e, hm, rfl⟩ := List.mem_map.mp (he ▸ hu)
      exact ⟨e.2, hes e hm, Host.sizeOf_lt_map
        (List.mem_map_of_mem (f := fun e : Entry × Host => (HostKey.text e.1.key.text, e.2)) hm)⟩
  | _ => cases hu

theorem Represents.transGen (hv : s.Represents v h) {u : Value} (hu : TransGen s.Part u v) :
    ∃ g, s.Represents u g ∧ sizeOf g < sizeOf h := by
  induction hu using TransGen.head_induction_on with
  | single hu => exact hv.part hu
  | head hu _ ih =>
    obtain ⟨g, hg, hlt⟩ := ih
    obtain ⟨g', hg', hlt'⟩ := hg.part hu
    exact ⟨g', hg', Nat.lt_trans hlt' hlt⟩

theorem Represents.transferable (hv : s.Represents v h) : s.Transferable v := by
  cases hv with
  | int hn => exact hn
  | list hp => exact hp
  | map hp he hk ht =>
    refine ⟨hp, hk, fun e hm => ?_⟩
    obtain ⟨e', hm', rfl⟩ := List.mem_map.mp (he ▸ hm)
    exact ht e' hm'
  | _ => trivial

/-- The values that stand for host data are those that can become host data. -/
theorem convertible_iff : s.Convertible v ↔ ∃ h, s.Represents v h := by
  refine ⟨Convertible.exists_represents, fun ⟨h, hv⟩ => ?_⟩
  have hreached (u : Value) (hu : s.Reaches v u) : ∃ g, s.Represents u g := by
    rcases reflTransGen_iff_eq_or_transGen.mp hu with rfl | hu
    · exact ⟨h, hv⟩
    · exact (hv.transGen hu).imp fun _ hg => hg.1
  refine ⟨fun u hu => ?_, fun u hu hcycle => ?_⟩
  · obtain ⟨g, hg⟩ := hreached u hu
    exact hg.transferable
  · -- what contains itself would stand for less than it stands for
    obtain ⟨g, hg⟩ := hreached u hu
    obtain ⟨g', hg', hlt⟩ := hg.transGen hcycle
    exact Nat.lt_irrefl _ (hg.unique hg' ▸ hlt)

theorem Within.refl (s : Store) : s.Within s :=
  ⟨Nat.le_refl _, Nat.le_refl _, fun _ _ => rfl, fun _ _ => rfl⟩

theorem Within.trans {u : Store} (h : s.Within t) (h' : t.Within u) : s.Within u where
  arrays := Nat.le_trans h.arrays h'.arrays
  hashmaps := Nat.le_trans h.hashmaps h'.hashmaps
  elements p hp := (h'.elements p (Nat.lt_of_lt_of_le hp h.arrays)).trans (h.elements p hp)
  hashmap p hp := (h'.hashmap p (Nat.lt_of_lt_of_le hp h.hashmaps)).trans (h.hashmap p hp)

theorem within_newArray (a : Array Value) : s.Within (s.newArray a).2 where
  arrays := by simp [newArray]
  hashmaps := Nat.le_refl _
  elements p hp := by rw [elements_newArray, if_neg (Nat.ne_of_lt hp)]
  hashmap _ _ := rfl

theorem within_newHashmap (m : Hashmap) : s.Within (s.newHashmap m).2 where
  arrays := Nat.le_refl _
  hashmaps := by simp [newHashmap]
  elements _ _ := rfl
  hashmap p hp := by rw [hashmap_newHashmap, if_neg (Nat.ne_of_lt hp)]

end Store

end Scriptlet
