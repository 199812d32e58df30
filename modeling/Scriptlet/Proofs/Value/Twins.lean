import Mathlib.Data.List.Forall2
import Mathlib.Logic.Relator
import Mathlib.Order.Defs.PartialOrder
import Scriptlet.Proofs.Value.Contents

/-!
The same values at other places. Some arrays and hashmaps of one store are paired with ones of
another store, with the same in them. No operator or builtin can tell the two stores apart by values
that point to paired places only.
-/

namespace Scriptlet
open Value

/-- Which arrays and hashmaps of one store stand for which ones of another. -/
structure Pairing where
  array : Nat → Nat → Prop
  hashmap : Nat → Nat → Prop

namespace Pairing

/-- A pairing is below another one that pairs more. -/
instance : Preorder Pairing where
  le P Q := (∀ p q, P.array p q → Q.array p q) ∧ ∀ p q, P.hashmap p q → Q.hashmap p q
  le_refl _ := ⟨fun _ _ h => h, fun _ _ h => h⟩
  le_trans _ _ _ h h' := ⟨fun _ _ hp => h'.1 _ _ (h.1 _ _ hp), fun _ _ hp => h'.2 _ _ (h.2 _ _ hp)⟩

/-- One more pair of arrays. -/
def withArray (P : Pairing) (p q : Nat) : Pairing :=
  { P with array := fun i j => P.array i j ∨ i = p ∧ j = q }

/-- One more pair of hashmaps. -/
def withHashmap (P : Pairing) (p q : Nat) : Pairing :=
  { P with hashmap := fun i j => P.hashmap i j ∨ i = p ∧ j = q }

variable {P : Pairing} {p q : Nat}

theorem le_withArray : P ≤ P.withArray p q := ⟨fun _ _ h => .inl h, fun _ _ h => h⟩

theorem le_withHashmap : P ≤ P.withHashmap p q := ⟨fun _ _ h => h, fun _ _ h => .inl h⟩

end Pairing

/-- The same value, up to the places of arrays and hashmaps. -/
inductive Twins (P : Pairing) : Value → Value → Prop where
  | int (n : Int) (mark : Mark) : Twins P (.int n mark) (.int n mark)
  | bool (b : Bool) : Twins P (.bool b) (.bool b)
  | string (t : String) (mark : Mark) : Twins P (.string t mark) (.string t mark)
  | null : Twins P .null .null
  | array {p q : Nat} (h : P.array p q) : Twins P (.array p) (.array q)
  | hashmap {p q : Nat} (h : P.hashmap p q) : Twins P (.hashmap p) (.hashmap q)
  | function (place : Nat) : Twins P (.function place) (.function place)
  | builtin (b : Builtin) : Twins P (.builtin b) (.builtin b)
  | error (fault : Fault) (mark : Mark) : Twins P (.error fault mark) (.error fault mark)
  | returned {v w : Value} (h : Twins P v w) (mark : Mark) :
    Twins P (.returned v mark) (.returned w mark)

/-- Entries of the same key with the same value. -/
def Entry.Twins (P : Pairing) (d e : Entry) : Prop :=
  d.key = e.key ∧ Scriptlet.Twins P d.value e.value

/-- Hashmaps with the same entries in the same order. -/
def Hashmap.Twins (P : Pairing) (m n : Hashmap) : Prop :=
  List.Forall₂ (Entry.Twins P) m.entries n.entries

variable {P Q : Pairing} {v w v' w' : Value} {vs ws : List Value} {m n : Hashmap} {d e : Entry}
  {s t : Store} {place p q : Nat}

namespace Twins

theorem mono (h : Twins P v w) (hPQ : P ≤ Q) : Twins Q v w := by
  induction h with
  | array h => exact .array (hPQ.1 _ _ h)
  | hashmap h => exact .hashmap (hPQ.2 _ _ h)
  | returned _ mark ih => exact .returned ih mark
  | _ => constructor

theorem of_isPlain (h : v.IsPlain) : Twins P v v := by
  rcases h with h | ⟨fault, rfl⟩
  · cases v with
    | array => exact h.elim
    | hashmap => exact h.elim
    | function => exact h.elim
    | error => exact h.elim
    | returned => exact h.elim
    | _ => constructor
  · exact .error fault none

theorem tag_eq (h : Twins P v w) : v.tag = w.tag := by
  cases h <;> rfl

theorem isSignal_eq (h : Twins P v w) : v.isSignal = w.isSignal := by
  cases h <;> rfl

theorem key?_eq (h : Twins P v w) : v.key? = w.key? := by
  cases h <;> rfl

/-- Twins of one value are one value, and so the other way round. -/
theorem eq_iff (ha : Relator.BiUnique P.array) (hm : Relator.BiUnique P.hashmap)
    (h : Twins P v w) (h' : Twins P v' w') : v = v' ↔ w = w' := by
  induction h generalizing v' w' with
  | array h =>
    cases h' with
    | array h' =>
      simp only [Value.array.injEq]
      constructor
      · rintro rfl
        exact ha.2 h h'
      · rintro rfl
        exact ha.1 h h'
    | _ => simp
  | hashmap h =>
    cases h' with
    | hashmap h' =>
      simp only [Value.hashmap.injEq]
      constructor
      · rintro rfl
        exact hm.2 h h'
      · rintro rfl
        exact hm.1 h h'
    | _ => simp
  | returned _ mark ih =>
    cases h' with
    | returned h' mark' => simp [ih h']
    | _ => simp
  | _ => cases h' <;> simp

theorem getD {o o' : Option Value} (h : Option.Rel (Twins P) o o') :
    Twins P (o.getD .null) (o'.getD .null) := by
  cases h with
  | none => exact .null
  | some h => exact h

end Twins

theorem forall₂_twins_mono (h : List.Forall₂ (Twins P) vs ws) (hPQ : P ≤ Q) :
    List.Forall₂ (Twins Q) vs ws := h.imp fun _ _ h => h.mono hPQ

theorem forall₂_getElem? {α β : Type} {R : α → β → Prop} {as : List α} {bs : List β}
    (h : List.Forall₂ R as bs) (i : Nat) : Option.Rel R as[i]? bs[i]? := by
  induction h generalizing i with
  | nil => exact .none
  | cons hab _ ih =>
    cases i with
    | zero => exact .some hab
    | succ i => exact ih i

theorem rel_twins_mono {o o' : Option Value} (h : Option.Rel (Twins P) o o') (hPQ : P ≤ Q) :
    Option.Rel (Twins Q) o o' := by
  cases h with
  | none => exact .none
  | some h => exact .some (h.mono hPQ)

/-! ### Operators -/

theorem PrefixOp.apply_twins (op : PrefixOp) (h : Twins P v w) : op.apply v = op.apply w := by
  cases op <;> cases h <;> rfl

theorem InfixOp.apply_twins (op : InfixOp) (ha : Relator.BiUnique P.array)
    (hm : Relator.BiUnique P.hashmap) (hl : Twins P v w) (hr : Twins P v' w') :
    op.apply v v' = op.apply w w' := by
  have heq := hl.eq_iff ha hm hr
  unfold apply
  rw [← hl.tag_eq, ← hr.tag_eq]
  split
  · rfl
  · next ht =>
    -- only the comparison of places depends on more than the values themselves
    rw [not_not] at ht
    cases hl <;> cases hr <;> cases ht
    all_goals first | rfl | cases op <;> simp [heq, tag]

/-! ### Hashmaps -/

namespace Hashmap

theorem Twins.mono (h : m.Twins P n) (hPQ : P ≤ Q) : m.Twins Q n :=
  List.Forall₂.imp (fun _ _ h => ⟨h.1, h.2.mono hPQ⟩) h

theorem twins_empty : ({} : Hashmap).Twins P {} := .nil

theorem forall₂_putIn {l l' : List Entry} (hl : List.Forall₂ (Entry.Twins P) l l')
    (he : Entry.Twins P d e) : List.Forall₂ (Entry.Twins P) (putIn d l) (putIn e l') := by
  induction hl with
  | nil => exact .cons he .nil
  | cons hc hl ih =>
    unfold putIn
    rw [hc.1, he.1]
    split
    · exact .cons he hl
    · exact .cons hc ih

theorem Twins.put (h : m.Twins P n) (k : Key) (hv : Scriptlet.Twins P v w) :
    (m.put k v).Twins P (n.put k w) := forall₂_putIn h ⟨rfl, hv⟩

theorem Twins.get? (h : m.Twins P n) (k : Key) :
    Option.Rel (Scriptlet.Twins P) (m.get? k) (n.get? k) := by
  unfold Hashmap.get?
  unfold Hashmap.Twins at h
  generalize m.entries = l, n.entries = l' at h
  induction h with
  | nil => exact .none
  | @cons d e _ _ hc _ ih =>
    by_cases hk : d.key.hashKey = k.hashKey
    · simpa [hk, hc.1 ▸ hk] using Option.Rel.some hc.2
    · simpa [hk, hc.1 ▸ hk] using ih

end Hashmap

/-! ### Stores -/

namespace Store

theorem elements_push : (s.push place v).elements p =
    if p = place ∧ place < s.arrays.size then (s.elements place).push v else s.elements p := by
  simp only [elements, push, Array.getElem?_modify]
  by_cases hp : place = p
  · subst hp
    by_cases hs : place < s.arrays.size
    · simp [hs]
    · simp [hs]
  · simp [hp, Ne.symm hp]

/-- Two stores with the same in the places that are paired. No place is paired with two. -/
structure Paired (P : Pairing) (s t : Store) : Prop where
  array : Relator.BiUnique P.array
  hashmap : Relator.BiUnique P.hashmap
  elements {p q : Nat} : P.array p q → p < s.arrays.size ∧ q < t.arrays.size ∧
    List.Forall₂ (Twins P) (s.elements p).toList (t.elements q).toList
  entries {p q : Nat} : P.hashmap p q → p < s.hashmaps.size ∧ q < t.hashmaps.size ∧
    (s.hashmap p).Twins P (t.hashmap q)

end Store

/-- A pair of new places is one to one with those that were paired before. -/
theorem biUnique_or {R : Nat → Nat → Prop} (h : Relator.BiUnique R)
    (hp : ∀ i j, R i j → i < p ∧ j < q) : Relator.BiUnique fun i j => R i j ∨ i = p ∧ j = q := by
  constructor
  · rintro i j k (hi | ⟨rfl, rfl⟩) (hj | ⟨rfl, hk⟩)
    · exact h.1 hi hj
    · exact absurd (hp _ _ hi).2 (hk ▸ Nat.lt_irrefl _)
    · exact absurd (hp _ _ hj).2 (Nat.lt_irrefl _)
    · rfl
  · rintro i j k (hi | ⟨rfl, rfl⟩) (hj | ⟨hk, rfl⟩)
    · exact h.2 hi hj
    · exact absurd (hp _ _ hi).1 (hk ▸ Nat.lt_irrefl _)
    · exact absurd (hp _ _ hj).1 (Nat.lt_irrefl _)
    · rfl

namespace Store.Paired

theorem empty (s t : Store) : Paired ⟨fun _ _ => False, fun _ _ => False⟩ s t :=
  ⟨⟨fun _ _ _ h => h.elim, fun _ _ _ h => h.elim⟩, ⟨fun _ _ _ h => h.elim, fun _ _ _ h => h.elim⟩,
    fun h => h.elim, fun h => h.elim⟩

theorem newArray (h : Paired P s t) (hv : List.Forall₂ (Twins P) vs ws) :
    Paired (P.withArray s.arrays.size t.arrays.size) (s.newArray vs.toArray).2
      (t.newArray ws.toArray).2 := by
  refine ⟨biUnique_or h.array fun i j hij => ⟨(h.elements hij).1, (h.elements hij).2.1⟩, h.hashmap,
    ?_, fun hij => ?_⟩
  · rintro i j (hij | ⟨rfl, rfl⟩)
    · obtain ⟨hi, hj, hel⟩ := h.elements hij
      rw [elements_newArray, elements_newArray, if_neg (Nat.ne_of_lt hi), if_neg (Nat.ne_of_lt hj)]
      refine ⟨?_, ?_, forall₂_twins_mono hel Pairing.le_withArray⟩
      · simpa [Store.newArray] using Nat.lt_succ_of_lt hi
      · simpa [Store.newArray] using Nat.lt_succ_of_lt hj
    · rw [elements_newArray, elements_newArray, if_pos rfl, if_pos rfl]
      exact ⟨by simp [Store.newArray], by simp [Store.newArray],
        forall₂_twins_mono hv Pairing.le_withArray⟩
  · obtain ⟨hi, hj, he⟩ := h.entries hij
    exact ⟨hi, hj, he.mono Pairing.le_withArray⟩

theorem newHashmap (h : Paired P s t) (hm : m.Twins P n) :
    Paired (P.withHashmap s.hashmaps.size t.hashmaps.size) (s.newHashmap m).2
      (t.newHashmap n).2 := by
  refine ⟨h.array, biUnique_or h.hashmap fun i j hij => ⟨(h.entries hij).1, (h.entries hij).2.1⟩,
    fun hij => ?_, ?_⟩
  · obtain ⟨hi, hj, hel⟩ := h.elements hij
    exact ⟨hi, hj, forall₂_twins_mono hel Pairing.le_withHashmap⟩
  · rintro i j (hij | ⟨rfl, rfl⟩)
    · obtain ⟨hi, hj, he⟩ := h.entries hij
      rw [hashmap_newHashmap, hashmap_newHashmap, if_neg (Nat.ne_of_lt hi),
        if_neg (Nat.ne_of_lt hj)]
      refine ⟨?_, ?_, he.mono Pairing.le_withHashmap⟩
      · simpa [Store.newHashmap] using Nat.lt_succ_of_lt hi
      · simpa [Store.newHashmap] using Nat.lt_succ_of_lt hj
    · rw [hashmap_newHashmap, hashmap_newHashmap, if_pos rfl, if_pos rfl]
      exact ⟨by simp [Store.newHashmap], by simp [Store.newHashmap], hm.mono Pairing.le_withHashmap⟩

theorem push (h : Paired P s t) (hp : P.array p q) (hv : Twins P v w) :
    Paired P (s.push p v) (t.push q w) := by
  obtain ⟨hps, hqt, hpq⟩ := h.elements hp
  refine ⟨h.array, h.hashmap, fun {i j} hij => ?_, h.entries⟩
  obtain ⟨hi, hj, hel⟩ := h.elements hij
  refine ⟨by simpa [Store.push] using hi, by simpa [Store.push] using hj, ?_⟩
  rw [elements_push, elements_push]
  by_cases hip : i = p
  · subst hip
    obtain rfl := h.array.2 hij hp
    rw [if_pos ⟨rfl, hps⟩, if_pos ⟨rfl, hqt⟩, Array.toList_push, Array.toList_push]
    exact List.rel_append hpq (.cons hv .nil)
  · have hjq : j ≠ q := by
      rintro rfl
      exact hip (h.array.1 hij hp)
    rw [if_neg fun he => hip he.1, if_neg fun he => hjq he.1]
    exact hel

theorem size_eq (h : Paired P s t) (hp : P.array p q) :
    (s.elements p).size = (t.elements q).size := (h.elements hp).2.2.length_eq

theorem getElem? (h : Paired P s t) (hp : P.array p q) (i : Nat) :
    Option.Rel (Twins P) (s.elements p)[i]? (t.elements q)[i]? := by
  have hi := forall₂_getElem? (h.elements hp).2.2 i
  simpa only [Array.getElem?_toList] using hi

end Store.Paired

/-! ### Builtins -/

/-- A builtin gives twins for twins. -/
theorem Builtin.apply_twins (b : Builtin) (h : s.Paired P t) (ha : List.Forall₂ (Twins P) vs ws) :
    Twins P (b.apply vs s).1 (b.apply ws t).1 ∧ (b.apply vs s).2.Paired P (b.apply ws t).2 := by
  have hfault (fault : Fault) : Twins P (ofFault fault) (ofFault fault) := .error fault none
  match vs, ws, ha with
  | [], [], .nil => cases b <;> exact ⟨hfault _, h⟩
  | [v], [w], .cons hv .nil =>
    cases b with
    | len =>
      cases hv with
      | string => exact ⟨.int _ _, h⟩
      | @array p q hp =>
        have hs : len.apply [.array p] s = (ofInt (t.elements q).size, s) := by
          rw [← h.size_eq hp]
          rfl
        rw [hs]
        exact ⟨.int _ _, h⟩
      | _ => exact ⟨hfault _, h⟩
    | push => cases hv <;> exact ⟨hfault _, h⟩
    | first =>
      cases hv with
      | array hp => exact ⟨.getD (h.getElem? hp 0), h⟩
      | _ => exact ⟨hfault _, h⟩
    | last =>
      cases hv with
      | @array p q hp =>
        refine ⟨.getD ?_, h⟩
        rw [Array.back?_eq_getElem?, Array.back?_eq_getElem?, h.size_eq hp]
        exact h.getElem? hp _
      | _ => exact ⟨hfault _, h⟩
    | intToString =>
      cases hv with
      | int => exact ⟨.string _ _, h⟩
      | _ => exact ⟨hfault _, h⟩
  | [v, v'], [w, w'], .cons hv (.cons hv' .nil) =>
    cases b with
    | push =>
      cases hv with
      | array hp => exact ⟨.array hp, h.push hp hv'⟩
      | _ => exact ⟨hfault _, h⟩
    | _ =>
      simp only [apply]
      exact ⟨hfault _, h⟩
  | v :: v' :: v'' :: vs, w :: w' :: w'' :: ws, .cons hv (.cons hv' (.cons hv'' hr)) =>
    have hlen : (v :: v' :: v'' :: vs).length = (w :: w' :: w'' :: ws).length := by
      simp [hr.length_eq]
    cases b <;> simp only [apply] <;> rw [hlen] <;> exact ⟨hfault _, h⟩

end Scriptlet
