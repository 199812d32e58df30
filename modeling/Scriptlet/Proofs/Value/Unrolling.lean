import Scriptlet.Proofs.Host.Exporting
import Scriptlet.Proofs.Value.Unfolding
import Scriptlet.Value.Display

/-!
Values as trees, whichever way arrays and hashmaps share each other or contain themselves. A value
is unrolled along its parts, up to the collections that are met again on the way into them, and the
text of a value is that of its tree.
-/

namespace Scriptlet

open Relation

/-- A value as a tree. A collection is in it as often as one comes to it. Where one comes to it
again on the way into it, it is not unrolled. -/
inductive Unrolling where
  | int (n : Int)
  | bool (b : Bool)
  | string (text : String)
  | null
  | function (params : List String) (body : List Stmt)
  | builtin (b : Builtin)
  | error (fault : Fault)
  | array (items : List Unrolling)
  | hashmap (entries : List (Key × Unrolling))
  | arrayAgain (place : Nat)
  | hashmapAgain (place : Nat)

namespace Unrolling

mutual

/-- The text of a tree, with quotes around a string if it is part of a collection. -/
def textIn (part : Bool) : Unrolling → String
  | int n => toString n
  | bool b => if b then "true" else "false"
  | string t => if part then "\"" ++ t ++ "\"" else t
  | null => "null"
  | function params body => "fn(" ++ joined ", " params ++ ") " ++ (Stmt.block body).text
  | builtin b => "builtin " ++ b.name
  | error fault => "error: " ++ fault.message
  | array items => "[" ++ joined ", " (itemTexts items) ++ "]"
  | hashmap entries => "\x7b" ++ joined ", " (entryTexts entries) ++ "\x7d"
  | arrayAgain _ => "[...]"
  | hashmapAgain _ => "\x7b...\x7d"

/-- The texts of the items of an array. -/
def itemTexts : List Unrolling → List String
  | [] => []
  | t :: ts => t.textIn true :: itemTexts ts

/-- The texts of the entries of a hashmap. -/
def entryTexts : List (Key × Unrolling) → List String
  | [] => []
  | (k, t) :: es => (k.shown ++ ": " ++ t.textIn true) :: entryTexts es

end

/-- The text of a tree by itself. -/
def text (t : Unrolling) : String := t.textIn false

mutual

/-- The number of levels of a tree. A function has those of its body and one more. -/
def levels : Unrolling → Nat
  | function _ body => stmtsHeight body + 1
  | array items => itemLevels items + 1
  | hashmap entries => entryLevels entries + 1
  | _ => 1

/-- The number of levels of the highest of some items. -/
def itemLevels : List Unrolling → Nat
  | [] => 0
  | t :: ts => max t.levels (itemLevels ts)

/-- The number of levels of the highest of some entries. -/
def entryLevels : List (Key × Unrolling) → Nat
  | [] => 0
  | (_, t) :: es => max t.levels (entryLevels es)

end

/-- A collection that is not unrolled again somewhere in a tree. -/
inductive Cuts : Unrolling → Value → Prop where
  | array (place : Nat) : Cuts (.arrayAgain place) (.array place)
  | hashmap (place : Nat) : Cuts (.hashmapAgain place) (.hashmap place)
  | item {items : List Unrolling} {t : Unrolling} {u : Value} (ht : t ∈ items) (h : Cuts t u) :
    Cuts (.array items) u
  | entry {entries : List (Key × Unrolling)} {e : Key × Unrolling} {u : Value} (he : e ∈ entries)
    (h : Cuts e.2 u) : Cuts (.hashmap entries) u

variable {items : List Unrolling} {entries : List (Key × Unrolling)} {n : Nat}

theorem itemTexts_eq_map : itemTexts items = items.map (textIn true) := by
  induction items with
  | nil => rfl
  | cons t ts ih => rw [itemTexts, ih, List.map_cons]

theorem entryTexts_eq_map :
    entryTexts entries = entries.map fun e => e.1.shown ++ ": " ++ e.2.textIn true := by
  induction entries with
  | nil => rfl
  | cons e es ih => rw [entryTexts, ih, List.map_cons]

theorem itemLevels_le : itemLevels items ≤ n ↔ ∀ t ∈ items, t.levels ≤ n := by
  induction items with
  | nil => simp [itemLevels]
  | cons t ts ih => rw [itemLevels, max_le_iff, ih, List.forall_mem_cons]

theorem entryLevels_le : entryLevels entries ≤ n ↔ ∀ e ∈ entries, e.2.levels ≤ n := by
  induction entries with
  | nil => simp [entryLevels]
  | cons e es ih => rw [entryLevels, max_le_iff, ih, List.forall_mem_cons]

theorem levels_pos (t : Unrolling) : 0 < t.levels := by
  cases t <;> simp [levels]

end Unrolling

namespace Store

/-- The parameters and the body of the function at a place. -/
def functionAt (s : Store) (place : Nat) : List String × List Stmt :=
  ((s.closures[place]?).map fun c => (c.params, c.body)).getD ([], [])

/-- The tree of a value inside the collections of a path. A collection on the path is not unrolled
again. -/
inductive Unrolls (s : Store) : List Value → Value → Unrolling → Prop where
  | int {path : List Value} (n : Int) (mark : Mark) : s.Unrolls path (.int n mark) (.int n)
  | bool {path : List Value} (b : Bool) : s.Unrolls path (.bool b) (.bool b)
  | string {path : List Value} (t : String) (mark : Mark) :
    s.Unrolls path (.string t mark) (.string t)
  | null {path : List Value} : s.Unrolls path .null .null
  | function {path : List Value} (place : Nat) :
    s.Unrolls path (.function place) (.function (s.functionAt place).1 (s.functionAt place).2)
  | builtin {path : List Value} (b : Builtin) : s.Unrolls path (.builtin b) (.builtin b)
  | error {path : List Value} (fault : Fault) (mark : Mark) :
    s.Unrolls path (.error fault mark) (.error fault)
  | array {path : List Value} {place : Nat} {l : List (Value × Unrolling)}
    (hn : .array place ∉ path) (he : (s.elements place).toList = l.map (·.1))
    (h : ∀ e ∈ l, s.Unrolls (.array place :: path) e.1 e.2) :
    s.Unrolls path (.array place) (.array (l.map (·.2)))
  | hashmap {path : List Value} {place : Nat} {l : List (Entry × Unrolling)}
    (hn : .hashmap place ∉ path) (he : (s.hashmap place).entries = l.map (·.1))
    (h : ∀ e ∈ l, s.Unrolls (.hashmap place :: path) e.1.value e.2) :
    s.Unrolls path (.hashmap place) (.hashmap (l.map fun e => (e.1.key, e.2)))
  | arrayAgain {path : List Value} {place : Nat} (hm : .array place ∈ path) :
    s.Unrolls path (.array place) (.arrayAgain place)
  | hashmapAgain {path : List Value} {place : Nat} (hm : .hashmap place ∈ path) :
    s.Unrolls path (.hashmap place) (.hashmapAgain place)

variable {s : Store} {u v : Value} {t t' : Unrolling} {path : List Value} {d n : Nat}

/-- A value has one tree at most. -/
theorem Unrolls.unique (h : s.Unrolls path v t) (h' : s.Unrolls path v t') : t = t' := by
  induction h generalizing t' with
  | int | bool | string | null | function | builtin | error =>
    cases h'
    rfl
  | array hn he _ ih =>
    cases h' with
    | array _ he' h' =>
      obtain ⟨ps, rfl, rfl, hps⟩ := exists_pairs (he.symm.trans he')
      rw [List.map_map, List.map_map]
      refine congrArg Unrolling.array (List.map_congr_left fun p hp => ?_)
      exact ih p.1 (List.mem_map_of_mem hp) (hps p hp ▸ h' p.2 (List.mem_map_of_mem hp))
    | arrayAgain hm => exact absurd hm hn
  | hashmap hn he _ ih =>
    cases h' with
    | hashmap _ he' h' =>
      obtain ⟨ps, rfl, rfl, hps⟩ := exists_pairs (he.symm.trans he')
      rw [List.map_map, List.map_map]
      refine congrArg Unrolling.hashmap (List.map_congr_left fun p hp => ?_)
      have ht := ih p.1 (List.mem_map_of_mem hp) (hps p hp ▸ h' p.2 (List.mem_map_of_mem hp))
      simp only [Function.comp_apply, hps p hp, ht]
    | hashmapAgain hm => exact absurd hm hn
  | arrayAgain hm =>
    cases h' with
    | array hn => exact absurd hm hn
    | arrayAgain => rfl
  | hashmapAgain hm =>
    cases h' with
    | hashmap hn => exact absurd hm hn
    | hashmapAgain => rfl

/-- What a part of a value reaches contains itself if it is the value. -/
theorem cyclic_of_part {w : Value} (hw : s.Part w v) (hr : s.Reaches w u)
    (hin : u ∈ v :: path ∨ TransGen s.Part u u) : u ∈ path ∨ TransGen s.Part u u := by
  obtain hm | hin := hin
  · obtain rfl | hm := List.mem_cons.mp hm
    · exact .inr (.tail' hr hw)
    · exact .inl hm
  · exact .inr hin

/-- What is cut contains itself, or is on the path. -/
theorem Unrolls.cuts (h : s.Unrolls path v t) (hu : t.Cuts u) :
    s.Reaches v u ∧ (u ∈ path ∨ TransGen s.Part u u) := by
  induction h with
  | int | bool | string | null | function | builtin | error => cases hu
  | array _ he _ ih =>
    cases hu with
    | item ht hu =>
      obtain ⟨e, hm, rfl⟩ := List.mem_map.mp ht
      have hpart : s.Part e.1 (.array _) :=
        .element (Array.mem_toList_iff.mp (he ▸ List.mem_map_of_mem hm))
      obtain ⟨hr, hin⟩ := ih e hm hu
      exact ⟨hr.tail hpart, cyclic_of_part hpart hr hin⟩
  | hashmap _ he _ ih =>
    cases hu with
    | entry ht hu =>
      obtain ⟨e, hm, rfl⟩ := List.mem_map.mp ht
      have hpart : s.Part e.1.value (.hashmap _) := .entry (he ▸ List.mem_map_of_mem hm)
      obtain ⟨hr, hin⟩ := ih e hm hu
      exact ⟨hr.tail hpart, cyclic_of_part hpart hr hin⟩
  | arrayAgain hm =>
    cases hu
    exact ⟨.refl, .inl hm⟩
  | hashmapAgain hm =>
    cases hu
    exact ⟨.refl, .inl hm⟩

/-! ### Texts -/

theorem functionText_eq (s : Store) (d place : Nat) : s.functionText d place =
    if stmtsHeight (s.functionAt place).2 ≤ d then
      some ("fn(" ++ joined ", " (s.functionAt place).1 ++ ") " ++
        (Stmt.block (s.functionAt place).2).text)
    else none := by
  unfold functionText functionAt
  cases s.closures[place]? with
  | none => rfl
  | some c =>
    simp only [Option.map_some, Option.getD_some]
    by_cases h : stmtsHeight c.body ≤ d
    · rw [if_neg (Nat.not_lt_of_le h), if_pos h]
    · rw [if_pos (Nat.lt_of_not_le h), if_neg h]

/-- The text of a value is that of its tree if there is room for the levels of the tree. -/
theorem Unrolls.displayIn_eq (h : s.Unrolls path v t) (d : Nat) (part : Bool) :
    s.displayIn d path part v = if t.levels ≤ d then some (t.textIn part) else none := by
  induction d generalizing path v t part with
  | zero => exact (if_neg (Nat.not_le_of_gt t.levels_pos)).symm
  | succ d ih =>
    cases h with
    | int | bool | string | null | builtin | error =>
      exact (if_pos (Nat.le_add_left 1 d)).symm
    | function place =>
      rw [displayIn, functionText_eq, Unrolling.levels]
      simp only [Nat.add_le_add_iff_right, Unrolling.textIn]
    | @array _ place l hn he h =>
      have hitems : (l.map (·.1)).mapM (s.displayIn d (.array place :: path) true) =
          if ∀ e ∈ l, e.2.levels ≤ d then some (l.map (·.2.textIn true)) else none :=
        mapM_map_eq_ite (fun _ => none) (fun _ => rfl) fun e he => ih (h e he) true
      have hlevels : (Unrolling.array (l.map (·.2))).levels ≤ d + 1 ↔ ∀ e ∈ l, e.2.levels ≤ d := by
        rw [Unrolling.levels, Nat.add_le_add_iff_right, Unrolling.itemLevels_le,
          List.forall_mem_map]
      simp only [displayIn, List.contains_iff_mem, hn, if_false, he, hitems, hlevels,
        Unrolling.textIn, Unrolling.itemTexts_eq_map, List.map_map]
      split <;> rfl
    | @hashmap _ place l hn he h =>
      have hentries : (l.map (·.1)).mapM (fun e => do
            return e.key.shown ++ ": " ++ (← s.displayIn d (.hashmap place :: path) true e.value)) =
          if ∀ e ∈ l, e.2.levels ≤ d then
            some (l.map fun e => e.1.key.shown ++ ": " ++ e.2.textIn true)
          else none := by
        refine mapM_map_eq_ite (fun _ => none) (fun _ => rfl) fun e he => ?_
        rw [ih (h e he) true]
        split <;> rfl
      have hlevels : (Unrolling.hashmap (l.map fun e => (e.1.key, e.2))).levels ≤ d + 1 ↔
          ∀ e ∈ l, e.2.levels ≤ d := by
        rw [Unrolling.levels, Nat.add_le_add_iff_right, Unrolling.entryLevels_le,
          List.forall_mem_map]
      simp only [displayIn, List.contains_iff_mem, hn, if_false, he, hentries, hlevels,
        Unrolling.textIn, Unrolling.entryTexts_eq_map, List.map_map]
      split <;> rfl
    | arrayAgain hm =>
      rw [displayIn, if_pos (List.contains_iff_mem.mpr hm)]
      exact (if_pos (Nat.le_add_left 1 d)).symm
    | hashmapAgain hm =>
      rw [displayIn, if_pos (List.contains_iff_mem.mpr hm)]
      exact (if_pos (Nat.le_add_left 1 d)).symm

/-! ### Every value has a tree -/

/-- A path of different collections with parts. -/
structure Entered (s : Store) (path : List Value) : Prop where
  nodup : path.Nodup
  parts : ∀ u ∈ path, s.parts u ≠ []

theorem entered_nil (s : Store) : s.Entered [] := ⟨.nil, by simp⟩

theorem Entered.cons (h : s.Entered path) (hn : v ∉ path) (hu : s.Part u v) :
    s.Entered (v :: path) :=
  ⟨List.nodup_cons.mpr ⟨hn, h.nodup⟩,
    List.forall_mem_cons.mpr ⟨List.ne_nil_of_mem (part_iff.mp hu), h.parts⟩⟩

theorem Entered.length_le (h : s.Entered path) :
    path.length ≤ s.arrays.size + s.hashmaps.size := by
  have hsub := List.subperm_of_subset h.nodup fun u hu => mem_collections (h.parts u hu)
  simpa [collections] using hsub.length_le

/-- A path cannot grow beyond the number of collections. -/
theorem Entered.exists_unrolls (hp : s.Entered path)
    (hv : ∀ u, s.Reaches v u → u.tag ≠ .returnValue) : ∃ t, s.Unrolls path v t := by
  induction hn : s.arrays.size + s.hashmaps.size - path.length using Nat.strong_induction_on
    generalizing path v with
  | _ n ih =>
    -- a collection that is gone into leaves one less that is not on the path
    have hparts (hm : v ∉ path) (u : Value) (hu : s.Part u v) : ∃ t, s.Unrolls (v :: path) u t := by
      have hin := hp.cons hm hu
      have hle := hin.length_le
      rw [List.length_cons] at hle
      exact ih _ (by rw [List.length_cons]; omega) hin (fun w hw => hv w (hw.tail hu)) rfl
    cases v with
    | int n mark => exact ⟨_, .int n mark⟩
    | bool b => exact ⟨_, .bool b⟩
    | string t mark => exact ⟨_, .string t mark⟩
    | null => exact ⟨_, .null⟩
    | function place => exact ⟨_, .function place⟩
    | builtin b => exact ⟨_, .builtin b⟩
    | error fault mark => exact ⟨_, .error fault mark⟩
    | returned w mark => exact absurd rfl (hv _ .refl)
    | array place =>
      by_cases hm : .array place ∈ path
      · exact ⟨_, .arrayAgain hm⟩
      · obtain ⟨es, he, h⟩ := exists_partners (s.elements place).toList fun u hu =>
          hparts hm u (.element (Array.mem_toList_iff.mp hu))
        exact ⟨_, .array hm he h⟩
    | hashmap place =>
      by_cases hm : .hashmap place ∈ path
      · exact ⟨_, .hashmapAgain hm⟩
      · obtain ⟨es, he, h⟩ := exists_partners
          (R := fun e t => s.Unrolls (.hashmap place :: path) e.value t)
          (s.hashmap place).entries fun e he => hparts hm e.value (.entry he)
        exact ⟨_, .hashmap hm he h⟩

theorem stmtsHeight_functionAt (hn : ∀ c ∈ s.closures, stmtsHeight c.body ≤ n) (place : Nat) :
    stmtsHeight (s.functionAt place).2 ≤ n := by
  unfold functionAt
  cases hc : s.closures[place]? with
  | none => exact Nat.zero_le n
  | some c => exact hn c (Array.mem_of_getElem? hc)

/-- No tree is higher than the collections and the highest function can make it. -/
theorem Unrolls.levels_le (h : s.Unrolls path v t) (hp : s.Entered path)
    (hn : ∀ c ∈ s.closures, stmtsHeight c.body ≤ n) :
    path.length + t.levels ≤ s.arrays.size + s.hashmaps.size + n + 1 := by
  induction h with
  | int | bool | string | null | builtin | error | arrayAgain | hashmapAgain =>
    have hle := hp.length_le
    simp only [Unrolling.levels]
    omega
  | function place =>
    have hle := hp.length_le
    have hbody := stmtsHeight_functionAt hn place
    rw [Unrolling.levels]
    omega
  | @array path place l hm he _ ih =>
    have hle := hp.length_le
    have hitems : ∀ t ∈ l.map (·.2), t.levels ≤ s.arrays.size + s.hashmaps.size + n - path.length :=
      List.forall_mem_map.mpr fun e hmem => by
        have := ih e hmem (hp.cons hm
          (.element (Array.mem_toList_iff.mp (he ▸ List.mem_map_of_mem hmem))))
        rw [List.length_cons] at this
        omega
    have := Unrolling.itemLevels_le.mpr hitems
    rw [Unrolling.levels]
    omega
  | @hashmap path place l hm he _ ih =>
    have hle := hp.length_le
    have hentries : ∀ e ∈ l.map (fun e => (e.1.key, e.2)),
        e.2.levels ≤ s.arrays.size + s.hashmaps.size + n - path.length :=
      List.forall_mem_map.mpr fun e hmem => by
        have := ih e hmem (hp.cons hm (.entry (he ▸ List.mem_map_of_mem hmem)))
        rw [List.length_cons] at this
        change e.2.levels ≤ _
        omega
    have := Unrolling.entryLevels_le.mpr hentries
    rw [Unrolling.levels]
    omega

/-- The text of a value is that of its tree if there is room for the levels of the tree, and there
is none otherwise. A tree is cut only at collections that contain themselves, so that one without a
cycle is written in full wherever it is. No tree is higher than the collections and the highest
function can make it. -/
theorem display_unrolling (s : Store) (v : Value)
    (hv : ∀ u, s.Reaches v u → u.tag ≠ .returnValue) :
    ∃ t, (∀ t', s.Unrolls [] v t' ↔ t' = t) ∧
      (∀ d, s.display d v = if t.levels ≤ d then some t.text else none) ∧
      (∀ u, t.Cuts u → s.Reaches v u ∧ TransGen s.Part u u) ∧
      ∀ n, (∀ c ∈ s.closures, stmtsHeight c.body ≤ n) →
        t.levels ≤ s.arrays.size + s.hashmaps.size + n + 1 := by
  obtain ⟨t, ht⟩ := (entered_nil s).exists_unrolls hv
  refine ⟨t, fun t' => ⟨fun h => h.unique ht, fun h => h ▸ ht⟩, fun d => ht.displayIn_eq d false,
    fun u hu => ?_, fun n hn => ?_⟩
  · obtain ⟨hr, hin⟩ := ht.cuts hu
    exact ⟨hr, hin.resolve_left (by simp)⟩
  · simpa using ht.levels_le (entered_nil s) hn

/-- A store with an array and a hashmap that contain each other and themselves. -/
def knot : Store where
  arrays := #[#[.hashmap 0, .hashmap 0, .array 0, .ofString "a"]]
  hashmaps := #[⟨[⟨.string "up", .array 0⟩, ⟨.int 1, .hashmap 0⟩]⟩]

theorem display_unrolling_knot :
    (∀ u, knot.Reaches (.array 0) u → u.tag ≠ .returnValue) ∧
    ∃ t, (∀ t', knot.Unrolls [] (.array 0) t' ↔ t' = t) ∧ t.levels ≤ 3 ∧
      t.text = "[\x7b\"up\": [...], 1: \x7b...\x7d\x7d, " ++
        "\x7b\"up\": [...], 1: \x7b...\x7d\x7d, [...], \"a\"]" := by
  have hclosed : ∀ w ∈ [Value.array 0, .hashmap 0, .ofString "a"],
      ∀ u ∈ knot.parts w, u ∈ [Value.array 0, .hashmap 0, .ofString "a"] := by decide
  have hreach (u : Value) (hu : knot.Reaches (.array 0) u) :
      u ∈ [Value.array 0, .hashmap 0, .ofString "a"] := by
    induction hu using ReflTransGen.head_induction_on with
    | refl => simp
    | head hp _ ih => exact hclosed _ ih _ (part_iff.mp hp)
  have hv (u : Value) (hu : knot.Reaches (.array 0) u) : u.tag ≠ .returnValue := by
    have htag : ∀ u ∈ [Value.array 0, .hashmap 0, .ofString "a"], u.tag ≠ .returnValue := by decide
    exact htag u (hreach u hu)
  obtain ⟨t, ht, htext, -, hlevels⟩ := display_unrolling knot (.array 0) hv
  have hle : t.levels ≤ 3 := hlevels 0 (by simp [knot])
  have hdisplay := htext 3
  rw [if_pos hle] at hdisplay
  refine ⟨hv, t, ht, hle, Option.some.inj (hdisplay.symm.trans ?_)⟩
  cbv

/-- The tree of a value inside arrays. -/
def inArrays (t : Unrolling) : Nat → Unrolling
  | 0 => .array [t]
  | n + 1 => .array [inArrays t n]

theorem levels_inArrays (n : Nat) : (inArrays .null n).levels = n + 2 := by
  induction n with
  | zero => rfl
  | succ n ih => simp [inArrays, Unrolling.levels, Unrolling.itemLevels, ih]

theorem unrolls_nested {i : Nat} (hi : i ≤ n) (hpath : ∀ j ≤ i, Value.array j ∉ path) :
    (nested .null n).Unrolls path (.array i) (inArrays .null i) := by
  induction i generalizing path with
  | zero =>
    refine .array (l := [(.null, .null)]) (hpath 0 (Nat.le_refl 0)) ?_ ?_
    · rw [elements_nested_zero]
      rfl
    · simpa using Unrolls.null
  | succ i ih =>
    refine .array (l := [(.array i, inArrays .null i)]) (hpath (i + 1) (Nat.le_refl _)) ?_ ?_
    · rw [elements_nested_succ hi]
      rfl
    · refine List.forall_mem_singleton.mpr (ih (by omega) fun j hj hm => ?_)
      obtain he | hm := List.mem_cons.mp hm
      · cases he
        omega
      · exact hpath j (by omega) hm

theorem tag_of_part_nested (hu : (nested .null n).Part u v) : u.tag ≠ .returnValue := by
  cases hu with
  | @element _ place hu =>
    by_cases hp : place < n + 1
    · cases place with
      | zero =>
        rw [elements_nested_zero, Array.mem_singleton] at hu
        simp [hu, Value.tag]
      | succ i =>
        rw [elements_nested_succ (by omega), Array.mem_singleton] at hu
        simp [hu, Value.tag]
    · simp [nested, elements, hp] at hu
  | entry he => simp [nested, Store.hashmap] at he

/-- So many arrays one inside the other have no text, for want of room. -/
theorem display_nested_null :
    (∀ u, (nested .null 1500).Reaches (.array 1500) u → u.tag ≠ .returnValue) ∧
    (∃ t, (nested .null 1500).Unrolls [] (.array 1500) t ∧
      (nested .null 1500).display 1502 (.array 1500) = some t.text) ∧
    (nested .null 1500).display defaultDepth (.array 1500) = none := by
  have ht : (nested .null 1500).Unrolls [] (.array 1500) (inArrays .null 1500) :=
    unrolls_nested (Nat.le_refl _) (by simp)
  have hlevels := levels_inArrays 1500
  refine ⟨?_, ⟨_, ht, (ht.displayIn_eq 1502 false).trans (if_pos (by omega))⟩,
    (ht.displayIn_eq defaultDepth false).trans (if_neg ?_)⟩
  · intro u hu
    obtain rfl | ⟨w, hw, -⟩ := hu.cases_head
    · decide
    · exact tag_of_part_nested hw
  · rw [hlevels]
    decide

end Store

end Scriptlet
