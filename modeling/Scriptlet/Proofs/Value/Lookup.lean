import Mathlib.Data.List.Induction
import Scriptlet.Proofs.Eval.Exceptions
import Scriptlet.Proofs.Eval.Range
import Scriptlet.Proofs.Value.WellFormed

/-!
Hashmaps as finite maps. What puts in a row leave behind is told by the puts alone: a key has the
value that it was last put with, and the entries stand in the order in which their keys first came.
Integers and booleans are told apart by what they are, texts by their hashes only.
-/

namespace Scriptlet

variable {α : Type} [DecidableEq α] {f : Key → α} {puts : List Entry} {j k : Key}

/-- What is left of a key in range when hashmaps tell it from others. -/
inductive KeyIdentity where
  | int (n : Int)
  | bool (b : Bool)
  | text (hash : UInt64)
  deriving DecidableEq, Repr

/-- A text keeps its hash alone. -/
def Key.identity : Key → KeyIdentity
  | int n => .int n
  | bool b => .bool b
  | string s => .text (Text.hash s)

/-- No two texts of some keys have one hash. -/
def Key.TextsApart (ks : List Key) : Prop :=
  ∀ s t, .string s ∈ ks → .string t ∈ ks → Text.hash s = Text.hash t → s = t

/-- Integers in range are congruent modulo 2^64 only if they are equal. -/
theorem Key.hashKey_eq_iff (hj : j.InRange) (hk : k.InRange) :
    j.hashKey = k.hashKey ↔ j.identity = k.identity := by
  cases j <;> cases k
  case int.int m n =>
    simp only [Key.InRange, Number.InWord, Number.minWord, Number.maxWord] at hj hk
    simp only [hashKey, identity, HashKey.mk.injEq, true_and, KeyIdentity.int.injEq,
      ← UInt64.toNat_inj, UInt64.toNat_ofNat']
    omega
  case bool.bool a b => cases a <;> cases b <;> decide
  all_goals simp [hashKey, identity]

theorem Key.identity_eq_iff {ks : List Key} (h : TextsApart ks) (hj : j ∈ ks) (hk : k ∈ ks) :
    j.identity = k.identity ↔ j = k := by
  cases j <;> cases k
  case string.string s t =>
    simp only [identity, KeyIdentity.text.injEq, Key.string.injEq]
    exact ⟨h s t hj hk, congrArg _⟩
  all_goals simp [identity]

theorem eraseDups_concat (l : List α) (a : α) :
    (l ++ [a]).eraseDups = if a ∈ l then l.eraseDups else l.eraseDups ++ [a] := by
  rw [List.eraseDups_append]
  by_cases h : a ∈ l <;> simp [List.removeAll, List.eraseDups_cons, h]

namespace Hashmap

/-- The hashmap after puts in a row. -/
def putAll (m : Hashmap) (puts : List Entry) : Hashmap :=
  puts.foldl (fun m e => m.put e.key e.value) m

/-- The hashmap that puts in a row make of the empty one. -/
def ofPuts (puts : List Entry) : Hashmap := putAll {} puts

/-- The last of the puts of a key, where `f` tells keys apart. -/
def lastPut (f : Key → α) (puts : List Entry) (k : Key) : Option Entry :=
  (puts.filter (f ·.key = f k)).getLast?

/-- What tells keys apart does it for a key and those of some puts as hashmaps do. -/
def Tells (f : Key → α) (puts : List Entry) (k : Key) : Prop :=
  ∀ e ∈ puts, f e.key = f k ↔ e.key.hashKey = k.hashKey

@[simp] theorem ofPuts_nil : ofPuts [] = {} := rfl

theorem ofPuts_concat (puts : List Entry) (e : Entry) :
    ofPuts (puts ++ [e]) = (ofPuts puts).put e.key e.value := by
  simp [ofPuts, putAll]

theorem lastPut_concat (puts : List Entry) (e : Entry) :
    lastPut f (puts ++ [e]) k = if f e.key = f k then some e else lastPut f puts k := by
  by_cases h : f e.key = f k <;> simp [lastPut, List.filter_append, h]

theorem keyed_ofPuts (puts : List Entry) : (ofPuts puts).Keyed := by
  induction puts using List.reverseRecOn with
  | nil => exact keyed_empty
  | append_singleton puts e ih => exact ofPuts_concat puts e ▸ ih.put e.key e.value

theorem mem_ofPuts {e : Entry} (h : e ∈ (ofPuts puts).entries) : e ∈ puts := by
  induction puts using List.reverseRecOn with
  | nil => cases h
  | append_singleton puts d ih =>
    rw [ofPuts_concat] at h
    rcases mem_putIn h with rfl | h
    · exact List.mem_concat_self
    · exact List.mem_append_left _ (ih h)

theorem find?_putIn (e : Entry) (l : List Entry) (h : HashKey) :
    (putIn e l).find? (·.key.hashKey = h) =
      if e.key.hashKey = h then some e else l.find? (·.key.hashKey = h) := by
  induction l with
  | nil => by_cases he : e.key.hashKey = h <;> simp [putIn, he]
  | cons d l ih =>
    unfold putIn
    by_cases hd : d.key.hashKey = e.key.hashKey
    · by_cases he : e.key.hashKey = h <;> simp [hd, he]
    · rw [if_neg hd, List.find?_cons, List.find?_cons, ih]
      by_cases he : e.key.hashKey = h
      · simp [he, he ▸ hd]
      · simp [he]

/-- What is found under a key is its last put. -/
theorem find?_ofPuts (hf : Tells f puts k) :
    (ofPuts puts).entries.find? (·.key.hashKey = k.hashKey) = lastPut f puts k := by
  induction puts using List.reverseRecOn with
  | nil => rfl
  | append_singleton puts e ih =>
    have he : f e.key = f k ↔ e.key.hashKey = k.hashKey := hf e List.mem_concat_self
    rw [lastPut_concat, ofPuts_concat, put, find?_putIn,
      ih fun d hd => hf d (List.mem_append_left _ hd), if_congr he rfl rfl]

theorem get?_ofPuts (hf : Tells f puts k) :
    (ofPuts puts).get? k = (lastPut f puts k).map (·.value) := by
  rw [get?, find?_ofPuts hf]

/-- An entry is the last put of its own key. -/
theorem lastPut_of_mem {e : Entry} (hf : ∀ e ∈ puts, Tells f puts e.key)
    (he : e ∈ (ofPuts puts).entries) : lastPut f puts e.key = some e := by
  rw [← find?_ofPuts (hf e (mem_ofPuts he)), (keyed_ofPuts puts).find he]

/-- The keys stand as they first came. -/
theorem map_key_ofPuts (hf : ∀ e ∈ puts, Tells f puts e.key) :
    (ofPuts puts).entries.map (f ·.key) = (puts.map (f ·.key)).eraseDups := by
  induction puts using List.reverseRecOn with
  | nil => rfl
  | append_singleton puts e ih =>
    have hputs : ∀ d ∈ puts, d ∈ puts ++ [e] := fun d hd => List.mem_append_left _ hd
    have hmap := ih fun d hd c hc => hf d (hputs d hd) c (hputs c hc)
    have hlast : Tells f (ofPuts puts).entries e.key := fun d hd =>
      hf e List.mem_concat_self d (hputs d (mem_ofPuts hd))
    have hmem : f e.key ∈ (puts.map (f ·.key)).eraseDups ↔ f e.key ∈ puts.map (f ·.key) :=
      List.mem_eraseDups
    rw [ofPuts_concat, put, map_putIn ⟨e.key, e.value⟩ hlast, hmap, List.map_append,
      List.map_singleton, eraseDups_concat, if_congr hmem rfl rfl]

theorem putIn_of_new {e : Entry} {l : List Entry} (h : e.key.hashKey ∉ l.map (·.key.hashKey)) :
    putIn e l = l ++ [e] := by
  induction l with
  | nil => rfl
  | cons d l ih =>
    simp only [List.map_cons, List.mem_cons, not_or] at h
    rw [putIn, if_neg (Ne.symm h.1), ih h.2, List.cons_append]

/-- Puts of keys that are all told apart are the entries. -/
theorem entries_ofPuts_of_nodup (h : (puts.map (·.key.hashKey)).Nodup) :
    (ofPuts puts).entries = puts := by
  induction puts using List.reverseRecOn with
  | nil => rfl
  | append_singleton puts e ih =>
    rw [List.map_append, List.nodup_append] at h
    have hnew : e.key.hashKey ∉ puts.map (·.key.hashKey) := fun hm =>
      h.2.2 _ hm _ (List.mem_singleton.mpr rfl) rfl
    rw [ofPuts_concat, put, ih h.1, putIn_of_new hnew]

/-- Keys in range are told apart by what they are, texts by their hashes. -/
theorem tells_identity (hp : ∀ e ∈ puts, e.key.InRange) (hk : k.InRange) :
    Tells Key.identity puts k :=
  fun e he => (Key.hashKey_eq_iff (hp e he) hk).symm

/-- Keys in range are told apart altogether, where no two texts have one hash. -/
theorem tells_id {ks : List Key} (hp : ∀ e ∈ puts, e.key.InRange) (hk : k.InRange)
    (ha : Key.TextsApart ks) (hputs : ∀ e ∈ puts, e.key ∈ ks) (hmem : k ∈ ks) : Tells id puts k :=
  fun e he => (Key.identity_eq_iff ha (hputs e he) hmem).symm.trans (tells_identity hp hk e he)

end Hashmap

/-! ### Puts of a literal -/

/-- The puts of a hashmap literal from a store on, and the store after them: each key comes before its
value, and neither is a signal. -/
inductive Evaluator.Puts (ev : Evaluator) (scope : Nat) :
    List (Expr × Expr) → Store → List Entry → Store → Prop
  | nil {s : Store} : Puts ev scope [] s [] s
  | cons {keyExpr valueExpr : Expr} {ps : List (Expr × Expr)} {s t u w : Store} {kv v : Value}
      {k : Key} {puts : List Entry} (key : ev.value scope keyExpr s = .ok kv t)
      (hashable : kv.key? = some k) (value : ev.value scope valueExpr t = .ok v u)
      (noSignal : v.isSignal = false) (rest : Puts ev scope ps u puts w) :
      Puts ev scope ((keyExpr, valueExpr) :: ps) s (⟨k, v⟩ :: puts) w

/-- A literal makes the hashmap of its puts. -/
theorem Evaluator.exists_puts {ev : Evaluator} {scope : Nat} {ps : List (Expr × Expr)}
    {m n : Hashmap} {s t : Store} (h : ev.entries scope ps m s = .ok (.ok n) t) :
    ∃ puts, ev.Puts scope ps s puts t ∧ n = m.putAll puts := by
  induction ps generalizing m s with
  | nil =>
    cases h
    exact ⟨[], .nil, rfl⟩
  | cons pair ps ih =>
    obtain ⟨keyExpr, valueExpr⟩ := pair
    obtain ⟨kv, u, hkv, h⟩ := Raising.exists_of_bind_ok h
    by_cases hsig : kv.isSignal = true
    · rw [if_pos hsig] at h
      cases h
    rw [if_neg hsig] at h
    cases hk : kv.key? with
    | none =>
      simp only [hk] at h
      cases h
    | some k =>
      simp only [hk] at h
      obtain ⟨v, w, hv, h⟩ := Raising.exists_of_bind_ok h
      by_cases hsig' : v.isSignal = true
      · rw [if_pos hsig'] at h
        cases h
      · rw [if_neg hsig'] at h
        obtain ⟨puts, hputs, rfl⟩ := ih h
        exact ⟨⟨k, v⟩ :: puts, .cons hkv hk hv (by simpa using hsig') hputs, rfl⟩

end Scriptlet
