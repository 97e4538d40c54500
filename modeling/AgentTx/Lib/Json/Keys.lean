import AgentTx.Lib.Json.Loads

/-!
# `Lib.Json.Keys` — members are found where they were

Sorting the keys of a value, or turning them into strings, does not change what is found under a key: the
sort is stable, so the last binding stays the last, and no `int` key is spelled like the key asked for. Keys
that are strings can always be sorted (`exists_sortKeys`).
-/

namespace Json

/-- The binding that a member adds to those after it. -/
theorem lookup_cons (k : String) (m : Key × Json) (ms : List (Key × Json)) :
    lookup k (m :: ms) = (lookup k ms).or (if m.1 = .str k then some m.2 else none) := rfl

theorem Key.le_refl (k : Key) : k.le k = true := by
  cases k with
  | str s => simp [Key.le]
  | int n => simp [Key.le]

/-! ## Sorting -/

/-- A member that is sorted in stands before the members with its own key. -/
theorem lookup_orderedInsert (k : String) (m : Key × Json) (ms : List (Key × Json)) :
    lookup k (ms.orderedInsert (fun a b => a.1.le b.1) m) =
      (lookup k ms).or (if m.1 = .str k then some m.2 else none) := by
  induction ms with
  | nil => rfl
  | cons m' ms ih =>
    by_cases hle : m.1.le m'.1 = true
    · rw [List.orderedInsert_cons_of_le _ ms hle]
      rfl
    · rw [List.orderedInsert_of_not_le _ ms hle, lookup_cons, ih, lookup_cons, Option.or_assoc,
        Option.or_assoc]
      -- the two keys differ, so that at most one of them is `k`
      have hne : ¬ (m.1 = .str k ∧ m'.1 = .str k) := by
        rintro ⟨h, h'⟩
        rw [h, h', Key.le_refl] at hle
        exact hle rfl
      by_cases h : m.1 = .str k
      · have h' : m'.1 ≠ .str k := fun h' => hne ⟨h, h'⟩
        simp [h, h']
      · simp [h]

theorem lookup_insertionSort (k : String) (ms : List (Key × Json)) :
    lookup k (ms.insertionSort fun a b => a.1.le b.1) = lookup k ms := by
  induction ms with
  | nil => rfl
  | cons m ms ih =>
    rw [List.insertionSort_cons, lookup_orderedInsert, ih]
    rfl

/-- What is found is sorted too. -/
theorem lookup_sortValues {k : String} {ms ms' : List (Key × Json)} (h : sortValues ms = some ms') :
    (lookup k ms).map sortKeys = (lookup k ms').map some := by
  induction ms generalizing ms' with
  | nil =>
    cases h
    rfl
  | cons m ms ih =>
    obtain ⟨m₁, hm, hrest⟩ := Option.bind_eq_some_iff.mp h
    obtain ⟨ms₁, hms, rfl⟩ := Option.map_eq_some_iff.mp hrest
    obtain ⟨key, v⟩ := m
    obtain ⟨v₁, hv, rfl⟩ := Option.map_eq_some_iff.mp hm
    rw [lookup_cons, lookup_cons, Option.map_or, Option.map_or, ih hms]
    congr 1
    by_cases hkey : key = .str k
    · simp [hkey, hv]
    · simp [hkey]

theorem lookup_sortMembers {k : String} {ms ms' : List (Key × Json)} (h : sortMembers ms = some ms') :
    lookup k ms' = lookup k ms := by
  unfold sortMembers at h
  split at h
  · cases h
    exact lookup_insertionSort k ms
  · cases h

/-- **What is found under a key of the sorted value** is what was found there, sorted. -/
theorem get?_sortKeys {v v' : Json} (k : String) (h : sortKeys v = some v') :
    (v.get? k).map sortKeys = (v'.get? k).map some := by
  cases v with
  | obj ms =>
    obtain ⟨ms₁, hms₁, hrest⟩ := Option.bind_eq_some_iff.mp h
    obtain ⟨ms₂, hms₂, rfl⟩ := Option.map_eq_some_iff.mp hrest
    show (lookup k ms).map sortKeys = (lookup k ms₂).map some
    rw [lookup_sortMembers hms₂, lookup_sortValues hms₁]
  | arr items =>
    obtain ⟨items', -, rfl⟩ := Option.map_eq_some_iff.mp h
    rfl
  | null | bool b | int n | str s =>
    cases h
    rfl

/-! ## Spelling -/

/-- Whether some `int` key is spelled `k`. -/
def Numeric (k : String) : Prop := ∃ n : Int, toString n = k

theorem lookup_stringKeys {k : String} (hk : ¬ Numeric k) (ms : List (Key × Json)) :
    lookup k (stringKeysMembers ms) = (lookup k ms).map stringKeys := by
  induction ms with
  | nil => rfl
  | cons m ms ih =>
    obtain ⟨key, v⟩ := m
    rw [stringKeysMembers, stringKeysMember, lookup_cons, lookup_cons, ih, Option.map_or]
    congr 1
    cases key with
    | str s =>
      by_cases hs : s = k
      · simp [Key.text, hs]
      · simp [Key.text, hs]
    | int n =>
      have hn : Key.str (Key.text (.int n)) ≠ .str k := fun hn => hk ⟨n, Key.str.inj hn⟩
      have hstr : Key.int n ≠ .str k := by simp
      rw [if_neg hn, if_neg hstr]
      rfl

/-- **What is found under a key that no number is spelled like.** -/
theorem get?_stringKeys {k : String} (hk : ¬ Numeric k) (v : Json) :
    v.stringKeys.get? k = (v.get? k).map stringKeys := by
  cases v with
  | obj ms => exact lookup_stringKeys hk ms
  | arr items => rfl
  | null | bool b | int n | str s => rfl

/-- All keys are strings, at every depth: to spell them out changes nothing. -/
def StringKeyed (v : Json) : Prop := v.stringKeys = v

/-- So are those of what is found under a key. -/
theorem StringKeyed.get? {k : String} (hk : ¬ Numeric k) {v x : Json} (hv : v.StringKeyed)
    (hx : v.get? k = some x) : x.StringKeyed := by
  have hget := get?_stringKeys hk v
  rw [hv, hx] at hget
  simpa [StringKeyed] using hget.symm

/-! ## Strings compare -/

mutual

/-- **Keys that are spelled out can be sorted**, at every depth. -/
theorem exists_sortKeys : ∀ v : Json, ∃ v', sortKeys v.stringKeys = some v'
  | .null => ⟨.null, rfl⟩
  | .bool b => ⟨.bool b, rfl⟩
  | .int n => ⟨.int n, rfl⟩
  | .str s => ⟨.str s, rfl⟩
  | .arr items => by
      obtain ⟨items', hitems⟩ := exists_sortItems items
      refine ⟨.arr items', ?_⟩
      unfold stringKeys sortKeys
      rw [hitems]
      rfl
  | .obj ms => by
      obtain ⟨ms', hvalues, hkeys⟩ := exists_sortValues ms
      refine ⟨.obj (ms'.insertionSort fun a b => a.1.le b.1), ?_⟩
      unfold stringKeys sortKeys
      rw [hvalues, Option.bind_some, sortMembers, if_pos (Or.inl hkeys)]
      rfl

theorem exists_sortItems : ∀ vs : List Json, ∃ vs', sortItems (stringKeysItems vs) = some vs'
  | [] => ⟨[], rfl⟩
  | v :: vs => by
      obtain ⟨v', hv⟩ := exists_sortKeys v
      obtain ⟨vs', hvs⟩ := exists_sortItems vs
      refine ⟨v' :: vs', ?_⟩
      unfold stringKeysItems sortItems
      rw [hv, Option.bind_some, hvs]
      rfl

/-- The values of the members; their keys stay strings. -/
theorem exists_sortValues : ∀ ms : List (Key × Json), ∃ ms', sortValues (stringKeysMembers ms) = some ms' ∧
    ms'.all (fun m => m.1.isStr) = true
  | [] => ⟨[], rfl, rfl⟩
  | (k, v) :: ms => by
      obtain ⟨v', hv⟩ := exists_sortKeys v
      obtain ⟨ms', hms, hkeys⟩ := exists_sortValues ms
      refine ⟨(.str k.text, v') :: ms', ?_, ?_⟩
      · unfold stringKeysMembers stringKeysMember sortValues sortValue
        rw [hv, Option.map_some, Option.bind_some, hms]
        rfl
      · rw [List.all_cons, hkeys]
        rfl

end

theorem StringKeyed.exists_dumpsSorted {v : Json} (h : v.StringKeyed) : ∃ text, v.dumpsSorted = some text := by
  obtain ⟨v', hv'⟩ := exists_sortKeys v
  rw [h] at hv'
  refine ⟨v'.dumps, ?_⟩
  rw [dumpsSorted, hv']
  rfl

/-- A key whose first character starts no number. -/
theorem not_numeric {k : String} {c : Char} {cs : List Char} (hk : k.toList = c :: cs)
    (hc : c.isDigit = false ∧ c ≠ '-') : ¬ Numeric k := by
  rintro ⟨n, rfl⟩
  have hread := readInt_toString n (r := []) (by intro c hc; cases hc)
  rw [List.append_nil, hk, readInt_cons_eq_none hc] at hread
  cases hread

end Json
