import AgentTx.Lib.Json.Basic

/-!
# `Lib.Json.Loads` — reading JSON text back (`json.loads`), and the round trip

`loads` is a recursive-descent reader over characters; its fuel is bounded by the text's length. It
refuses what Python refuses, and the texts of the values `Json` leaves out (floats, lone surrogates). The
result of the file is

  `loads (dumps v) = some v.stringKeys`                                     (`loads_dumps`)

so a text determines the value up to the spelling of its keys (`stringKeys_eq_of_dumps_eq`).
-/

namespace Json

/-! ## The reader -/

/-- Skip whitespace. -/
def skipWs : List Char → List Char :=
  List.dropWhile fun c => c = ' ' ∨ c = '\n' ∨ c = '\r' ∨ c = '\t'

/-- The value of a hex digit, of either case. -/
def hexVal (c : Char) : Option Nat :=
  if '0' ≤ c ∧ c ≤ '9' then some (c.toNat - '0'.toNat)
  else if 'a' ≤ c ∧ c ≤ 'f' then some (c.toNat - 'a'.toNat + 10)
  else if 'A' ≤ c ∧ c ≤ 'F' then some (c.toNat - 'A'.toNat + 10)
  else none

/-- Four hex digits. -/
def readHex4 : List Char → Option (Nat × List Char)
  | a :: b :: c :: d :: r => do
      let a ← hexVal a
      let b ← hexVal b
      let c ← hexVal c
      let d ← hexVal d
      some (a * 4096 + b * 256 + c * 16 + d, r)
  | _ => none

/-- The second half of a surrogate pair, after the high surrogate `u`. -/
def readLow (u : Nat) : List Char → Option (Char × List Char)
  | '\\' :: 'u' :: r => do
      let (l, r) ← readHex4 r
      if 0xdc00 ≤ l ∧ l ≤ 0xdfff then
        some (Char.ofNat (0x10000 + (u - 0xd800) * 0x400 + (l - 0xdc00)), r)
      else none
  | _ => none

/-- What follows `\u`: one code unit, or the two of a surrogate pair. -/
def readUnicode (cs : List Char) : Option (Char × List Char) := do
  let (u, r) ← readHex4 cs
  if 0xd800 ≤ u ∧ u ≤ 0xdbff then readLow u r
  else if 0xdc00 ≤ u ∧ u ≤ 0xdfff then none
  else some (Char.ofNat u, r)

/-- The character after a backslash. -/
def unescapeChar (c : Char) : Option Char :=
  if c = '"' ∨ c = '\\' ∨ c = '/' then some c
  else if c = 'n' then some '\n'
  else if c = 'r' then some '\r'
  else if c = 't' then some '\t'
  else if c = 'f' then some '\x0c'
  else if c = 'b' then some '\x08'
  else none

/-- One character of a string literal; `none` at its end. -/
def readChar : List Char → Option (Char × List Char)
  | [] => none
  | c :: r =>
      if c = '\\' then
        match r with
        | 'u' :: r => readUnicode r
        | c :: r => (unescapeChar c).map (·, r)
        | [] => none
      else if c = '"' ∨ c.toNat < 0x20 then none
      else some (c, r)

/-- The rest of a string literal. -/
def readChars : Nat → List Char → Option (List Char × List Char)
  | 0, _ => none
  | n + 1, cs =>
      match readChar cs with
      | some (c, r) => (readChars n r).map fun (s, r) => (c :: s, r)
      | none =>
          match cs with
          | '"' :: r => some ([], r)
          | _ => none

/-- A string literal after its opening quote. -/
def readString (cs : List Char) : Option (String × List Char) :=
  (readChars cs.length cs).map fun (s, r) => (String.ofList s, r)

/-- A run of digits that is the decimal of its value: not empty, no leading zero. -/
def readNat (cs : List Char) : Option (Nat × List Char) :=
  let ds := cs.takeWhile Char.isDigit
  let n := Nat.ofDigitChars 10 ds 0
  if ds = Nat.toDigits 10 n then some (n, cs.dropWhile Char.isDigit) else none

def readInt : List Char → Option (Int × List Char)
  | [] => none
  | c :: cs =>
      if c = '-' then (readNat cs).map fun (n, r) => (-(n : Int), r)
      else (readNat (c :: cs)).map fun (n, r) => ((n : Int), r)

mutual

/-- A value. -/
def readValue : Nat → List Char → Option (Json × List Char)
  | 0, _ => none
  | n + 1, cs =>
      -- a number first: it is the only value without a first character of its own
      match readInt cs with
      | some (k, r) => some (.int k, r)
      | none =>
        match cs with
        | '"' :: r => (readString r).map fun (s, r) => (.str s, r)
        | '[' :: r =>
            match skipWs r with
            | ']' :: r => some (.arr [], r)
            | r => (readItems n r).map fun (vs, r) => (.arr vs, r)
        | '{' :: r =>
            match skipWs r with
            | '}' :: r => some (.obj [], r)
            | '"' :: r => (readMembers n r).map fun (ms, r) => (.obj ms, r)
            | _ => none
        | 'n' :: 'u' :: 'l' :: 'l' :: r => some (.null, r)
        | 't' :: 'r' :: 'u' :: 'e' :: r => some (.bool true, r)
        | 'f' :: 'a' :: 'l' :: 's' :: 'e' :: r => some (.bool false, r)
        | _ => none

/-- The items of an array up to its closing bracket; there is at least one. -/
def readItems : Nat → List Char → Option (List Json × List Char)
  | 0, _ => none
  | n + 1, cs => do
      let (v, r) ← readValue n cs
      match skipWs r with
      | ']' :: r => some ([v], r)
      | ',' :: r => (readItems n (skipWs r)).map fun (vs, r) => (v :: vs, r)
      | _ => none

/-- The members of an object, from after the quote of the first key. -/
def readMembers : Nat → List Char → Option (List (Key × Json) × List Char)
  | 0, _ => none
  | n + 1, cs => do
      let (k, r) ← readString cs
      match skipWs r with
      | ':' :: r =>
          let (v, r) ← readValue n (skipWs r)
          match skipWs r with
          | '}' :: r => some ([(.str k, v)], r)
          | ',' :: r =>
              match skipWs r with
              | '"' :: r => (readMembers n r).map fun (ms, r) => ((.str k, v) :: ms, r)
              | _ => none
          | _ => none
      | _ => none

end

/-- `json.loads(text)`; `none` is a `JSONDecodeError`. -/
def loads (text : String) : Option Json :=
  match readValue (2 * text.toList.length) (skipWs text.toList) with
  | some (v, r) => if skipWs r = [] then some v else none
  | none => none

/-! ## String literals -/

theorem hexVal_digitChar : ∀ d < 16, hexVal (Nat.digitChar d) = some d := by decide

theorem readHex4_hex4 {n : Nat} (h : n < 0x10000) (r : List Char) :
    readHex4 (hex4 n ++ r) = some (n, r) := by
  have hd : ∀ k, hexVal (Nat.digitChar (k % 16)) = some (k % 16) :=
    fun k => hexVal_digitChar _ (Nat.mod_lt _ (by decide))
  simp only [hex4, List.map_cons, List.map_nil, List.cons_append, List.nil_append, readHex4, hd,
    Option.bind_eq_bind, Option.bind_some, Option.some.injEq, Prod.mk.injEq, and_true]
  omega

/-- A code unit that stands for a character on its own. -/
theorem readUnicode_hex4 {c : Char} (h : c.toNat < 0x10000) (r : List Char) :
    readUnicode (hex4 c.toNat ++ r) = some (c, r) := by
  -- no character lies in the surrogate range
  have hv : c.toNat < 0xd800 ∨ 0xdfff < c.toNat := by
    rcases c.valid with hlt | ⟨hgt, -⟩
    · exact Or.inl hlt
    · exact Or.inr hgt
  simp only [readUnicode, readHex4_hex4 h, Option.bind_eq_bind, Option.bind_some]
  rw [if_neg (by omega), if_neg (by omega), Char.ofNat_toNat]

/-- Two code units that form a surrogate pair. -/
theorem readUnicode_pair {u l : Nat} (hu : 0xd800 ≤ u ∧ u ≤ 0xdbff) (hl : 0xdc00 ≤ l ∧ l ≤ 0xdfff)
    (r : List Char) :
    readUnicode (hex4 u ++ (unicodeEscape l ++ r)) =
      some (Char.ofNat (0x10000 + (u - 0xd800) * 0x400 + (l - 0xdc00)), r) := by
  have hread : readHex4 (hex4 u ++ (unicodeEscape l ++ r)) = some (u, unicodeEscape l ++ r) :=
    readHex4_hex4 (by omega) _
  simp only [readUnicode, hread, Option.bind_eq_bind, Option.bind_some, if_pos hu]
  simp only [unicodeEscape, List.cons_append, readLow, readHex4_hex4 (show l < 0x10000 by omega),
    Option.bind_eq_bind, Option.bind_some, if_pos hl]

/-- The pair written for a character outside the basic plane names that character. -/
theorem readUnicode_escape_pair {c : Char} (h : ¬ c.toNat < 0x10000) (r : List Char) :
    readUnicode (hex4 (0xd800 + (c.toNat - 0x10000) / 0x400) ++
      (unicodeEscape (0xdc00 + (c.toNat - 0x10000) % 0x400) ++ r)) = some (c, r) := by
  have hv : c.toNat < 0x110000 := by
    rcases c.valid with hlt | ⟨-, hlt⟩
    · exact Nat.lt_trans hlt (by decide)
    · exact hlt
  rw [readUnicode_pair (by omega) (by omega)]
  have hn : 0x10000 + (0xd800 + (c.toNat - 0x10000) / 0x400 - 0xd800) * 0x400 +
      (0xdc00 + (c.toNat - 0x10000) % 0x400 - 0xdc00) = c.toNat := by omega
  rw [hn, Char.ofNat_toNat]

/-- **A character is read back**, whatever follows it. -/
theorem readChar_escapeChar (c : Char) (r : List Char) :
    readChar (escapeChar c ++ r) = some (c, r) := by
  unfold escapeChar
  split_ifs with h₁ h₂ h₃ h₄ h₅ h₆ h₇ h₈ h₉
  · subst h₁; rfl
  · subst h₂; rfl
  · subst h₃; rfl
  · subst h₄; rfl
  · subst h₅; rfl
  · subst h₆; rfl
  · subst h₇; rfl
  · have hlt : ¬ c.toNat < 0x20 := by omega
    simp [readChar, h₁, h₂, hlt]
  · show readUnicode (hex4 c.toNat ++ r) = _
    exact readUnicode_hex4 h₉ r
  · rw [List.append_assoc]
    exact readUnicode_escape_pair h₉ r

theorem escapeChar_ne_nil (c : Char) : escapeChar c ≠ [] := by
  intro h
  have := readChar_escapeChar c []
  rw [h] at this
  cases this

theorem length_le_length_flatMap_escapeChar (s : List Char) :
    s.length ≤ (s.flatMap escapeChar).length := by
  induction s with
  | nil => exact Nat.le_refl _
  | cons c s ih =>
    have hpos := List.length_pos_of_ne_nil (escapeChar_ne_nil c)
    rw [List.flatMap_cons, List.length_append, List.length_cons]
    omega

theorem readChars_quoted (s r : List Char) : ∀ n, s.length < n →
    readChars n (quoted s ++ r) = some (s, r) := by
  induction s with
  | nil =>
    intro n hn
    obtain ⟨n, rfl⟩ : ∃ m, n = m + 1 := ⟨n - 1, by simp at hn; omega⟩
    rfl
  | cons c s ih =>
    intro n hn
    obtain ⟨n, rfl⟩ : ∃ m, n = m + 1 := ⟨n - 1, by simp at hn; omega⟩
    have hq : quoted (c :: s) ++ r = escapeChar c ++ (quoted s ++ r) := by
      simp [quoted, List.append_assoc]
    have hrest := ih n (by simp at hn; omega)
    simp only [hq, readChars, readChar_escapeChar, hrest, Option.map_some]

theorem readString_quoted (s : String) (r : List Char) :
    readString (quoted s.toList ++ r) = some (s, r) := by
  have hlen : s.toList.length < (quoted s.toList ++ r).length := by
    have := length_le_length_flatMap_escapeChar s.toList
    simp only [quoted, List.length_append, List.length_cons, List.length_nil]
    omega
  rw [readString, readChars_quoted _ _ _ hlen]
  show some (String.ofList s.toList, r) = some (s, r)
  rw [String.ofList_toList]

/-! ## Numbers -/

/-- What may follow a number: not another digit. -/
def Stop (r : List Char) : Prop := ∀ c ∈ r.head?, c.isDigit = false

theorem stop_cons {c : Char} {r : List Char} (h : c.isDigit = false) : Stop (c :: r) := by
  intro d hd
  cases hd
  exact h

theorem readNat_toDigits (n : Nat) {r : List Char} (hr : Stop r) :
    readNat (Nat.toDigits 10 n ++ r) = some (n, r) := by
  have hdigits : ∀ c ∈ Nat.toDigits 10 n, Char.isDigit c = true := fun c hc =>
    Nat.isDigit_of_mem_toDigits (by decide) (by decide) hc
  have hstop : r.takeWhile Char.isDigit = [] ∧ r.dropWhile Char.isDigit = r := by
    cases r with
    | nil => exact ⟨rfl, rfl⟩
    | cons c r =>
      have hc : c.isDigit = false := hr c rfl
      simp [List.takeWhile, List.dropWhile, hc]
  have htake : (Nat.toDigits 10 n ++ r).takeWhile Char.isDigit = Nat.toDigits 10 n := by
    rw [List.takeWhile_append_of_pos hdigits, hstop.1, List.append_nil]
  have hdrop : (Nat.toDigits 10 n ++ r).dropWhile Char.isDigit = r := by
    rw [List.dropWhile_append_of_pos hdigits, hstop.2]
  simp only [readNat, htake, hdrop, Nat.ofDigitChars_ten_toDigits, if_true]

/-- A text that starts with neither a digit nor a minus sign is no number. -/
theorem readInt_cons_eq_none {c : Char} (hc : c.isDigit = false ∧ c ≠ '-') (r : List Char) :
    readInt (c :: r) = none := by
  have htake : (c :: r).takeWhile Char.isDigit = [] := List.takeWhile_cons_of_neg (by simp [hc.1])
  have hnat : readNat (c :: r) = none := by
    simp only [readNat, htake]
    rfl
  rw [readInt, if_neg hc.2, hnat]
  rfl

theorem toDigits_ne_minus (n : Nat) : ∃ c cs, Nat.toDigits 10 n = c :: cs ∧ c ≠ '-' := by
  cases h : Nat.toDigits 10 n with
  | nil => exact absurd h Nat.toDigits_ne_nil
  | cons c cs =>
    refine ⟨c, cs, rfl, ?_⟩
    rintro rfl
    have : Char.isDigit '-' = true :=
      Nat.isDigit_of_mem_toDigits (b := 10) (n := n) (by decide) (by decide) (by rw [h]; simp)
    revert this
    decide

theorem readInt_toString (n : Int) {r : List Char} (hr : Stop r) :
    readInt ((toString n).toList ++ r) = some (n, r) := by
  cases n with
  | ofNat m =>
    show readInt (m.repr.toList ++ r) = _
    obtain ⟨c, cs, hcs, hc⟩ := toDigits_ne_minus m
    have hread := readNat_toDigits m hr
    rw [Nat.toList_repr, hcs, List.cons_append, readInt, if_neg hc, ← List.cons_append, ← hcs, hread]
    rfl
  | negSucc m =>
    have htext : (toString (Int.negSucc m)).toList = '-' :: (m + 1).repr.toList := by
      show ("-" ++ (m + 1).repr).toList = _
      rw [String.toList_append]
      rfl
    rw [htext, Nat.toList_repr, List.cons_append, readInt, if_pos rfl, readNat_toDigits (m + 1) hr]
    rfl

/-! ## Values -/

/-- How the text of a value starts: not with whitespace, nor with a closing bracket. -/
def StartsValue (cs : List Char) : Prop :=
  ∃ c r, cs = c :: r ∧ c ≠ ']' ∧ ¬ (c = ' ' ∨ c = '\n' ∨ c = '\r' ∨ c = '\t')

theorem StartsValue.append {cs : List Char} (h : StartsValue cs) (r : List Char) :
    StartsValue (cs ++ r) := by
  obtain ⟨c, t, rfl, hc⟩ := h
  exact ⟨c, t ++ r, rfl, hc⟩

theorem StartsValue.skipWs {cs : List Char} (h : StartsValue cs) : Json.skipWs cs = cs := by
  obtain ⟨c, t, rfl, -, hc⟩ := h
  exact List.dropWhile_cons_of_neg (by simpa using hc)

theorem startsValue_render (v : Json) : StartsValue (render v) := by
  cases v with
  | null => exact ⟨_, _, rfl, by decide, by decide⟩
  | bool b => cases b <;> exact ⟨_, _, rfl, by decide, by decide⟩
  | str s => exact ⟨_, _, rfl, by decide, by decide⟩
  | arr vs => exact ⟨_, _, rfl, by decide, by decide⟩
  | obj ms => exact ⟨_, _, rfl, by decide, by decide⟩
  | int n =>
    -- otherwise the reader of integers would refuse its own text
    have hread := readInt_toString n (r := []) (by intro c hc; cases hc)
    rw [List.append_nil] at hread
    show StartsValue (toString n).toList
    cases htext : (toString n).toList with
    | nil => rw [htext] at hread; cases hread
    | cons c r =>
      rw [htext] at hread
      have hc : ¬ (c.isDigit = false ∧ c ≠ '-') := fun hc => by
        rw [readInt_cons_eq_none hc] at hread
        cases hread
      refine ⟨c, r, rfl, ?_, ?_⟩
      · rintro rfl
        exact hc (by decide)
      · rintro (rfl | rfl | rfl | rfl) <;> exact hc (by decide)

/-! What each bracket and separator makes the reader do. -/

theorem readValue_bracket {n : Nat} {cs : List Char} (h : StartsValue cs) :
    readValue (n + 1) ('[' :: cs) = (readItems n cs).map fun (vs, r) => (.arr vs, r) := by
  rw [readValue, readInt_cons_eq_none (by decide)]
  simp only [h.skipWs]
  obtain ⟨c, t, rfl, hc, -⟩ := h
  split
  · rename_i heq
    cases heq
    exact absurd rfl hc
  · rfl

theorem readValue_brace (n : Nat) (cs : List Char) :
    readValue (n + 1) ('{' :: '"' :: cs) = (readMembers n cs).map fun (ms, r) => (.obj ms, r) := by
  rw [readValue, readInt_cons_eq_none (by decide)]
  rfl

theorem readItems_close {n : Nat} {cs r : List Char} {v : Json}
    (h : readValue n cs = some (v, ']' :: r)) : readItems (n + 1) cs = some ([v], r) := by
  rw [readItems, h]
  rfl

theorem readItems_comma {n : Nat} {cs r : List Char} {v : Json} (hr : StartsValue r)
    (h : readValue n cs = some (v, ',' :: ' ' :: r)) :
    readItems (n + 1) cs = (readItems n r).map fun (vs, r) => (v :: vs, r) := by
  rw [readItems, h]
  show (readItems n (skipWs r)).map _ = _
  rw [hr.skipWs]

theorem readMembers_close {n : Nat} {cs cs' r : List Char} {k : String} {v : Json}
    (hk : readString cs = some (k, ':' :: ' ' :: cs')) (hs : StartsValue cs')
    (hv : readValue n cs' = some (v, '}' :: r)) :
    readMembers (n + 1) cs = some ([(.str k, v)], r) := by
  rw [readMembers, hk]
  show (readValue n (skipWs cs')).bind _ = _
  rw [hs.skipWs, hv]
  rfl

theorem readMembers_comma {n : Nat} {cs cs' r : List Char} {k : String} {v : Json}
    (hk : readString cs = some (k, ':' :: ' ' :: cs')) (hs : StartsValue cs')
    (hv : readValue n cs' = some (v, ',' :: ' ' :: '"' :: r)) :
    readMembers (n + 1) cs = (readMembers n r).map fun (ms, r) => ((.str k, v) :: ms, r) := by
  rw [readMembers, hk]
  show (readValue n (skipWs cs')).bind _ = _
  rw [hs.skipWs, hv]
  rfl

/-- The members of an object after the quote that opens the first key. -/
def membersText (k : Key) (v : Json) (ms : List (Key × Json)) : List Char :=
  quoted k.text.toList ++ (':' :: ' ' :: (render v ++ renderMembers [',', ' '] ms))

theorem renderMembers_cons (sep : List Char) (k : Key) (v : Json) (ms : List (Key × Json)) :
    renderMembers sep ((k, v) :: ms) = sep ++ '"' :: membersText k v ms := by
  simp [renderMembers, renderMember, membersText]

theorem length_render_pos (v : Json) : 0 < (render v).length := by
  obtain ⟨c, r, h, -⟩ := startsValue_render v
  rw [h]
  exact Nat.succ_pos _

/-- Fuel for a text is positive. -/
theorem fuel_pos (v : Json) {n : Nat} (h : 2 * (render v).length ≤ n) :
    ∃ m, n = m + 1 ∧ 2 * (render v).length ≤ m + 1 := by
  have := length_render_pos v
  exact ⟨n - 1, by omega, by omega⟩

mutual

theorem readValue_render : ∀ (v : Json) {n : Nat} {r : List Char}, 2 * (render v).length ≤ n + 1 →
    Stop r → readValue (n + 1) (render v ++ r) = some (stringKeys v, r)
  | .null, n, r, _, _ => by
      show readValue (n + 1) ('n' :: 'u' :: 'l' :: 'l' :: r) = _
      rw [readValue, readInt_cons_eq_none (by decide)]
      rfl
  | .bool true, n, r, _, _ => by
      show readValue (n + 1) ('t' :: 'r' :: 'u' :: 'e' :: r) = _
      rw [readValue, readInt_cons_eq_none (by decide)]
      rfl
  | .bool false, n, r, _, _ => by
      show readValue (n + 1) ('f' :: 'a' :: 'l' :: 's' :: 'e' :: r) = _
      rw [readValue, readInt_cons_eq_none (by decide)]
      rfl
  | .int k, n, r, _, hr => by
      simp only [render, readValue, readInt_toString k hr, stringKeys]
  | .str s, n, r, _, _ => by
      show readValue (n + 1) ('"' :: (quoted s.toList ++ r)) = _
      rw [readValue, readInt_cons_eq_none (by decide)]
      show (readString (quoted s.toList ++ r)).map _ = _
      rw [readString_quoted]
      rfl
  | .arr [], n, r, _, _ => by
      show readValue (n + 1) ('[' :: ']' :: r) = _
      rw [readValue, readInt_cons_eq_none (by decide)]
      rfl
  | .arr (v :: vs), n, r, hn, _ => by
      -- the brackets pay for the step down to the items
      have hlen : 2 * (renderItems [] (v :: vs)).length + 1 ≤ n := by
        simp only [render, List.length_cons, List.length_append] at hn
        omega
      have htext : render (.arr (v :: vs)) ++ r = '[' :: (renderItems [] (v :: vs) ++ ']' :: r) := by
        simp [render]
      have hstart : StartsValue (renderItems [] (v :: vs) ++ ']' :: r) :=
        ((startsValue_render v).append _).append _
      rw [htext, readValue_bracket hstart, readItems_renderItems v vs hlen]
      rfl
  | .obj [], n, r, _, _ => by
      show readValue (n + 1) ('{' :: '}' :: r) = _
      rw [readValue, readInt_cons_eq_none (by decide)]
      rfl
  | .obj ((k, v) :: ms), n, r, hn, _ => by
      have hlen : 2 * (membersText k v ms).length + 1 ≤ n := by
        simp only [render, renderMembers_cons, List.length_cons, List.length_append] at hn
        omega
      have htext : render (.obj ((k, v) :: ms)) ++ r = '{' :: '"' :: (membersText k v ms ++ '}' :: r) := by
        simp [render, renderMembers_cons]
      rw [htext, readValue_brace, readMembers_membersText k v ms hlen]
      rfl
termination_by _ n => n + 1

theorem readItems_renderItems : ∀ (v : Json) (vs : List Json) {n : Nat} {r : List Char},
    2 * (renderItems [] (v :: vs)).length + 1 ≤ n →
    readItems n (renderItems [] (v :: vs) ++ ']' :: r) = some (stringKeysItems (v :: vs), r)
  | v, [], 0, r, hn => by omega
  | v, w :: vs, 0, r, hn => by omega
  | v, [], n + 1, r, hn => by
      have hv : readValue n (render v ++ ']' :: r) = some (stringKeys v, ']' :: r) := by
        obtain ⟨m, rfl, hm⟩ := fuel_pos v (n := n) (by simp [renderItems] at hn; omega)
        exact readValue_render v hm (stop_cons (by decide))
      have htext : renderItems [] [v] ++ ']' :: r = render v ++ ']' :: r := by simp [renderItems]
      rw [htext, readItems_close hv]
      rfl
  | v, w :: vs, n + 1, r, hn => by
      have hlen : 2 * (renderItems [] (w :: vs)).length + 1 ≤ n := by
        simp [renderItems] at hn ⊢
        omega
      -- the first item ends at its comma, and the rest is read by induction
      have hv : readValue n (render v ++ ',' :: ' ' :: (renderItems [] (w :: vs) ++ ']' :: r)) =
          some (stringKeys v, ',' :: ' ' :: (renderItems [] (w :: vs) ++ ']' :: r)) := by
        obtain ⟨m, rfl, hm⟩ := fuel_pos v (n := n) (by simp [renderItems] at hn; omega)
        exact readValue_render v hm (stop_cons (by decide))
      have htext : renderItems [] (v :: w :: vs) ++ ']' :: r =
          render v ++ ',' :: ' ' :: (renderItems [] (w :: vs) ++ ']' :: r) := by
        simp [renderItems]
      have hstart : StartsValue (renderItems [] (w :: vs) ++ ']' :: r) :=
        ((startsValue_render w).append _).append _
      rw [htext, readItems_comma hstart hv, readItems_renderItems w vs hlen]
      rfl
termination_by _ _ n => n

theorem readMembers_membersText : ∀ (k : Key) (v : Json) (ms : List (Key × Json)) {n : Nat}
    {r : List Char}, 2 * (membersText k v ms).length + 1 ≤ n →
    readMembers n (membersText k v ms ++ '}' :: r) = some (stringKeysMembers ((k, v) :: ms), r)
  | k, v, [], 0, r, hn => by omega
  | k, v, _ :: _, 0, r, hn => by omega
  | k, v, [], n + 1, r, hn => by
      have hv : readValue n (render v ++ '}' :: r) = some (stringKeys v, '}' :: r) := by
        obtain ⟨m, rfl, hm⟩ := fuel_pos v (n := n) (by simp [membersText] at hn; omega)
        exact readValue_render v hm (stop_cons (by decide))
      have htext : membersText k v [] ++ '}' :: r =
          quoted k.text.toList ++ ':' :: ' ' :: (render v ++ '}' :: r) := by
        simp [membersText, renderMembers]
      rw [htext, readMembers_close (readString_quoted _ _) ((startsValue_render v).append _) hv]
      rfl
  | k, v, (k', v') :: ms, n + 1, r, hn => by
      have hlen : 2 * (membersText k' v' ms).length + 1 ≤ n := by
        simp [membersText, renderMembers, renderMember] at hn ⊢
        omega
      have hv : readValue n (render v ++ ',' :: ' ' :: '"' :: (membersText k' v' ms ++ '}' :: r)) =
          some (stringKeys v, ',' :: ' ' :: '"' :: (membersText k' v' ms ++ '}' :: r)) := by
        obtain ⟨m, rfl, hm⟩ := fuel_pos v (n := n) (by simp [membersText] at hn; omega)
        exact readValue_render v hm (stop_cons (by decide))
      have htext : membersText k v ((k', v') :: ms) ++ '}' :: r = quoted k.text.toList ++
          ':' :: ' ' :: (render v ++ ',' :: ' ' :: '"' :: (membersText k' v' ms ++ '}' :: r)) := by
        simp [membersText, renderMembers, renderMember]
      rw [htext, readMembers_comma (readString_quoted _ _) ((startsValue_render v).append _) hv,
        readMembers_membersText k' v' ms hlen]
      rfl
termination_by _ _ _ n => n

end

/-- **Round trip.** `json.loads` gives back the value `json.dumps` wrote, its keys turned into strings. -/
theorem loads_dumps (v : Json) : loads (dumps v) = some v.stringKeys := by
  have htext : (dumps v).toList = render v := String.toList_ofList
  obtain ⟨m, hm, hle⟩ := fuel_pos v (Nat.le_refl _)
  have hread : readValue (2 * (render v).length) (render v) = some (stringKeys v, []) := by
    have := readValue_render v hle (r := []) (by intro c hc; cases hc)
    rwa [List.append_nil, ← hm] at this
  rw [loads, htext, (startsValue_render v).skipWs, hread]
  rfl

/-- Values with one text differ at most in how their keys are spelled. -/
theorem stringKeys_eq_of_dumps_eq {v w : Json} (h : dumps v = dumps w) :
    v.stringKeys = w.stringKeys := by
  have := loads_dumps v
  rw [h, loads_dumps w] at this
  exact (Option.some.inj this).symm

/-- The decimal form of a number determines it. -/
theorem natRepr_injective : Function.Injective Nat.repr := by
  intro i j h
  have hdumps : (Json.int i).dumps = (Json.int j).dumps := by
    show String.ofList (Nat.repr i).toList = String.ofList (Nat.repr j).toList
    rw [h]
  have hint : Json.int i = Json.int j := stringKeys_eq_of_dumps_eq hdumps
  exact Int.ofNat.inj (Json.int.inj hint)

example : (loads " [1, -20 , true,\"\\u00e9\\ud83d\\ude00\", [ ]]").map dumps =
    some "[1, -20, true, \"\\u00e9\\ud83d\\ude00\", []]" := by
  decide +kernel

end Json
