import Mathlib.Data.List.Sort
import Mathlib.Order.Lattice

/-!
# `Lib.Json.Basic` — JSON values and their text, as Python's `json.dumps` writes it

`Json` is the values `dumps` takes: an object lists its members in insertion order, under `str` or `int`
keys. `render` is the text with the default separators and `ensure_ascii`; `sortKeys` is what
`sort_keys=True` does before it, and fails, as Python's `sorted` does, on an object that mixes the two
kinds of keys. `stringKeys` is the value that `loads` gives back: every key a string.
Floats and values that need a `default=` function are not modelled.
-/

inductive Json.Key where
  | str (s : String)
  | int (n : Int)
  deriving DecidableEq, Repr

/-- A JSON value. -/
inductive Json where
  | null
  | bool (b : Bool)
  | int (n : Int)
  | str (s : String)
  | arr (items : List Json)
  | obj (members : List (Json.Key × Json))
  deriving Repr

namespace Json

/-- How a key is written: an `int` key in decimal. -/
def Key.text : Key → String
  | .str s => s
  | .int n => toString n

/-- The value bound to a string key; the last binding counts. -/
def lookup (k : String) : List (Key × Json) → Option Json
  | [] => none
  | (k', v) :: ms => (lookup k ms).or (if k' = .str k then some v else none)

/-- `v[k]`: `none` is a `KeyError`, or a `TypeError` when `v` is no object. -/
def get? (v : Json) (k : String) : Option Json :=
  match v with
  | .obj ms => lookup k ms
  | _ => none

/-! ## Equality -/

mutual

/-- Whether two values are equal. -/
def decEq : (v w : Json) → Decidable (v = w)
  | .null, .null => isTrue rfl
  | .bool b, .bool c => decidable_of_iff (b = c) (by simp)
  | .int m, .int n => decidable_of_iff (m = n) (by simp)
  | .str s, .str t => decidable_of_iff (s = t) (by simp)
  | .arr vs, .arr ws => @decidable_of_iff _ (vs = ws) (by simp) (decEqItems vs ws)
  | .obj ms, .obj ns => @decidable_of_iff _ (ms = ns) (by simp) (decEqMembers ms ns)
  | .null, .bool _ | .null, .int _ | .null, .str _ | .null, .arr _ | .null, .obj _
  | .bool _, .null | .bool _, .int _ | .bool _, .str _ | .bool _, .arr _ | .bool _, .obj _
  | .int _, .null | .int _, .bool _ | .int _, .str _ | .int _, .arr _ | .int _, .obj _
  | .str _, .null | .str _, .bool _ | .str _, .int _ | .str _, .arr _ | .str _, .obj _
  | .arr _, .null | .arr _, .bool _ | .arr _, .int _ | .arr _, .str _ | .arr _, .obj _
  | .obj _, .null | .obj _, .bool _ | .obj _, .int _ | .obj _, .str _ | .obj _, .arr _ => isFalse (by simp)
termination_by structural v => v

def decEqItems : (vs ws : List Json) → Decidable (vs = ws)
  | [], [] => isTrue rfl
  | [], _ :: _ | _ :: _, [] => isFalse (by simp)
  | v :: vs, w :: ws =>
      @decidable_of_iff _ (v = w ∧ vs = ws) (by simp) (@instDecidableAnd _ _ (decEq v w) (decEqItems vs ws))
termination_by structural vs => vs

def decEqMembers : (ms ns : List (Key × Json)) → Decidable (ms = ns)
  | [], [] => isTrue rfl
  | [], _ :: _ | _ :: _, [] => isFalse (by simp)
  | m :: ms, n :: ns =>
      @decidable_of_iff _ (m = n ∧ ms = ns) (by simp) (@instDecidableAnd _ _ (decEqMember m n) (decEqMembers ms ns))
termination_by structural ms => ms

def decEqMember : (m n : Key × Json) → Decidable (m = n)
  | (k, v), (l, w) => @decidable_of_iff _ (k = l ∧ v = w) (by simp) (@instDecidableAnd _ _ inferInstance (decEq v w))
termination_by structural m => m

end

instance : DecidableEq Json := decEq

/-! ## Text -/

/-- `{n:04x}` for `n < 0x10000`. -/
def hex4 (n : Nat) : List Char :=
  [n / 4096 % 16, n / 256 % 16, n / 16 % 16, n % 16].map Nat.digitChar

/-- `\uXXXX`, for one UTF-16 code unit. -/
def unicodeEscape (n : Nat) : List Char := '\\' :: 'u' :: hex4 n

/-- One character of a string literal under `ensure_ascii`. -/
def escapeChar (c : Char) : List Char :=
  if c = '"' then ['\\', '"']
  else if c = '\\' then ['\\', '\\']
  else if c = '\n' then ['\\', 'n']
  else if c = '\r' then ['\\', 'r']
  else if c = '\t' then ['\\', 't']
  else if c = '\x0c' then ['\\', 'f']
  else if c = '\x08' then ['\\', 'b']
  else if 0x20 ≤ c.toNat ∧ c.toNat ≤ 0x7e then [c]
  else if c.toNat < 0x10000 then unicodeEscape c.toNat
  else unicodeEscape (0xd800 + (c.toNat - 0x10000) / 0x400) ++
    unicodeEscape (0xdc00 + (c.toNat - 0x10000) % 0x400)

/-- A string literal after its opening quote. -/
def quoted (s : List Char) : List Char := s.flatMap escapeChar ++ ['"']

mutual

/-- `json.dumps(v)`, as a list of characters. -/
def render : Json → List Char
  | .null => ['n', 'u', 'l', 'l']
  | .bool true => ['t', 'r', 'u', 'e']
  | .bool false => ['f', 'a', 'l', 's', 'e']
  | .int n => (toString n).toList
  | .str s => '"' :: quoted s.toList
  | .arr items => '[' :: (renderItems [] items ++ [']'])
  | .obj members => '{' :: (renderMembers [] members ++ ['}'])
termination_by structural v => v

/-- The items of an array, the first after `sep` and the others after a comma. -/
def renderItems (sep : List Char) : List Json → List Char
  | [] => []
  | v :: vs => sep ++ (render v ++ renderItems [',', ' '] vs)
termination_by structural vs => vs

def renderMembers (sep : List Char) : List (Key × Json) → List Char
  | [] => []
  | m :: ms => sep ++ (renderMember m ++ renderMembers [',', ' '] ms)
termination_by structural ms => ms

def renderMember : Key × Json → List Char
  | (k, v) => '"' :: (quoted k.text.toList ++ (':' :: ' ' :: render v))
termination_by structural m => m

end

/-- `json.dumps(v)`. -/
def dumps (v : Json) : String := String.ofList (render v)

/-! ## Key order -/

/-- `str` keys compare by code points and `int` keys as numbers; `str < int` is a `TypeError`. -/
def Key.le : Key → Key → Bool
  | .str s, .str t => s ≤ t
  | .int m, .int n => m ≤ n
  | _, _ => false

def Key.isStr : Key → Bool
  | .str _ => true
  | .int _ => false

/-- `sorted(members)`. -/
def sortMembers (ms : List (Key × Json)) : Option (List (Key × Json)) :=
  if ms.all (fun m => m.1.isStr) ∨ ms.all (fun m => !m.1.isStr) then
    some (ms.insertionSort fun a b => a.1.le b.1)
  else none

mutual

/-- The value with the members of every object sorted. -/
def sortKeys : Json → Option Json
  | .arr items => (sortItems items).map .arr
  | .obj members => (sortValues members).bind fun ms => (sortMembers ms).map .obj
  | .null => some .null
  | .bool b => some (.bool b)
  | .int n => some (.int n)
  | .str s => some (.str s)
termination_by structural v => v

def sortItems : List Json → Option (List Json)
  | [] => some []
  | v :: vs => (sortKeys v).bind fun v => (sortItems vs).map (v :: ·)
termination_by structural vs => vs

def sortValues : List (Key × Json) → Option (List (Key × Json))
  | [] => some []
  | m :: ms => (sortValue m).bind fun m => (sortValues ms).map (m :: ·)
termination_by structural ms => ms

def sortValue : Key × Json → Option (Key × Json)
  | (k, v) => (sortKeys v).map (k, ·)
termination_by structural m => m

end

/-- `json.dumps(v, sort_keys=True)`. -/
def dumpsSorted (v : Json) : Option String := (sortKeys v).map dumps

/-! ## What comes back -/

mutual

/-- The value with every key a string. -/
def stringKeys : Json → Json
  | .arr items => .arr (stringKeysItems items)
  | .obj members => .obj (stringKeysMembers members)
  | .null => .null
  | .bool b => .bool b
  | .int n => .int n
  | .str s => .str s
termination_by structural v => v

def stringKeysItems : List Json → List Json
  | [] => []
  | v :: vs => stringKeys v :: stringKeysItems vs
termination_by structural vs => vs

def stringKeysMembers : List (Key × Json) → List (Key × Json)
  | [] => []
  | m :: ms => stringKeysMember m :: stringKeysMembers ms
termination_by structural ms => ms

def stringKeysMember : Key × Json → Key × Json
  | (k, v) => (.str k.text, stringKeys v)
termination_by structural m => m

end

end Json
