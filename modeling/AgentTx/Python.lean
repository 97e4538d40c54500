import AgentTx.Lib.Json.Loads
import AgentTx.Lib.Prog.Basic

/-!
# `Python` — exceptions, and what the code does with a decoded JSON document
-/

namespace AgentTx

/-- The exceptions that the modelled code raises. `DataError` stands for what a driver raises for a value that a
    column does not take; `raised` is an exception of a tool, by its name. -/
inductive Exn where
  | AttributeError
  | DataError
  | StaleOwner
  | ContentMismatch
  | Crash
  | FileNotFoundError
  | IsADirectoryError
  | JSONDecodeError
  | KeyError
  | TypeError
  | ValueError
  | raised (name : String)
  deriving DecidableEq, Repr

/-- `m[k]`. -/
def subscript (m : Json) (k : String) : Except Exn Json :=
  match m with
  | .obj _ => (m.get? k).elim (.error .KeyError) .ok
  | _ => .error .TypeError

theorem subscript_error {m : Json} {k : String} {e : Exn} (h : subscript m k = .error e) : e ≠ .ContentMismatch := by
  rintro rfl
  cases m with
  | obj ms =>
    unfold subscript at h
    cases hget : (Json.obj ms).get? k with
    | none =>
      rw [hget] at h
      cases h
    | some v =>
      rw [hget] at h
      cases h
  | _ => cases h

/-- `m.get(k)`. -/
def dictGet (m : Json) (k : String) : Except Exn Json :=
  match m with
  | .obj _ => .ok ((m.get? k).getD .null)
  | _ => .error .AttributeError

/-- The items of `for x in v`. -/
def iterate : Json → Except Exn (List Json)
  | .arr items => .ok items
  | .obj members => .ok (members.map fun m => .str m.1.text)
  | .str s => .ok (s.toList.map fun c => .str c.toString)
  | _ => .error .TypeError

/-! ## Ordinals -/

/-- What a decoded plan can hold as the ordinal of a step, other than a list or an object. -/
inductive Ordinal where
  | none
  | bool (b : Bool)
  | int (n : Int)
  | str (s : String)
  deriving DecidableEq, Repr

namespace Ordinal

instance : Coe Int Ordinal := ⟨.int⟩

instance : Coe Nat Ordinal := ⟨fun n => .int n⟩

/-- `f"{ordinal}"`. -/
def format : Ordinal → String
  | .none => "None"
  | .bool true => "True"
  | .bool false => "False"
  | .int n => toString n
  | .str s => s

/-- The document it came from. -/
def json : Ordinal → Json
  | .none => .null
  | .bool b => .bool b
  | .int n => .int n
  | .str s => .str s

/-- `ordinal == n`: `True` and `False` are the numbers 1 and 0. -/
def isInt (n : Int) : Ordinal → Bool
  | .none => false
  | .bool b => n = b.toNat
  | .int m => n = m
  | .str _ => false

end Ordinal

/-- A decoded document as an ordinal. A list or an object has a text too, but no column of ordinals takes it. -/
def asOrdinal : Json → Except Exn Ordinal
  | .null => .ok .none
  | .bool b => .ok (.bool b)
  | .int n => .ok (.int n)
  | .str s => .ok (.str s)
  | .arr _ | .obj _ => .error .DataError

/-- `json.loads(text)`. -/
def json_loads (text : String) : Except Exn Json :=
  (Json.loads text).elim (.error .JSONDecodeError) .ok

end AgentTx
