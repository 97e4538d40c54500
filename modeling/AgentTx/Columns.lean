import AgentTx.Python

/-!
# `Columns` — the values that a column takes

`agenttx/db.py` runs the same statements on SQLite and on PostgreSQL. What becomes of a Python value that a
statement binds is not in this repository: the driver refuses what it cannot convert (`sqlite3` a list, a dict, an
integer of more than 64 bits; `psycopg` a dict), and the server what does not fit the column (PostgreSQL a boolean
or an integer of more than 32 bits for an `INTEGER`); a `TEXT` column converts what it takes. `Driver` is that part,
with what both drivers document: a `TEXT` column gives a text back as it was and `None` as `None`, and an `INTEGER`
column takes the integers of 32 bits. The models take a driver as a parameter; `sqlite` and `postgres` are the two
for plain values.
-/

namespace AgentTx

/-- A database driver, and the columns behind it. -/
class Driver where
  /-- what a `TEXT` column holds of a value, a text or `NULL`; `none`: the value is refused -/
  text : Json → Option (Option String)
  /-- whether an `INTEGER` column takes a value -/
  integer : Json → Bool
  text_null : text .null = some none
  text_str : ∀ s, '\x00' ∉ s.toList → text (.str s) = some (some s)
  integer_int : ∀ n, -0x80000000 ≤ n → n < 0x80000000 → integer (.int n) = true

namespace Driver

attribute [simp] text_null

/-- What a `SELECT` gives for the cell of a `TEXT` column. -/
def read : Option String → Json
  | none => .null
  | some s => .str s

@[simp] theorem read_none : read none = .null := rfl

@[simp] theorem read_some (s : String) : read (some s) = .str s := rfl

section Keeps

variable [Driver]

/-- What is read back from a `TEXT` column is the value that was bound. -/
def Keeps (v : Json) : Prop := ∀ stored, text v = some stored → read stored = v

theorem keeps_null : Keeps .null := by
  intro stored hstored
  cases text_null.symm.trans hstored
  rfl

theorem keeps_str {s : String} (hs : '\x00' ∉ s.toList) : Keeps (.str s) := by
  intro stored hstored
  cases (text_str s hs).symm.trans hstored
  rfl

/-- A value of another type comes back as a text, unless it is refused. -/
theorem Keeps.cases {v : Json} (h : Keeps v) : v = .null ∨ (∃ s, v = .str s) ∨ text v = none := by
  cases hstored : text v with
  | none => exact Or.inr (Or.inr rfl)
  | some stored =>
    have hread := h stored hstored
    cases stored with
    | none => exact Or.inl hread.symm
    | some s => exact Or.inr (Or.inl ⟨s, hread.symm⟩)

/-- Which values a `TEXT` column keeps: `None` and the texts; what it refuses is never read back. -/
theorem keeps_iff {v : Json} (htext : ∀ s, v = .str s → '\x00' ∉ s.toList) :
    Keeps v ↔ v = .null ∨ (∃ s, v = .str s) ∨ text v = none := by
  refine ⟨Keeps.cases, ?_⟩
  rintro (rfl | ⟨s, rfl⟩ | hnone)
  · exact keeps_null
  · exact keeps_str (htext s rfl)
  · intro stored hstored
    cases hnone.symm.trans hstored

end Keeps

/-- Values bound to a statement: one that its column does not take is an exception. -/
def bound (taken : Bool) : Except Exn Unit := if taken then .ok () else .error .DataError

@[simp] theorem bound_true : bound true = .ok () := rfl

theorem bound_ok {taken : Bool} {u : Unit} (h : bound taken = .ok u) : taken = true := by
  cases taken with
  | true => rfl
  | false => cases h

theorem bound_error {taken : Bool} {e : Exn} (h : bound taken = .error e) : taken = false ∧ e = .DataError := by
  cases taken with
  | true => cases h
  | false =>
    cases h
    exact ⟨rfl, rfl⟩

/-- The integers of 32 bits. -/
def int32 (n : Int) : Bool := -0x80000000 ≤ n ∧ n < 0x80000000

/-- The integers of 64 bits. -/
def int64 (n : Int) : Bool := -0x8000000000000000 ≤ n ∧ n < 0x8000000000000000

/-- `sqlite3`. A `TEXT` column holds the decimal text of an integer; a column of either type takes a text, and
    a boolean as the integer it is. -/
abbrev sqlite : Driver where
  text
    | .null => some none
    | .bool b => some (some (toString b.toNat))
    | .int n => if int64 n then some (some (toString n)) else none
    | .str s => some (some s)
    | .arr _ | .obj _ => none
  integer
    | .int n => int64 n
    | .arr _ | .obj _ => false
    | _ => true
  text_null := rfl
  text_str _ _ := rfl
  integer_int n hle hlt := by
    simp only [int64, decide_eq_true_eq]
    omega

/-- `psycopg`, with PostgreSQL behind it. What it makes of a list for a `TEXT` column and of a text for an `INTEGER`
    column is more than that: here they are refused. -/
abbrev postgres : Driver where
  text
    | .null => some none
    | .bool b => some (some (toString b))
    | .int n => some (some (toString n))
    | .str s => if '\x00' ∈ s.toList then none else some (some s)
    | .arr _ | .obj _ => none
  integer
    | .null => true
    | .int n => int32 n
    | _ => false
  text_null := rfl
  text_str s hs := if_neg hs
  integer_int n hle hlt := by
    simp only [int32, decide_eq_true_eq]
    exact ⟨hle, hlt⟩

end Driver

/-! ## Ordinals -/

/-- An `INTEGER` column takes the ordinal. -/
def Ordinal.taken [Driver] (o : Ordinal) : Bool := Driver.integer o.json

theorem Ordinal.taken_int [Driver] {n : Int} (hle : -0x80000000 ≤ n) (hlt : n < 0x80000000) : (int n).taken = true :=
  Driver.integer_int n hle hlt

/-! ## Charges -/

/-- The columns of `charges`: the `TEXT` column takes the order, and the `INTEGER` column the amount. -/
def billable [Driver] (order amount : Json) : Bool := (Driver.text order).isSome && Driver.integer amount

/-- A text is an order, and an integer of 32 bits an amount, on either backend. -/
theorem billable_plain [Driver] {order : String} {amount : Int} (htext : '\x00' ∉ order.toList)
    (hle : -0x80000000 ≤ amount) (hlt : amount < 0x80000000) : billable (.str order) (.int amount) = true := by
  rw [billable, Driver.text_str order htext, Driver.integer_int amount hle hlt]
  rfl

end AgentTx
