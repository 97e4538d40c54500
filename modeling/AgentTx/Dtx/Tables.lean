import AgentTx.Columns
import AgentTx.Lib.Table
import AgentTx.Lib.TxServer

/-!
# `Dtx.Tables` — the tables of the distributed protocol, and the row locks of the two backends

`turns`, `turn_owner`, `actions` and `charges` as `DTX.__init__` declares them. A row holds the values that were
bound, if its columns take them (`taken`); what is in the cells of `order_id`, `amount` and `ordinal` nobody reads. A
write names the row it changes; PostgreSQL locks that row, SQLite the whole database.
-/

namespace AgentTx.Dtx

/-- `turns.state`. -/
inductive TurnState where
  | open
  | committed
  deriving DecidableEq, Repr

/-- A row of `turns`, after its key. -/
structure TurnRow where
  commit_id : String
  plan : String
  state : TurnState
  deriving DecidableEq, Repr

/-- `actions.klass`. -/
inductive Klass where
  | transactional
  | overlay
  deriving DecidableEq, Repr

/-- A row of `actions`, after its key. Its `state` column is always `'committed'`. -/
structure ActionRow where
  session : String
  turn : String
  ordinal : Ordinal
  tool : String
  args_fp : String
  klass : Klass
  result : Option String
  owner_epoch : Nat
  deriving DecidableEq, Repr

/-- A row of `charges`, after its serial number. -/
structure ChargeRow where
  order_id : Json
  amount : Json
  action_id : String

/-- The columns of `actions` take the row. -/
def ActionRow.taken [Driver] (row : ActionRow) : Bool := row.ordinal.taken

/-- The columns of `charges` take the row. -/
def ChargeRow.taken [Driver] (row : ChargeRow) : Bool := billable row.order_id row.amount

structure Db where
  turns : Table (String × String) TurnRow
  turn_owner : Table (String × String) Nat
  actions : Table String ActionRow
  charges : List ChargeRow

namespace Db

/-- No rows. -/
def empty : Db := ⟨fun _ => none, fun _ => none, fun _ => none, []⟩

/-- The charges of an action. -/
def chargesOf (d : Db) (aid : String) : List ChargeRow := d.charges.filter fun c => c.action_id = aid

theorem chargesOf_congr {d d' : Db} (h : d'.charges = d.charges) (aid : String) :
    d'.chargesOf aid = d.chargesOf aid := by
  rw [chargesOf, chargesOf, h]

end Db

/-- The writes of the protocol's statements. -/
inductive Write where
  | setOwner (session turn : String) (owner_epoch : Nat)
  | insertTurn (session turn : String) (row : TurnRow)
  | setCommitted (session turn : String)
  | insertAction (aid : String) (row : ActionRow)
  | insertCharge (row : ChargeRow)
  | setResult (aid result : String)

def Write.apply : Write → Db → Db
  | .setOwner s t ep, d => { d with turn_owner := Function.update d.turn_owner (s, t) (some ep) }
  | .insertTurn s t row, d => { d with turns := Function.update d.turns (s, t) (some row) }
  | .setCommitted s t, d =>
      { d with turns := d.turns.update (s, t) fun r => { r with state := .committed } }
  | .insertAction aid row, d => { d with actions := Function.update d.actions aid (some row) }
  | .insertCharge row, d => { d with charges := d.charges ++ [row] }
  | .setResult aid result, d =>
      { d with actions := d.actions.update aid fun r => { r with result := some result } }

/-- What a transaction locks: a row, or the database. A charge goes with its action. -/
inductive Lock where
  | owner (session turn : String)
  | turn (session turn : String)
  | action (aid : String)
  | database
  deriving DecidableEq

def Write.row : Write → Lock
  | .setOwner s t _ => .owner s t
  | .insertTurn s t _ => .turn s t
  | .setCommitted s t => .turn s t
  | .insertAction aid _ => .action aid
  | .insertCharge row => .action row.action_id
  | .setResult aid _ => .action aid

/-- The lock that protects a row: the row's own on PostgreSQL (`pg`), the database's on SQLite. -/
def lockFor (pg : Bool) (l : Lock) : Lock := if pg then l else .database

/-- The databases agree on a row. -/
def SameRow : Lock → Db → Db → Prop
  | .owner s t, d, d' => d.turn_owner (s, t) = d'.turn_owner (s, t)
  | .turn s t, d, d' => d.turns (s, t) = d'.turns (s, t)
  | .action aid, d, d' => d.actions aid = d'.actions aid ∧ d.chargesOf aid = d'.chargesOf aid
  | .database, d, d' => d = d'

theorem sameRow_refl (l : Lock) (d : Db) : SameRow l d d := by
  cases l <;> simp [SameRow]

theorem sameRow_trans {l : Lock} {d d' d'' : Db} (h : SameRow l d d') (h' : SameRow l d' d'') :
    SameRow l d d'' := by
  cases l with
  | owner s t => exact Eq.trans h h'
  | turn s t => exact Eq.trans h h'
  | action aid => exact ⟨h.1.trans h'.1, h.2.trans h'.2⟩
  | database => exact Eq.trans h h'

/-- **A write changes its own row only.** -/
theorem sameRow_apply {l : Lock} {w : Write} (hl : l ≠ .database) (h : w.row ≠ l) (d : Db) :
    SameRow l d (w.apply d) := by
  cases l with
  | database => exact absurd rfl hl
  | owner s t =>
    cases w with
    | setOwner s' t' ep =>
      have hne : (s, t) ≠ (s', t') := fun he => h (by cases he; rfl)
      exact (Function.update_of_ne hne _ _).symm
    | _ => rfl
  | turn s t =>
    cases w with
    | insertTurn s' t' row =>
      have hne : (s, t) ≠ (s', t') := fun he => h (by cases he; rfl)
      exact (Function.update_of_ne hne _ _).symm
    | setCommitted s' t' =>
      have hne : (s, t) ≠ (s', t') := fun he => h (by cases he; rfl)
      exact (Table.update_of_ne d.turns hne _).symm
    | _ => rfl
  | action aid =>
    cases w with
    | insertAction aid' row =>
      have hne : aid ≠ aid' := fun he => h (by cases he; rfl)
      exact ⟨(Function.update_of_ne hne _ _).symm, rfl⟩
    | insertCharge row =>
      have hne : row.action_id ≠ aid := fun he => h (by rw [Write.row, he])
      refine ⟨rfl, ?_⟩
      show d.chargesOf aid = (d.charges ++ [row]).filter _
      rw [List.filter_append, List.filter_singleton]
      simp [hne, Db.chargesOf]
    | setResult aid' res =>
      have hne : aid ≠ aid' := fun he => h (by cases he; rfl)
      exact ⟨(Table.update_of_ne d.actions hne _).symm, rfl⟩
    | _ => exact ⟨rfl, rfl⟩

/-- The locks a backend uses: PostgreSQL's are the rows', SQLite's is the database's. -/
def Uses (pg : Bool) (l : Lock) : Prop := pg = true ↔ l ≠ .database

/-- The two backends. -/
def scheme (pg : Bool) : TxScheme Lock Write Db where
  apply := Write.apply
  lockOf w := lockFor pg w.row
  Same l d d' := Uses pg l → SameRow l d d'
  same_refl l d _ := sameRow_refl l d
  same_trans l d d' d'' h h' hu := sameRow_trans (h hu) (h' hu)
  same_apply l w d h hu := by
    cases pg with
    | true => exact sameRow_apply (hu.mp rfl) h d
    | false =>
      -- every write takes the one lock there is
      have hdb : l = .database := by
        by_contra hne
        exact Bool.false_ne_true (hu.mpr hne)
      exact absurd hdb.symm h

/-- Who holds the lock of a row knows the row. -/
theorem sameRow_of_same {pg : Bool} {l : Lock} {d d' : Db} (hl : l ≠ .database)
    (h : (scheme pg).Same (lockFor pg l) d d') : SameRow l d d' := by
  cases pg with
  | true => exact h ⟨fun _ => hl, fun _ => rfl⟩
  | false =>
    have hd : d = d' := h ⟨nofun, fun hne => absurd rfl hne⟩
    rw [hd]
    exact sameRow_refl l d'

/-- The database server of the protocol. -/
abbrev Server (ι : Type) := TxServer ι Lock Write Db

/-- The server with no transaction open. -/
def rest {ι : Type} (db : Db) : Server ι := ⟨db, fun _ => none, fun _ => []⟩

end AgentTx.Dtx
