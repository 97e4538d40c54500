import AgentTx.Gateway.Tools

/-!
# `Core.Protocol` — the minimal coordinator

`agenttx/core.py`: a Turn WAL, a gateway of two tools, and the coordinator over them. A charge is inserted
with its key in one transaction; a receipt is written under a temporary name and renamed (`ReceiptTool` of
`Gateway.Tools` has the same paths). Recovery is to run the turn again.

`wal.db` and `app.db` are in autocommit mode: a statement is durable at once, except between `BEGIN` and
`COMMIT`. `str` is Python's `str()` of the arguments of a step.
-/

namespace AgentTx.Core

open Gateway (Clock WalType)

/-! ## What is there -/

/-- A step of a plan, `(tool, args)`. -/
inductive Step where
  | sql (order_id : String) (amount : Int)
  | fs (order_id : String)
  | other (tool : String)
  deriving DecidableEq, Repr

def Step.tool : Step → String
  | .sql _ _ => "sql"
  | .fs _ => "fs"
  | .other tool => tool

/-- A row of `charges`. -/
structure Charge where
  order_id : String
  amount : Int
  deriving DecidableEq, Repr

/-- `app.db`. `gw_keys` has the result of each key. -/
structure App where
  charges : List Charge
  gw_keys : Table String String

/-- A row of `wal`; its `lsn` is its position. -/
structure WalRow where
  type : WalType
  turn : String
  key : String
  deriving DecidableEq, Repr

/-- The databases, what the open transaction has made of `app.db`, the files, and the clock of the attempt. -/
structure World where
  wal : List WalRow
  app : App
  tx : Option App
  files : FileSys
  clock : Clock

/-- The statements. -/
inductive Stmt where
  | wal
  | select
  | begin
  | insert
  | commit
  | file (c : FileCall)
  | tick
  deriving DecidableEq

instance : HasFiles Stmt World where
  files := World.files
  setFiles w fs := { w with files := fs }
  tag := .file

instance : LawfulFiles Stmt World := ⟨fun _ _ => rfl, fun _ _ _ => rfl⟩

abbrev CoreProg (α : Type) := Prog Stmt World Exn α

/-- `Clock.tick`. -/
def tick : CoreProg Unit := do
  let killed ← Prog.step .tick fun w =>
    some (decide (w.clock.kill_at ≠ 0 ∧ w.clock.n + 1 = w.clock.kill_at),
      { w with clock := { w.clock with n := w.clock.n + 1 } })
  if killed then .raise .Crash else pure ()

/-- `f"{turn}|{ordinal}|{tool}|{args}"`. -/
def action_text (str : Step → String) (turn : String) (step : Step) (ordinal : Nat) : String :=
  turn ++ "|" ++ toString ordinal ++ "|" ++ step.tool ++ "|" ++ str step

/-- `action_key`. -/
def action_key (str : Step → String) (turn : String) (step : Step) (ordinal : Nat) : String :=
  sha256 (action_text str turn step ordinal)

/-! ## `TurnWAL` -/

/-- `append`. -/
def append (type : WalType) (turn key : String) : CoreProg Unit :=
  Prog.modify .wal fun w => { w with wal := w.wal ++ [⟨type, turn, key⟩] }

/-- `has`, without a key. -/
def has (type : WalType) (turn : String) : CoreProg Bool :=
  Prog.read .wal fun w => w.wal.any fun r => r.type = type ∧ r.turn = turn

/-! ## `ToolGateway` -/

/-- The tables as the connection sees them. -/
def World.tables (w : World) : App := w.tx.getD w.app

/-- A write, which waits for `COMMIT` if a transaction is open. -/
def World.setTables (w : World) (a : App) : World :=
  match w.tx with
  | some _ => { w with tx := some a }
  | none => { w with app := a }

def beginTx : CoreProg Unit := Prog.modify .begin fun w => { w with tx := some w.tables }

def commit : CoreProg Unit := Prog.modify .commit fun w => { w with app := w.tables, tx := none }

/-- An `INSERT`, which may be refused. -/
def insert (f : App → Except Exn App) : CoreProg Unit := do
  let r ← Prog.step .insert fun w =>
    match f w.tables with
    | .ok a => some (.ok (), w.setTables a)
    | .error e => some (.error e, w)
  Prog.ofExcept r

/-- `INSERT INTO charges`. An integer of SQLite has 64 bits. -/
def App.insertCharge (order_id : String) (amount : Int) (a : App) : Except Exn App :=
  if -9223372036854775808 ≤ amount ∧ amount < 9223372036854775808 then
    .ok { a with charges := a.charges ++ [⟨order_id, amount⟩] }
  else
    .error (.raised "OverflowError")

/-- `INSERT INTO gw_keys`, of which `key` is the primary key. -/
def App.insertKey (key result : String) (a : App) : Except Exn App :=
  if (a.gw_keys key).isSome then
    .error (.raised "IntegrityError")
  else
    .ok { a with gw_keys := Function.update a.gw_keys key (some result) }

/-- `_seen`. -/
def seen (key : String) : CoreProg (Option String) := Prog.read .select fun w => w.tables.gw_keys key

def sql_charge (key order_id : String) (amount : Int) : CoreProg String := do
  match ← seen key with
  | some result => pure result
  | none => do
      tick
      beginTx
      insert (App.insertCharge order_id amount)
      insert (App.insertKey key ("charged:" ++ order_id))
      commit
      tick
      pure ("charged:" ++ order_id)

/-- `f"{order_id}\n"`. -/
def content (order_id : String) : List UInt8 := Sha256.encode (order_id ++ "\n")

open Gateway.ReceiptTool (final tmp path) in
def fs_receipt (store key order_id : String) : CoreProg String := do
  if ← Prog.pathExists (final store key) then
    pure (path store key)
  else
    Prog.writeFile (tmp store key) (content order_id)
    tick
    Prog.replace .FileNotFoundError (tmp store key) (final store key)
    tick
    pure (path store key)

/-! ## `Coordinator` -/

section Coordinator

variable (str : Step → String) (store turn : String)

/-- The tool of a step. -/
def runTool (key : String) : Step → CoreProg Unit
  | .sql order_id amount => do
      let _ ← sql_charge key order_id amount
      pure ()
  | .fs order_id => do
      let _ ← fs_receipt store key order_id
      pure ()
  | .other _ => pure ()

/-- The loop over the plan, from position `ordinal` on. -/
def runSteps : Nat → List Step → CoreProg Unit
  | _, [] => pure ()
  | ordinal, step :: plan => do
      let key := action_key str turn step ordinal
      append .ACTION_PREPARED turn key
      tick
      runTool store key step
      append .OBSERVATION_COMMITTED turn key
      tick
      runSteps (ordinal + 1) plan

/-- `if not self.wal.has(…): self.wal.append(…)`. -/
def appendUnlessHas (type : WalType) : CoreProg Unit := do
  if ← has type turn then pure () else append type turn ""

/-- `Coordinator.run_turn`. -/
def run_turn (plan : List Step) : CoreProg Unit := do
  appendUnlessHas turn .BEGIN_TURN
  tick
  runSteps str store turn 0 plan
  appendUnlessHas turn .TURN_COMMITTED
  tick

/-- `Coordinator.recover`. -/
def recover (plan : List Step) : CoreProg Unit := run_turn str store turn plan

/-- An attempt: whether it is `recover` or `run_turn`, the tick at which its clock kills it, and the files it
    finds. -/
structure Attempt where
  recovers : Bool
  kill_at : Nat
  files : FileSys

/-- Attempts at a turn. What an attempt leaves open is rolled back. -/
def attempts (plan : List Step) : Serial Attempt Stmt World Exn Unit where
  main a := if a.recovers then recover str store turn plan else run_turn str store turn plan
  start a w := { w with files := a.files, clock := ⟨0, a.kill_at⟩ }
  close w := { w with tx := none }

end Coordinator

/-- The temporary files may have come to any state, the others are as they were. -/
structure Leaves (store : String) (fs fs' : FileSys) : Prop where
  no_links : fs'.NoLinks
  elsewhere : ∀ p : FsPath, p.dir ≠ store ++ "/overlay" →
    fs'.dir p = fs.dir p ∧ ∀ n, fs.dir p = some n → fs'.data n = fs.data n

end AgentTx.Core
