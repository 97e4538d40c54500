import Mathlib.Data.Finset.Sort
import Mathlib.Data.Set.Card
import Mathlib.Data.String.Basic
import AgentTx.Lib.Prog.Files
import AgentTx.Lib.Prog.Serial
import AgentTx.Lib.Sha256
import AgentTx.Lib.Table
import AgentTx.Python

/-!
# `Gate1.Protocol` — four orchestrators of one turn

`gate1/failure_audit.py`: a turn charges an order in a database and writes a receipt file. `run_none` keeps no record
of it, `run_checkpoint` a JSON file, `run_dbos` a table of steps, in the transaction of the charge but after the
receipt, and `run_agenttx` the same with a receipt that is named by the turn. A worker exits at a named point of its
runner, and the turn is run again.

`app.db` is in autocommit mode: a statement is durable at once, except between `BEGIN` and `COMMIT`. `uuid` has the
names that `uuid.uuid4().hex` draws, one after the other.
-/

namespace AgentTx.Gate1

def ORDER_ID : String := "ORD-1"

def AMOUNT : Int := 100

/-- The named crash points. -/
inductive Point where
  | none
  | pre_charge
  | post_charge_pre_record
  | post_charge_record
  | post_receipt_pre_record
  | post_receipt_record
  deriving DecidableEq, Repr

/-- The orchestrators. -/
inductive Orch where
  | none
  | checkpoint
  | dbos
  | agenttx
  deriving DecidableEq, Repr

def POINTS : List Point :=
  [.none, .pre_charge, .post_charge_pre_record, .post_charge_record, .post_receipt_pre_record, .post_receipt_record]

def ORCHS : List Orch := [.none, .checkpoint, .dbos, .agenttx]

/-! ## What is there -/

/-- A row of `charges`. -/
structure Charge where
  order_id : String
  amount : Int
  deriving DecidableEq, Repr

/-- `app.db`. -/
structure App where
  charges : List Charge
  steps : KeyedRows (id : String → String)
  wal : KeyedRows (id : String × String → String × String)

/-- `app.db`, what the open transaction has made of it, the files, and how many names were drawn. -/
structure World where
  app : App
  tx : Option App
  files : FileSys
  draws : Nat

/-- The statements. -/
inductive Stmt where
  | select
  | begin
  | insert
  | commit
  | load
  | uuid4
  | file (c : FileCall)
  deriving DecidableEq

instance : HasFiles Stmt World where
  files := World.files
  setFiles w fs := { w with files := fs }
  tag := .file

instance : LawfulFiles Stmt World := ⟨fun _ _ => rfl, fun _ _ _ => rfl⟩

abbrev GateProg (α : Type) := Prog Stmt World Exn α

/-- The step record that goes into the transaction of the charge: a row of `steps` or of `wal`. -/
inductive Record where
  | steps (name : String)
  | wal (turn step : String)
  deriving DecidableEq, Repr

/-- `INSERT OR IGNORE` of a step record. -/
def App.record (a : App) : Record → App
  | .steps name => { a with steps := a.steps.insertOrIgnore name }
  | .wal turn step => { a with wal := a.wal.insertOrIgnore (turn, step) }

/-- `INSERT INTO charges`. -/
def App.insertCharge (order_id : String) (amount : Int) (a : App) : App :=
  { a with charges := a.charges ++ [⟨order_id, amount⟩] }

/-! ## The tools -/

/-- `_crash`: `os._exit(137)` ends the process there and then. -/
def crash (point kill_at : Point) : GateProg Unit :=
  if point = kill_at then .raise .Crash else .ret ()

/-- The tables as the connection sees them. -/
def World.tables (w : World) : App := w.tx.getD w.app

/-- A write, which waits for `COMMIT` if a transaction is open. -/
def World.setTables (w : World) (a : App) : World :=
  match w.tx with
  | some _ => { w with tx := some a }
  | Option.none => { w with app := a }

def beginTx : GateProg Unit := Prog.modify .begin fun w => { w with tx := some w.tables }

def insertRow (f : App → App) : GateProg Unit := Prog.modify .insert fun w => w.setTables (f w.tables)

def commit : GateProg Unit := Prog.modify .commit fun w => { w with app := w.tables, tx := Option.none }

/-- `charge`. -/
def charge (order_id : String) (amount : Int) (also_record : Option Record) : GateProg Unit := do
  beginTx
  insertRow (App.insertCharge order_id amount)
  also_record.elim (pure ()) fun r => insertRow (·.record r)
  commit

section Paths

variable (store : String)

/-- A name in `_receipt_dir(store)`. -/
def receiptPath (name : String) : FsPath := ⟨store ++ "/receipts", name⟩

/-- `receipt_<key>.txt`. -/
def receiptName (key : String) : String := "receipt_" ++ key ++ ".txt"

/-- `f"{ORDER_ID}\n"`. -/
def content : List UInt8 := Sha256.encode (ORDER_ID ++ "\n")

/-- `write_receipt_unique`. -/
def write_receipt_unique (uuid : Nat → String) : GateProg Unit := do
  let n ← Prog.step .uuid4 fun w => some (w.draws, { w with draws := w.draws + 1 })
  Prog.writeFile (receiptPath store (receiptName (uuid n))) content

/-- `write_receipt_keyed`. -/
def write_receipt_keyed (turn_key : String) : GateProg Unit := do
  Prog.writeFile (receiptPath store (".tmp_" ++ turn_key)) content
  Prog.replace .FileNotFoundError (receiptPath store (".tmp_" ++ turn_key))
    (receiptPath store (receiptName turn_key))

/-! ## The checkpoint -/

/-- `sp`. -/
def ckptPath : FsPath := ⟨store, "ckpt.json"⟩

/-- `sp + ".tmp"`. -/
def ckptTmp : FsPath := ⟨store, "ckpt.json.tmp"⟩

/-- `json.dump({"done": sorted(done)}, f)`. -/
def ckptText (done : Finset String) : List UInt8 :=
  Sha256.encode (Json.dumps (.obj [(.str "done", .arr ((done.sort (· ≤ ·)).map .str))]))

/-- `save()`. -/
def save (done : Finset String) : GateProg Unit := do
  Prog.writeFile (ckptTmp store) (ckptText done)
  Prog.replace .FileNotFoundError (ckptTmp store) (ckptPath store)

/-- An item of `done`; `save` writes strings only. -/
def asStr : Json → Except Exn String
  | .str s => .ok s
  | _ => .error .TypeError

/-- `set(json.load(f).get("done", []))`. -/
def loadDone (bytes : List UInt8) : Except Exn (Finset String) := do
  let text ← (Sha256.decode bytes).elim (.error .ValueError) .ok
  let doc ← json_loads text
  let items ←
    match doc with
    | .obj _ => (doc.get? "done").elim (.ok []) iterate
    | _ => .error .AttributeError
  let names ← items.mapM asStr
  pure names.toFinset

/-- `set(…) if os.path.exists(sp) else set()`. -/
def loadCkpt : GateProg (Finset String) := do
  if ← Prog.pathExists (ckptPath store) then
    let bytes ← Prog.read .load fun w => w.files.read (ckptPath store)
    let bytes ← Prog.ofOption .FileNotFoundError bytes
    Prog.ofExcept (loadDone bytes)
  else
    pure ∅

end Paths

/-! ## The orchestrators -/

section Orchestrators

variable (uuid : Nat → String) (store : String) (kill_at : Point)

def run_none : GateProg Unit := do
  crash .pre_charge kill_at
  charge ORDER_ID AMOUNT Option.none
  crash .post_charge_pre_record kill_at
  crash .post_charge_record kill_at
  write_receipt_unique store uuid
  crash .post_receipt_pre_record kill_at
  crash .post_receipt_record kill_at

def run_checkpoint : GateProg Unit := do
  let done ← loadCkpt store
  Prog.onlyIf ("charge" ∉ done) do
    crash .pre_charge kill_at
    charge ORDER_ID AMOUNT Option.none
    crash .post_charge_pre_record kill_at
    save store (insert "charge" done)
    crash .post_charge_record kill_at
  -- `done` is one set, to which the branch above adds
  let done := insert "charge" done
  Prog.onlyIf ("receipt" ∉ done) do
    write_receipt_unique store uuid
    crash .post_receipt_pre_record kill_at
    save store (insert "receipt" done)
    crash .post_receipt_record kill_at

def run_dbos : GateProg Unit := do
  let done ← Prog.read .select fun w => w.tables.steps.rows
  Prog.onlyIf ("charge" ∉ done) do
    crash .pre_charge kill_at
    charge ORDER_ID AMOUNT (some (.steps "charge"))
    crash .post_charge_pre_record kill_at
    crash .post_charge_record kill_at
  Prog.onlyIf ("receipt" ∉ done) do
    write_receipt_unique store uuid
    crash .post_receipt_pre_record kill_at
    insertRow (·.record (.steps "receipt"))
    crash .post_receipt_record kill_at

def run_agenttx : GateProg Unit := do
  let turn := "T1"
  let done ← Prog.read .select fun w => (w.tables.wal.rows.filter (·.1 = turn)).map (·.2)
  Prog.onlyIf ("charge" ∉ done) do
    crash .pre_charge kill_at
    charge ORDER_ID AMOUNT (some (.wal turn "charge"))
    crash .post_charge_pre_record kill_at
    crash .post_charge_record kill_at
  Prog.onlyIf ("receipt" ∉ done) do
    write_receipt_keyed store turn
    crash .post_receipt_pre_record kill_at
    insertRow (·.record (.wal turn "receipt"))
    crash .post_receipt_record kill_at

/-- `RUNNERS`. -/
def RUNNERS : Orch → GateProg Unit
  | .none => run_none uuid store kill_at
  | .checkpoint => run_checkpoint uuid store kill_at
  | .dbos => run_dbos uuid store kill_at
  | .agenttx => run_agenttx store kill_at

end Orchestrators

/-- The end of a process: an open transaction is rolled back. -/
def World.close (w : World) : World := { w with tx := Option.none }

/-- Workers on one store, each with its kill point, one after the other. -/
def workers (uuid : Nat → String) (store : String) (o : Orch) : Serial Point Stmt World Exn Unit where
  main kill_at := RUNNERS uuid store kill_at o
  start _ w := w
  close := World.close

/-! ## The oracle -/

/-- `receipt_*.txt`. -/
def IsReceipt (name : String) : Prop := ∃ key, name = receiptName key

/-- `glob.glob(os.path.join(_receipt_dir(store), "receipt_*.txt"))`. -/
def glob (store : String) (fs : FileSys) : Set String :=
  {name | (fs.dir (receiptPath store name)).isSome ∧ IsReceipt name}

/-- `oracle`: the charges of the order, and its receipts. -/
noncomputable def oracle (store : String) (w : World) : Nat × Nat :=
  (w.app.charges.countP (·.order_id = ORDER_ID), (glob store w.files).ncard)

inductive Outcome where
  | CORRECT
  | DUPLICATE
  | LOST
  deriving DecidableEq, Repr

/-- What `classify` makes of the counts. -/
def outcome : Nat × Nat → Outcome
  | (nc, nr) =>
    if nc > 1 ∨ nr > 1 then .DUPLICATE
    else if nc < 1 ∨ nr < 1 then .LOST
    else .CORRECT

/-- `classify`, without the counts. -/
noncomputable def classify (store : String) (w : World) : Outcome := outcome (oracle store w)

end AgentTx.Gate1
