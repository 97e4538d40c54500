import AgentTx.Dtx.Tables
import AgentTx.Identity
import AgentTx.Lib.FileSys
import AgentTx.Python

/-!
# `Dtx.Protocol` — the distributed turn protocol (`agenttx/dtx.py`)

The methods of `DTX` as programs over the shared world: the database server and the file store. Each SQL
statement, each commit and each file call is one atomic step, so that coordinators interleave between any
two of them and may die there. An `INSERT` raises when a column does not take its value. `concurrent_gate.worker`
and `overlay_gate.worker` are the two coordinators that the gates race.
-/

namespace AgentTx.Dtx

/-- The statements of the protocol. -/
inductive Stmt where
  | upsert_owner (session turn : String)
  | insert_turn (session turn : String)
  | select_turn (session turn : String)
  | set_committed (session turn : String)
  | select_owner (session turn : String)
  | insert_action (aid : String)
  | select_action (aid : String)
  | insert_charge (aid : String)
  | set_result (aid : String)
  | commit
  | rollback
  | file (c : FileCall)
  deriving DecidableEq

/-- What coordinators share, and the token that each one holds: its local variable `epoch`. -/
structure World (ι : Type) where
  server : Server ι
  files : FileSys
  held : ι → Option Nat

instance (ι : Type) : HasFiles Stmt (World ι) where
  files w := w.files
  setFiles w fs := { w with files := fs }
  tag := .file

abbrev DtxProg (ι α : Type) := Prog Stmt (World ι) Exn α

/-- A `DTX` object: its connection, the backend (`self.pg`), and the process it lives in. -/
structure DTX (ι : Type) where
  conn : ι
  pg : Bool
  pid : Nat

/-- How an action ended: run now, or found done. -/
inductive Tag where
  | committed
  | dedup
  deriving DecidableEq, Repr

namespace DTX

variable {ι : Type} [DecidableEq ι] [Driver] (self : DTX ι)

/-! ## Statements -/

/-- One statement sent to the server. -/
def execute {α : Type} (t : Stmt) (f : Server ι → Option (α × Server ι)) : DtxProg ι α :=
  Prog.step t fun w => (f w.server).map fun r => (r.1, { w with server := r.2 })

/-- What the connection reads. -/
def view (srv : Server ι) : Db := srv.view (scheme self.pg) self.conn

/-- Take the lock that protects a row, or wait. -/
def lock (srv : Server ι) (l : Lock) : Option (Server ι) := srv.lock self.conn (lockFor self.pg l)

/-- `INSERT … ON CONFLICT DO NOTHING`; the result says whether the row was inserted. PostgreSQL waits for
    an insert of the same key in flight, and locks nothing on a conflict. -/
def insertUnless (l : Lock) (conflict : Db → Bool) (w : Write) (srv : Server ι) :
    Option (Bool × Server ι) :=
  if self.pg && conflict (self.view srv) then some (false, srv)
  else
    (self.lock srv l).map fun srv =>
      if conflict (self.view srv) then (false, srv) else (true, srv.write self.conn w)

/-- `conn.commit()`. -/
def commit : DtxProg ι Unit :=
  Prog.modify .commit fun w => { w with server := w.server.commit (scheme self.pg) self.conn }

/-- `conn.rollback()`. -/
def rollback : DtxProg ι Unit :=
  Prog.modify .rollback fun w => { w with server := w.server.rollback self.conn }

/-- `with self.db.transaction():` commit at the end, roll back on an exception. -/
def transaction {α : Type} (body : DtxProg ι α) : DtxProg ι α :=
  Prog.tryCatch (do
      let a ← body
      self.commit
      pure a)
    fun e => do
      self.rollback
      .raise e

/-- `INSERT INTO turn_owner … ON CONFLICT DO UPDATE SET owner_epoch = owner_epoch + 1 RETURNING`. -/
def upsert_owner (session turn : String) : DtxProg ι Nat :=
  execute (.upsert_owner session turn) fun srv =>
    (self.lock srv (.owner session turn)).map fun srv =>
      let ep := ((self.view srv).turn_owner (session, turn)).elim 1 (· + 1)
      (ep, srv.write self.conn (.setOwner session turn ep))

/-- `INSERT INTO turns … ON CONFLICT DO NOTHING`. -/
def insert_turn (session turn commit_id plan : String) : DtxProg ι Bool :=
  execute (.insert_turn session turn) <|
    self.insertUnless (.turn session turn) (fun d => (d.turns (session, turn)).isSome)
      (.insertTurn session turn ⟨commit_id, plan, .open⟩)

/-- `SELECT commit_id, plan FROM turns`. -/
def select_turn (session turn : String) : DtxProg ι (Option TurnRow) :=
  execute (.select_turn session turn) fun srv => some ((self.view srv).turns (session, turn), srv)

/-- `UPDATE turns SET state='committed'`. -/
def set_committed (session turn : String) : DtxProg ι Unit :=
  execute (.set_committed session turn) fun srv =>
    if self.pg && ((self.view srv).turns (session, turn)).isNone then some ((), srv)
    else
      (self.lock srv (.turn session turn)).map fun srv =>
        ((), srv.write self.conn (.setCommitted session turn))

/-- `SELECT owner_epoch FROM turn_owner`, with ` FOR UPDATE` on PostgreSQL. -/
def select_owner (session turn : String) : DtxProg ι (Option Nat) :=
  execute (.select_owner session turn) fun srv =>
    let r := (self.view srv).turn_owner (session, turn)
    if self.pg && r.isSome then (self.lock srv (.owner session turn)).map fun srv => (r, srv)
    else some (r, srv)

/-- `INSERT INTO actions … ON CONFLICT DO NOTHING RETURNING action_id`. -/
def insert_action (aid : String) (row : ActionRow) : DtxProg ι Bool := do
  Prog.ofExcept (Driver.bound row.taken)
  execute (.insert_action aid) <|
    self.insertUnless (.action aid) (fun d => (d.actions aid).isSome) (.insertAction aid row)

/-- `SELECT args_fp, result FROM actions`. -/
def select_action (aid : String) : DtxProg ι (Option ActionRow) :=
  execute (.select_action aid) fun srv => some ((self.view srv).actions aid, srv)

/-- `INSERT INTO charges`. It conflicts with nothing, so PostgreSQL does not wait. -/
def insert_charge (row : ChargeRow) : DtxProg ι Unit := do
  Prog.ofExcept (Driver.bound row.taken)
  execute (.insert_charge row.action_id) fun srv =>
    (if self.pg then some srv else self.lock srv .database).map fun srv =>
      ((), srv.write self.conn (.insertCharge row))

/-- `UPDATE actions SET result`. -/
def set_result (aid result : String) : DtxProg ι Unit :=
  execute (.set_result aid) fun srv =>
    (self.lock srv (.action aid)).map fun srv => ((), srv.write self.conn (.setResult aid result))

/-! ## The methods -/

/-- Bump the owner epoch and return it: the caller's fencing token, held from the commit on. -/
def acquire (session turn : String) : DtxProg ι Nat := do
  let ep ← self.upsert_owner session turn
  Prog.modify .commit fun w =>
    { w with
      server := w.server.commit (scheme self.pg) self.conn
      held := Function.update w.held self.conn (some ep) }
  pure ep

/-- Persist the plan, unless the turn has one, and return the commit id of the plan given. -/
def begin_turn (session turn : String) (plan : List Json) : DtxProg ι String := do
  let cid ← Prog.ofOption .TypeError (commit_id_of (.arr plan))
  let _ ← self.insert_turn session turn cid (Json.arr plan).dumps
  self.commit
  pure cid

/-- The durable plan and its commit id. -/
def load_plan (session turn : String) : DtxProg ι (Option (String × Json)) := do
  match ← self.select_turn session turn with
  | none => pure none
  | some r =>
      let plan ← Prog.ofExcept (json_loads r.plan)
      pure (some (r.commit_id, plan))

/-- The row that claims a charge. -/
def chargeRow (session turn : String) (ordinal : Ordinal) (afp : String) (epoch : Nat) : ActionRow :=
  ⟨session, turn, ordinal, "charge", afp, .transactional, none, epoch⟩

/-- The claim is won: run the effect in the same transaction. `mid` is `crash == "mid"`;
    `crash == "hard_mid"` is the death of the process there. -/
def chargeEffect (aid : String) (args : Json) (mid : Bool) : DtxProg ι (Tag × Option Json) := do
  let order ← Prog.ofExcept (subscript args "order")
  let amount ← Prog.ofExcept (subscript args "amount")
  self.insert_charge ⟨order, amount, aid⟩
  if mid then
    .raise .Crash
  else
    let res := Json.obj [(.str "order", order), (.str "amount", amount)]
    self.set_result aid res.dumps
    pure (.committed, some res)

/-- Someone did this action already. -/
def chargeFound (aid afp : String) : DtxProg ι (Tag × Option Json) := do
  match ← self.select_action aid with
  | none => .raise .TypeError
  | some ex =>
      if ex.args_fp ≠ afp then
        .raise .ContentMismatch
      else
        match ex.result with
        | none => pure (.dedup, none)
        | some text => do
            let v ← Prog.ofExcept (json_loads text)
            pure (.dedup, some v)

/-- The body of `do_charge`'s transaction. -/
def chargeBody (session turn aid afp : String) (ordinal : Ordinal) (args : Json) (epoch : Nat) (mid : Bool) :
    DtxProg ι (Tag × Option Json) := do
  let r ← self.select_owner session turn
  if r ≠ some epoch then
    .raise .StaleOwner
  else if ← self.insert_action aid (chargeRow session turn ordinal afp epoch) then
    self.chargeEffect aid args mid
  else
    self.chargeFound aid afp

/-- The atomic claim and the transactional effect. -/
def do_charge (session turn commit_id : String) (ordinal : Ordinal) (args : Json) (epoch : Nat)
    (mid : Bool) : DtxProg ι (Tag × Option Json) := do
  let aid := action_id session turn commit_id ordinal
  let afp ← Prog.ofOption .TypeError (args_fingerprint args)
  self.transaction (self.chargeBody session turn aid afp ordinal args epoch mid)

/-- The row that records a receipt. -/
def receiptRow (session turn : String) (ordinal : Ordinal) (afp : String) (epoch : Nat) : ActionRow :=
  ⟨session, turn, ordinal, "receipt", afp, .overlay, none, epoch⟩

/-- Record a published receipt. -/
def record_overlay (session turn aid : String) (ordinal : Ordinal) (afp : String) (epoch : Nat) :
    DtxProg ι Unit := do
  let _ ← self.insert_action aid (receiptRow session turn ordinal afp epoch)
  self.commit

/-- `<store>/committed/<aid>.receipt`. -/
def receipt (store aid : String) : FsPath := ⟨store ++ "/committed", aid ++ ".receipt"⟩

/-- `<store>/overlay/<aid>.<pid>.<epoch>.tmp`. -/
def overlayTmp (store aid : String) (pid epoch : Nat) : FsPath :=
  ⟨store ++ "/overlay", aid ++ "." ++ toString pid ++ "." ++ toString epoch ++ ".tmp"⟩

/-- Write the receipt under a name of one's own, and rename it to the action's. -/
def publish (tmp final : FsPath) (text : String) : DtxProg ι Unit := do
  Prog.writeFile tmp (Sha256.encode text)
  Prog.replace .FileNotFoundError tmp final

/-- The file-system effect: publish the receipt under the action's name, then record it. Both of its
    crash points are deaths of the process. -/
def do_overlay (session turn commit_id : String) (ordinal : Ordinal) (args : Json) (epoch : Nat)
    (store : String) : DtxProg ι (Tag × FsPath) := do
  let aid := action_id session turn commit_id ordinal
  let afp ← Prog.ofOption .TypeError (args_fingerprint args)
  let final := receipt store aid
  if ← Prog.pathExists final then
    self.record_overlay session turn aid ordinal afp epoch
    pure (.dedup, final)
  else
    let text ← Prog.ofOption .TypeError (canonical_args args)
    publish (overlayTmp store aid self.pid epoch) final text
    Prog.fsyncDir (store ++ "/committed")
    self.record_overlay session turn aid ordinal afp epoch
    pure (.committed, final)

/-- The last two lines of a turn. -/
def commit_turn (session turn : String) : DtxProg ι Unit := do
  self.set_committed session turn
  self.commit

/-- The loop of `run_turn`. -/
def runSteps (session turn cid : String) (epoch : Nat) (crash_at : Option Int) :
    List Json → DtxProg ι (List (Tag × Option Json))
  | [] => pure []
  | step :: steps => do
      let ordinal ← Prog.ofExcept (subscript step "ordinal" >>= asOrdinal)
      let args ← Prog.ofExcept (subscript step "args")
      let r ← self.do_charge session turn cid ordinal args epoch (crash_at.any ordinal.isInt)
      let rs ← runSteps session turn cid epoch crash_at steps
      pure (r :: rs)

/-- The epoch given, or one's own. -/
def turnEpoch (session turn : String) : Option Nat → DtxProg ι Nat
  | none => self.acquire session turn
  | some epoch => pure epoch

/-- The commit id and the steps: of the plan given or, in recovery, of the durable one. -/
def turnPlan (session turn : String) : Option (List Json) → DtxProg ι (String × List Json)
  | some plan => do
      let cid ← self.begin_turn session turn plan
      pure (cid, plan)
  | none => do
      match ← self.load_plan session turn with
      | none => .raise .ValueError
      | some (cid, plan) =>
          let items ← Prog.ofExcept (iterate plan)
          pure (cid, items)

/-- Run a turn, or recover it. -/
def run_turn (session turn : String) (plan : Option (List Json)) (epoch : Option Nat)
    (crash_at : Option Int) : DtxProg ι (List (Tag × Option Json)) := do
  let epoch ← self.turnEpoch session turn epoch
  let (cid, items) ← self.turnPlan session turn plan
  let results ← self.runSteps session turn cid epoch crash_at items
  self.commit_turn session turn
  pure results

end DTX

/-! ## Coordinators -/

section Workers

variable {ι : Type} [DecidableEq ι] [Driver] (self : DTX ι)

/-- A process that calls `run_turn` and exits, whether it returned or raised. -/
def turnProcess (session turn : String) (plan : Option (List Json)) (epoch : Option Nat)
    (crash_at : Option Int) : DtxProg ι Unit := do
  Prog.tryCatch (do
      let _ ← self.run_turn session turn plan epoch crash_at
      pure ())
    fun _ => pure ()
  self.rollback

/-- The body of a gate's worker: acquire, load the durable plan, run `action` on its steps (`true`: go
    on; `false`: return), and set the turn committed. Any exception ends it; closing the connection rolls
    back. -/
def gateWorker (session turn : String) (action : String → Ordinal → Json → Nat → DtxProg ι Bool) :
    DtxProg ι Unit := do
  Prog.tryCatch (do
      let epoch ← self.acquire session turn
      match ← self.load_plan session turn with
      | none => .raise .TypeError
      | some (cid, plan) =>
          let items ← Prog.ofExcept (iterate plan)
          steps cid epoch items)
    fun _ => pure ()
  self.rollback
where
  /-- The loop over the plan. -/
  steps (cid : String) (epoch : Nat) : List Json → DtxProg ι Unit
    | [] => self.commit_turn session turn
    | step :: rest => do
        let ordinal ← Prog.ofExcept (subscript step "ordinal" >>= asOrdinal)
        let args ← Prog.ofExcept (subscript step "args")
        if ← action cid ordinal args epoch then steps cid epoch rest else pure ()

/-- `concurrent_gate.worker`: fenced out by a newer owner, it returns. -/
def chargeWorker (session turn : String) : DtxProg ι Unit :=
  gateWorker self session turn fun cid ordinal args epoch =>
    Prog.tryCatch (do
        let _ ← self.do_charge session turn cid ordinal args epoch false
        pure true)
      fun e => if e = .StaleOwner then pure false else .raise e

/-- `overlay_gate.worker`. -/
def overlayWorker (store session turn : String) : DtxProg ι Unit :=
  gateWorker self session turn fun cid ordinal args epoch => do
    let _ ← self.do_overlay session turn cid ordinal args epoch store
    pure true

end Workers

end AgentTx.Dtx
