import AgentTx.Columns
import AgentTx.Identity
import AgentTx.Lib.Prog.Serial
import AgentTx.Lib.Table

/-!
# `Gateway.Protocol` — the Tool Gateway, the Turn WAL and the coordinator over them

`agenttx/gateway.py`, `wal.py` and `coordinator.py`. One owner works on a turn: its connection has the
committed tables and what its open transaction made of them (`World.working`); a tool works on the
outside world `X` and, in the transaction, on rows `R` of the application's tables. An attempt at a turn
may die between any two of its steps; what it left open is rolled back (`attempts`).

What a tool returns may be any value, but `gw_keys.result` is a `TEXT` column: the row holds what the column makes
of the value, a replay answers with that, and a value that the column does not take is an exception where it is
recorded.
-/

namespace AgentTx.Gateway

/-! ## Tables -/

/-- `ToolClass`. -/
inductive ToolClass where
  | pure
  | idempotent
  | transactional
  | overlay
  | compensatable
  | irreversible
  deriving DecidableEq, Repr

/-- `gw_keys.status`. -/
inductive KeyStatus where
  | committed
  | prepared
  | effect_started
  | compensated
  deriving DecidableEq, Repr

/-- A row of `gw_keys`, after its key; `result` is what the column holds. -/
structure KeyRow where
  args_fp : Option String
  status : KeyStatus
  klass : ToolClass
  result : Option String
  deriving DecidableEq, Repr

/-- `wal.type`. -/
inductive WalType where
  | BEGIN_TURN
  | ACTION_PREPARED
  | OBSERVATION_COMMITTED
  | TURN_COMMITTED
  deriving DecidableEq, Repr

/-- A row of `wal`; its `lsn` is its position. -/
structure WalRecord where
  session : String
  turn : String
  type : WalType
  key : String
  deriving DecidableEq, Repr

/-- The database: the gateway's keys, the WAL, and the rows that tools insert. -/
structure Db (R : Type) where
  gw_keys : Table String KeyRow
  wal : List WalRecord
  app : List R

/-- `Clock`: it raises at tick `kill_at`, unless that is 0. -/
structure Clock where
  n : Nat
  kill_at : Nat

/-- What is there: the committed database, what the open transaction sees of it, the outside world, and
    the clock of the attempt. -/
structure World (R X : Type) where
  committed : Db R
  working : Db R
  ext : X
  clock : Clock

/-- The statements. -/
inductive Stmt where
  | seen (key afp : String) (klass : ToolClass)
  | record (key : String) (status : KeyStatus)
  | has (type : WalType)
  | append (type : WalType) (key : String)
  | db_effect (key : String)
  | effect (key : String)
  | compensate (key : String)
  | tool (key : String)
  | commit
  | rollback
  | tick
  deriving DecidableEq

abbrev GwProg (R X α : Type) := Prog Stmt (World R X) Exn α

section Statements

variable {R X : Type}

/-- One statement on the open transaction. -/
def execute {α : Type} (t : Stmt) (f : Db R → α × Db R) : GwProg R X α :=
  Prog.step t fun w => some ((f w.working).1, { w with working := (f w.working).2 })

def commit : GwProg R X Unit := Prog.modify .commit fun w => { w with committed := w.working }

def rollback : GwProg R X Unit := Prog.modify .rollback fun w => { w with working := w.committed }

/-- `with self.db.transaction():` commit at the end, roll back on an exception. -/
def transaction {α : Type} (body : GwProg R X α) : GwProg R X α :=
  Prog.tryCatch (do
      let a ← body
      commit
      pure a)
    fun e => do
      rollback
      .raise e

/-- `clock.tick()`. -/
def tick : GwProg R X Unit := do
  let killed ← Prog.step .tick fun w =>
    some (decide (w.clock.kill_at ≠ 0 ∧ w.clock.n + 1 = w.clock.kill_at),
      { w with clock := { w.clock with n := w.clock.n + 1 } })
  if killed then .raise .Crash else pure ()

end Statements

/-! ## Tools -/

/-- A tool, by its class's mechanism. `db_effect` says which rows it inserts; `effect` and `compensate`
    work on the outside world. The defaults are those of the base class. -/
structure Tool (R X : Type) where
  name : String
  klass : ToolClass
  db_effect : String → Json → List R → Except String (Json × List R) :=
    fun _ _ _ => .error "NotImplementedError"
  effect : String → Json → Prog Unit X String Json := fun _ _ => .raise "NotImplementedError"
  compensate : String → Json → Prog Unit X String Unit := fun _ _ => .ret ()

section Tools

variable {R X : Type}

/-- A tool's program at work on the outside world. -/
def outside {α : Type} (key : String) (p : Prog Unit X String α) : GwProg R X α :=
  p.zoom (.tool key) World.ext (fun x w => { w with ext := x }) .raised

namespace Tool

variable (tool : Tool R X)

/-- `tool.effect(self, key, args)`. -/
def callEffect (key : String) (args : Json) : GwProg R X Json := do
  Prog.read (.effect key) fun _ => ()
  outside key (tool.effect key args)

/-- `tool.compensate(self, key, args)`. -/
def callCompensate (key : String) (args : Json) : GwProg R X Unit := do
  Prog.read (.compensate key) fun _ => ()
  outside key (tool.compensate key args)

/-- `tool.db_effect(db, key, args)`. -/
def callDbEffect (key : String) (args : Json) : GwProg R X Json := do
  let r ← execute (.db_effect key) fun d =>
    match tool.db_effect key args d.app with
    | .ok (v, rows) => (.ok v, { d with app := d.app ++ rows })
    | .error e => (.error (.raised e), d)
  Prog.ofExcept r

end Tool

end Tools

/-! ## The gateway -/

/-- `Result.status`. -/
inductive Answer where
  | committed
  | dedup_hit
  | uncertain
  | compensated
  deriving DecidableEq, Repr

structure Result where
  status : Answer
  value : Json
  key : String
  klass : ToolClass
  deriving DecidableEq, Repr

section Gateway

variable {R X : Type}

/-- `_seen`, by a call with arguments of fingerprint `afp`. -/
def seen (key afp : String) (klass : ToolClass) : GwProg R X (Option KeyRow) :=
  execute (.seen key afp klass) fun d => (d.gw_keys key, d)

/-- The `INSERT … ON CONFLICT(key) DO UPDATE SET status, result` of `_record`, when the column takes the result. -/
def Db.record (d : Db R) (key args_fp : String) (status : KeyStatus) (klass : ToolClass)
    (result : Option String) : Db R :=
  let row : KeyRow :=
    match d.gw_keys key with
    | none => ⟨some args_fp, status, klass, result⟩
    | some r => { r with status := status, result := result }
  { d with gw_keys := Function.update d.gw_keys key (some row) }

theorem Db.record_of_none {d : Db R} {key : String} (h : d.gw_keys key = none) (args_fp : String)
    (status : KeyStatus) (klass : ToolClass) (result : Option String) :
    (d.record key args_fp status klass result).gw_keys key = some ⟨some args_fp, status, klass, result⟩ := by
  unfold Db.record
  rw [h]
  exact Function.update_self ..

theorem Db.record_of_some {d : Db R} {key : String} {row : KeyRow} (h : d.gw_keys key = some row)
    (args_fp : String) (status : KeyStatus) (klass : ToolClass) (result : Option String) :
    (d.record key args_fp status klass result).gw_keys key =
      some { row with status := status, result := result } := by
  unfold Db.record
  rw [h]
  exact Function.update_self ..

theorem Db.record_status (d : Db R) (key args_fp : String) (status : KeyStatus) (klass : ToolClass)
    (result : Option String) :
    ∃ row, (d.record key args_fp status klass result).gw_keys key = some row ∧ row.status = status := by
  cases h : d.gw_keys key with
  | none => exact ⟨_, record_of_none h _ _ _ _, rfl⟩
  | some row => exact ⟨_, record_of_some h _ _ _ _, rfl⟩

variable [Driver]

/-- `_record(…, in_tx=True)`. -/
def recordInTx (key args_fp : String) (status : KeyStatus) (klass : ToolClass) (result : Json) :
    GwProg R X Unit := do
  let stored ← Prog.ofOption .DataError (Driver.text result)
  execute (.record key status) fun d => ((), d.record key args_fp status klass stored)

/-- `_record`. -/
def record (key args_fp : String) (status : KeyStatus) (klass : ToolClass) (result : Json) : GwProg R X Unit := do
  recordInTx key args_fp status klass result
  commit

variable (tool : Tool R X) (key afp : String) (args : Json)

/-- The mechanism of the tool's class. -/
def perform : GwProg R X Result :=
  match tool.klass with
  | .transactional => do
      tick
      let res ← transaction do
        let res ← tool.callDbEffect key args
        recordInTx key afp .committed .transactional res
        pure res
      tick
      pure ⟨.committed, res, key, .transactional⟩
  | .compensatable => do
      record key afp .prepared .compensatable .null
      tick
      record key afp .effect_started .compensatable .null
      tick
      let res ← tool.callEffect key args
      record key afp .committed .compensatable res
      tick
      pure ⟨.committed, res, key, .compensatable⟩
  | .irreversible => do
      record key afp .prepared .irreversible .null
      tick
      let res ← tool.callEffect key args
      tick
      record key afp .committed .irreversible res
      tick
      pure ⟨.committed, res, key, .irreversible⟩
  | k => do
      let res ← tool.callEffect key args
      tick
      record key afp .committed k res
      tick
      pure ⟨.committed, res, key, k⟩

/-- What is answered for a key that has a row; `none`: the mechanism runs again. -/
def replay (r : KeyRow) : GwProg R X (Option Result) :=
  if r.args_fp.isSome ∧ r.args_fp ≠ some afp then
    .raise .ContentMismatch
  else if r.status = .committed then
    -- the value as the column gives it back
    pure (some ⟨.dedup_hit, Driver.read r.result, key, tool.klass⟩)
  else if r.status = .compensated then
    pure (some ⟨.compensated, .null, key, tool.klass⟩)
  else if tool.klass = .irreversible then
    -- `prepared` or `effect_started`: fail closed
    pure (some ⟨.uncertain, .null, key, tool.klass⟩)
  else if tool.klass = .compensatable ∧ r.status = .effect_started then do
    tool.callCompensate key args
    record key afp .compensated tool.klass .null
    pure (some ⟨.compensated, .null, key, tool.klass⟩)
  else
    pure none

/-- `Gateway.call`. -/
def call (session turn : String) (ordinal : Int) (commit_id : String) : GwProg R X Result := do
  let key := action_id session turn commit_id ordinal
  let afp ← Prog.ofOption .TypeError (args_fingerprint args)
  match ← seen key afp tool.klass with
  | none => perform tool key afp args
  | some r =>
      match ← replay tool key afp args r with
      | some res => pure res
      | none => perform tool key afp args

end Gateway

/-! ## The coordinator -/

section Coordinator

variable [Driver] {R X : Type} (session turn : String)

/-- `TurnWAL.append`. -/
def append (type : WalType) (key : String) : GwProg R X Unit := do
  execute (.append type key) fun d => ((), { d with wal := d.wal ++ [⟨session, turn, type, key⟩] })
  commit

/-- `TurnWAL.has`. -/
def has (type : WalType) : GwProg R X Bool :=
  execute (.has type) fun d =>
    (d.wal.any fun r => r.session = session ∧ r.turn = turn ∧ r.type = type, d)

/-- `if not self.wal.has(…): self.wal.append(…)`. -/
def appendUnlessHas (type : WalType) : GwProg R X Unit := do
  if ← has session turn type then pure () else append session turn type ""

/-- The loop over the plan, from position `ordinal` on. -/
def runActions (commit_id : String) : Nat → List (Tool R X × Json) → GwProg R X (List Result)
  | _, [] => pure []
  | ordinal, (tool, args) :: plan => do
      append session turn .ACTION_PREPARED tool.name
      tick
      let res ← call tool args session turn ordinal commit_id
      append session turn .OBSERVATION_COMMITTED res.key
      tick
      let results ← runActions commit_id (ordinal + 1) plan
      pure (res :: results)

/-- `[(t.name, a) for t, a in plan]`. -/
def planJson (plan : List (Tool R X × Json)) : Json :=
  .arr (plan.map fun step => .arr [.str step.1.name, step.2])

/-- `Coordinator.run_turn`, which is also `recover`. -/
def run_turn (plan : List (Tool R X × Json)) : GwProg R X (List Result) := do
  let commit_id ← Prog.ofOption .TypeError (commit_id_of (planJson plan))
  appendUnlessHas session turn .BEGIN_TURN
  tick
  let results ← runActions session turn commit_id 0 plan
  appendUnlessHas session turn .TURN_COMMITTED
  tick
  pure results

/-- Attempts at a turn, each with the tick at which its clock kills it. What an attempt leaves open is
    rolled back. -/
def attempts (plan : List (Tool R X × Json)) : Serial Nat Stmt (World R X) Exn (List Result) where
  main _ := run_turn session turn plan
  start kill_at w := { w with clock := ⟨0, kill_at⟩ }
  close w := { w with working := w.committed }

end Coordinator

end AgentTx.Gateway
