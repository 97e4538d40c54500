import AgentTx.Gateway.Tools
import AgentTx.Kv.View
import AgentTx.Lib.Prog.Serial

/-!
# `Stack.Protocol` — the whole stack in one turn (`phase5/eval.py`)

A turn charges, writes a receipt, snapshots its KV, decides about the KV and streams its output, with the gateway
under the two tools and a log of its own around them. A trial attempts it until the client has the output: the first
attempt is killed at a tick of its clock, and in one mode the second one too; in another mode the attempts that are
not killed damage a KV block. `main` looks, after each trial, at what it left.
-/

namespace AgentTx.Stack

open Gateway (World Clock Result ChargeRow ChargeTool ReceiptTool Outside GwProg)
open Kv (KvState KvProg Provenance)

/-- `open_sqlite`: the tables are SQLite's. -/
scoped instance driver : Driver := .sqlite

/-! ## What a turn is about

The constants of the script, and what it computes from the order: output, provenance and blocks. -/

def OUT_LEN : Nat := 6

def out_tokens (order : String) : List String := (List.range OUT_LEN).map fun i => order ++ "#t" ++ toString i

def prov_of (order : String) : Provenance where
  model := "m"
  tokenizer := "tok"
  dtype := "bf16"
  block_size := 16
  num_layers := 32
  num_kv_heads := 8
  head_dim := 128
  rope := "theta=5e5"
  adapter := ""
  prefix_hash := Kv.sha256_hex (Sha256.encode order)

/-- `[t.encode() for t in out_tokens(order)]`. -/
def blocks (order : String) : List (List UInt8) := (out_tokens order).map Sha256.encode

def chargeArgs (order : String) : Json := .obj [(.str "order", .str order), (.str "amount", .int 100)]

def receiptArgs (order : String) : Json := .obj [(.str "order", .str order)]

/-! ## What there is

One node: the tables and files of the gateway, its log, the KV and the client. The parts are those of the other
models, put side by side. -/

/-- `wal.type`. -/
inductive WalType where
  | BEGIN_TURN
  | OBSERVATION
  | TURN_COMMITTED
  deriving DecidableEq, Repr

/-- A row of `wal`; its `lsn` is its position. -/
structure WalRow where
  turn : String
  type : WalType
  key : String
  deriving DecidableEq, Repr

/-- `client`. -/
structure Client where
  ack : Nat
  recv : List String
  dup : Nat
  deriving DecidableEq, Repr

def Client.new : Client := ⟨0, [], 0⟩

/-- A token arrives. -/
def Client.deliver (c : Client) (seq : Nat) (tok : String) : Client :=
  if seq = c.ack + 1 then { c with recv := c.recv ++ [tok], ack := seq }
  else if seq ≤ c.ack then { c with dup := c.dup + 1 }
  else c

/-- The tables and files of the gateway, the log, the KV view, and the client. -/
structure Node where
  world : World ChargeRow (Outside Unit)
  wal : List WalRow
  kv : KvState
  client : Client

/-- What a statement is part of. -/
inductive Stmt where
  | connect
  | close
  | gateway
  | append (type : WalType)
  | kv
  | damage
  | restore
  | client
  | deliver
  | look
  deriving DecidableEq

abbrev NodeProg := Prog Stmt Node Exn

def onWorld {α : Type} (p : GwProg ChargeRow (Outside Unit) α) : NodeProg α :=
  p.zoom .gateway Node.world (fun w n => { n with world := w }) id

def onKv {α : Type} (p : KvProg α) : NodeProg α := p.zoom .kv Node.kv (fun s n => { n with kv := s }) id

/-! ## A turn

The programs of the gateway and of the KV run in their parts of the node (`onWorld`, `onKv`). -/

section Turn

/-- `clock.tick()`. -/
def tick : NodeProg Unit := onWorld Gateway.tick

/-- `INSERT OR IGNORE INTO wal`, and its commit. No two rows conflict, so that none is ignored. -/
def append (turn : String) (type : WalType) (key : String) : NodeProg Unit :=
  Prog.modify (.append type) fun n =>
    { n with wal := n.wal ++ [⟨turn, type, key⟩], world := { n.world with committed := n.world.working } }

/-- An observation, only of a committed effect. -/
def observe (turn : String) (r : Result) : NodeProg Unit :=
  if r.status = .committed ∨ r.status = .dedup_hit then append turn .OBSERVATION r.key else pure ()

/-- `m["blocks"]`. -/
def manifestBlocks (m : Json) : Except Exn (List Json) := do iterate (← subscript m "blocks")

/-- The first byte of a block file is flipped, if `corrupt_kv` says so and there is a block. -/
def corrupt (corrupt_kv : Bool) (m : Json) : NodeProg Unit := do
  let hs ← Prog.ofExcept (manifestBlocks m)
  match corrupt_kv, hs with
  | true, .str h :: _ => do
      let raw ← Prog.read .damage fun n => n.kv.cas.read (Kv.BlockCAS.path h)
      match raw with
      | none => .raise .FileNotFoundError
      | some [] => .raise (.raised "IndexError")
      | some (b :: bs) => onKv do
          let f ← Prog.openTrunc (Kv.BlockCAS.path h)
          Prog.writeBytes f 0 ((b ^^^ 0xFF) :: bs)
  | _, _ => pure ()

/-- Stream the tokens from number `resume_from` on; numbers count from 1. -/
def stream_committed (tokens : List String) (resume_from : Nat) : NodeProg Unit :=
  Prog.forEach (List.range' resume_from (tokens.length + 1 - resume_from)) fun seq => do
    tick
    let tok ← Prog.ofOption (.raised "IndexError") tokens[seq - 1]?
    Prog.modify .deliver fun n => { n with client := n.client.deliver seq tok }
    tick

variable (str : Json → String) (store order turn : String)

def run_turn (corrupt_kv : Bool) : NodeProg Unit := do
  append turn .BEGIN_TURN ""
  tick
  let r1 ← onWorld (Gateway.call (ChargeTool str (Outside Unit)) (chargeArgs order) "s" turn 0 "c")
  observe turn r1
  tick
  let r2 ← onWorld (Gateway.call (ReceiptTool str store) (receiptArgs order) "s" turn 1 "c")
  observe turn r2
  tick
  let m ← onKv (Kv.snapshot turn (prov_of order) (blocks order))
  corrupt corrupt_kv m
  tick
  -- the decision only: the output is streamed from the log in any case
  let rr ← Prog.read .restore fun n => Kv.restore n.kv turn (prov_of order)
  let _ ← Prog.ofExcept rr
  let ack ← Prog.read .client fun n => n.client.ack
  stream_committed (out_tokens order) (ack + 1)
  append turn .TURN_COMMITTED ""
  tick

/-- Attempts at the turn, each with the tick at which its clock kills it, and whether it damages the KV. What an
    attempt leaves open is rolled back. -/
def attempts : Serial (Nat × Bool) Stmt Node Exn Unit where
  main k := run_turn str store order turn k.2
  start k n := { n with world := { n.world with clock := ⟨0, k.1⟩ } }
  close n := { n with world := { n.world with working := n.world.committed } }

end Turn

/-! ## Trials

What the script draws at random is a parameter: the mode of a trial, and the ticks at which its attempts are killed. -/

/-- `modes`, without their weights. -/
inductive Mode where
  | crash
  | recovery_crash
  | kv_corrupt
  deriving DecidableEq, Repr

def MAXT : Nat := 24

/-- `rng.randint(1, MAXT)`. -/
abbrev Kill := {k : Nat // 1 ≤ k ∧ k ≤ MAXT}

/-- What the random generator draws for a trial: the mode, and the ticks of the crashes. -/
structure Draw where
  mode : Mode
  crash : Kill
  recovery : Kill

section Trial

variable (str : Json → String) (store : String)

/-- `attempt`: on new connections; a `Crash` is caught, and what is open is rolled back in any case. -/
def attempt (order turn : String) (corrupt : Bool) (kill : Nat) : NodeProg Unit := do
  Prog.modify .connect fun n => { n with world := { n.world with clock := ⟨0, kill⟩ } }
  let rollback : NodeProg Unit :=
    Prog.modify .close fun n => { n with world := { n.world with working := n.world.committed } }
  Prog.tryCatch (run_turn str store order turn (corrupt && kill == 0)) fun e => do
    if e = .Crash then pure () else do
      rollback
      .raise e
  rollback

/-- `for _ in range(n)`: recover, until the stream is complete. -/
def recoverLoop (order turn : String) (corrupt : Bool) : Nat → NodeProg Unit
  | 0 => pure ()
  | n + 1 => do
      let ack ← Prog.read .look fun n => n.client.ack
      if OUT_LEN ≤ ack then pure ()
      else do
        attempt str store order turn corrupt 0
        recoverLoop order turn corrupt n

def trial (order turn : String) (d : Draw) : NodeProg Unit := do
  Prog.modify .client fun n => { n with client := .new }
  let corrupt := d.mode == .kv_corrupt
  attempt str store order turn corrupt d.crash
  if d.mode = .recovery_crash then attempt str store order turn corrupt d.recovery else pure ()
  recoverLoop str store order turn corrupt 40

/-- `bad`. -/
structure Bad where
  dup_charge : Nat
  lost_charge : Nat
  dup_receipt : Nat
  lost_receipt : Nat
  ghost_observation : Nat
  stream_not_exactly_once : Nat
  deriving DecidableEq, Repr

def Bad.zero : Bad := ⟨0, 0, 0, 0, 0, 0⟩

/-- `SELECT COUNT(*) FROM charges WHERE order_id=?`. -/
def charged (order : String) (n : Node) : Nat :=
  n.world.committed.app.countP fun row => Kv.isText row.order_id order

/-- Whether the receipt of the turn is there. -/
def receipted (turn : String) (n : Node) : Nat :=
  if n.world.ext.files.pathExists (ReceiptTool.final store (action_id "s" turn "c" (.int 1))) then 1 else 0

/-- `st and st[0] in ("committed",)`. -/
def isCommitted (n : Node) (key : String) : Bool :=
  match n.world.committed.gw_keys key with
  | some r => r.status = .committed
  | none => false

/-- An observation of the turn is of a key that is not committed. -/
def ghost (turn : String) (n : Node) : Bool :=
  n.wal.any fun row => row.turn = turn && row.type = .OBSERVATION && !isCommitted n row.key

/-- What `main` counts after a trial. -/
def Bad.count (b : Bad) (order turn : String) (n : Node) : Bad where
  dup_charge := b.dup_charge + if charged order n > 1 then 1 else 0
  lost_charge := b.lost_charge + if charged order n < 1 then 1 else 0
  dup_receipt := b.dup_receipt + if receipted store turn n > 1 then 1 else 0
  lost_receipt := b.lost_receipt + if receipted store turn n < 1 then 1 else 0
  ghost_observation := b.ghost_observation + if ghost turn n then 1 else 0
  stream_not_exactly_once := b.stream_not_exactly_once + if n.client.recv ≠ out_tokens order then 1 else 0

/-- `f"O{i}"` and `f"T{i}"`. -/
def orderOf (i : Nat) : String := "O" ++ toString i

def turnOf (i : Nat) : String := "T" ++ toString i

/-- The trials from number `i` on. -/
def trials (b : Bad) : Nat → List Draw → NodeProg Bad
  | _, [] => pure b
  | i, d :: ds => do
      trial str store (orderOf i) (turnOf i) d
      let n ← Prog.read .look id
      trials (b.count store (orderOf i) (turnOf i) n) (i + 1) ds

/-- `main`: what it counts, and whether the evaluation passes. -/
def main (draws : List Draw) : NodeProg (Bad × Bool) := do
  let bad ← trials str store .zero 0 draws
  pure (bad, bad = .zero)

end Trial

end AgentTx.Stack
