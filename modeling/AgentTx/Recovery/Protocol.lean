import AgentTx.Gateway.Turn
import AgentTx.Kv.Restore

/-!
# `Recovery.Protocol` — the recovery coordinator (`agenttx/recovery.py`)

`RecoveryCoordinator` puts the tools (the coordinator over the gateway and the WAL) and the KV view together.
`commit_turn` runs a turn and then snapshots its KV; `recover_turn` first decides what to do about the KV and
then runs the turn again. A turn's manifest is filed under the text `session/turn`.
-/

namespace AgentTx.Recovery

open Gateway (World Tool Result GwProg)
open Kv (KvState Plane Provenance Reason RestoreResult)

/-- `_lsn`. -/
def lsn (session turn : String) : String := session ++ "/" ++ turn

/-- How a reason is written. -/
def reasonText : Reason → String
  | .ok => ""
  | .provenance_mismatch => "provenance_mismatch"
  | .block_corrupt_or_missing => "block_corrupt_or_missing"
  | .manifest_missing => "manifest_missing"

/-- What `recover_turn` returns. -/
structure Recovered where
  kv_action : String
  kv_restored : Bool
  kv_reason : Reason
  n_kv_blocks : Nat
  deriving DecidableEq, Repr

/-- What is reported of a KV decision. -/
def report (rr : RestoreResult) : Recovered :=
  let restored := decide (rr.status = .RESTORED)
  ⟨if restored then "restore" else "recompute(" ++ reasonText rr.reason ++ ")", restored, rr.reason,
    rr.blocks.length⟩

variable [Driver] {R X : Type}

/-- `recover_turn`, on a KV plane that is as `kv` says. `recover` is `run_turn`. -/
def recover_turn (loads : String → Except Exn Json) (kv : Plane) (session turn : String)
    (plan : List (Tool R X × Json)) (current_prov : Provenance) : GwProg R X Recovered := do
  let rr ← Prog.ofExcept (kv.restore loads (lsn session turn) current_prov)
  let _ ← Gateway.run_turn session turn plan
  pure (report rr)

/-! ## Calls on one node -/

/-- A call on the recovery coordinator. -/
inductive Call (R X : Type) where
  | commit_turn (session turn : String) (plan : List (Tool R X × Json)) (prov : Provenance)
      (kv_blocks : List (List UInt8))
  | recover_turn (session turn : String) (plan : List (Tool R X × Json)) (current_prov : Provenance)

/-- What a call returns: the results of the actions and the manifest, or what was recovered. -/
inductive Returned where
  | committed (results : List Result) (manifest : Json)
  | recovered (r : Recovered)

/-- The tools and the stores of the KV view; and which calls have been made, which nothing reads. -/
structure Node (ι R X : Type) where
  world : World R X
  kv : KvState
  started : List ι

/-- What a statement is part of. -/
inductive Stmt where
  | run (session turn : String)
  | snapshot (session turn : String)
  | restore (session turn : String)
  deriving DecidableEq

section Node

variable {ι : Type}

abbrev NodeProg (ι R X α : Type) := Prog Stmt (Node ι R X) Exn α

/-- A program on the tools. -/
def onWorld {α : Type} (session turn : String) (p : GwProg R X α) : NodeProg ι R X α :=
  p.zoom (.run session turn) Node.world (fun w n => { n with world := w }) id

/-- A program on the KV view. -/
def onKv {α : Type} (session turn : String) (p : Kv.KvProg α) : NodeProg ι R X α :=
  p.zoom (.snapshot session turn) Node.kv (fun s n => { n with kv := s }) id

omit [Driver] in
theorem run_onWorld {α : Type} (session turn : String) (p : GwProg R X α) (n : Node ι R X) :
    (onWorld session turn p).run n = (p.run n.world).map fun r => (r.1.mapError id, { n with world := r.2 }) :=
  Prog.run_zoom _ Node.world (fun w n => { n with world := w }) _ (fun _ _ => rfl) (fun _ _ _ => rfl)
    (fun _ => rfl) p n

omit [Driver] in
theorem run_onKv {α : Type} (session turn : String) (p : Kv.KvProg α) (n : Node ι R X) :
    (onKv session turn p).run n = (p.run n.kv).map fun r => (r.1.mapError id, { n with kv := r.2 }) :=
  Prog.run_zoom _ Node.kv (fun s n => { n with kv := s }) _ (fun _ _ => rfl) (fun _ _ _ => rfl)
    (fun _ => rfl) p n

/-- The methods. -/
def Call.run : Call R X → NodeProg ι R X Returned
  | .commit_turn session turn plan prov kv_blocks => do
      let results ← onWorld session turn (Gateway.run_turn session turn plan)
      let manifest ← onKv session turn (Kv.snapshot (lsn session turn) prov kv_blocks)
      pure (.committed results manifest)
  | .recover_turn session turn plan current_prov => do
      let kv ← Prog.read (.restore session turn) fun n => n.kv.plane
      let r ← onWorld session turn (Recovery.recover_turn json_loads kv session turn plan current_prov)
      pure (.recovered r)

/-- Calls, one after the other and in any order, each with the tick at which its clock kills it. What a
    call leaves open in the database is rolled back. -/
def node (calls : ι → Call R X) : Serial (ι × Nat) Stmt (Node ι R X) Exn Returned where
  main k := (calls k.1).run
  start k n := { n with world := { n.world with clock := ⟨0, k.2⟩ }, started := n.started ++ [k.1] }
  close n := { n with world := { n.world with working := n.world.committed } }

end Node

end AgentTx.Recovery
