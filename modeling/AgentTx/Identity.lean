import AgentTx.Lib.Json.Keys
import AgentTx.Lib.Sha256
import AgentTx.Python

/-!
# `Identity` — the identity of an action (`agenttx/identity.py`)

An action is named by its position: the session, the turn, the hash of the plan that decided it, and its
ordinal in that plan. The fingerprint of its arguments is a content check only.
-/

namespace AgentTx

/-- `hashlib.sha256(text.encode()).hexdigest()`. -/
def sha256 (text : String) : String := Sha256.hexdigest (Sha256.encode text)

/-- `json.dumps(args, sort_keys=True)`; `none` is the `TypeError` of keys that do not compare. -/
def canonical_args (args : Json) : Option String := args.dumpsSorted

/-- What `action_id` hashes: `f"{session}|{turn}|{commit_id}|{ordinal}"`. -/
def action_text (session turn commit_id : String) (ordinal : Ordinal) : String :=
  session ++ "|" ++ turn ++ "|" ++ commit_id ++ "|" ++ ordinal.format

def action_id (session turn commit_id : String) (ordinal : Ordinal) : String :=
  sha256 (action_text session turn commit_id ordinal)

def args_fingerprint (args : Json) : Option String := (canonical_args args).map sha256

/-- The hash that stands for the model output that decided `plan`. -/
def commit_id_of (plan : Json) : Option String := (canonical_args plan).map sha256

/-- Arguments whose keys are all strings have a fingerprint. -/
theorem exists_args_fingerprint {args : Json} (h : args.StringKeyed) : ∃ afp, args_fingerprint args = some afp := by
  obtain ⟨text, htext⟩ := h.exists_dumpsSorted
  refine ⟨sha256 text, ?_⟩
  rw [args_fingerprint, canonical_args, htext]
  rfl

theorem exists_commit_id {plan : Json} (h : plan.StringKeyed) : ∃ cid, commit_id_of plan = some cid :=
  exists_args_fingerprint h

end AgentTx
