import AgentTx.Gate1.Damage

/-!
# `Gate1.Audit` — the audit and its verdict

`audit` runs each orchestrator with a worker that exits at each of the named points, and with another after it if the
first one failed. What it counts follows from `Gate1.Damage`, for any number of trials (`audit_verdict`).
-/

namespace AgentTx.Gate1

/-! ## The driver -/

def Orch.name : Orch → String
  | .none => "none"
  | .checkpoint => "checkpoint"
  | .dbos => "dbos"
  | .agenttx => "agenttx"

def Point.name : Point → String
  | .none => "none"
  | .pre_charge => "pre_charge"
  | .post_charge_pre_record => "post_charge_pre_record"
  | .post_charge_record => "post_charge_record"
  | .post_receipt_pre_record => "post_receipt_pre_record"
  | .post_receipt_record => "post_receipt_record"

/-- `{"CORRECT": 0, "DUPLICATE": 0, "LOST": 0}`, and what was added to it. -/
structure Tally where
  CORRECT : Nat
  DUPLICATE : Nat
  LOST : Nat
  deriving DecidableEq, Repr

def Tally.zero : Tally := ⟨0, 0, 0⟩

/-- `results[orch][point][…] += 1`. -/
def Tally.add (t : Tally) : Outcome → Tally
  | .CORRECT => { t with CORRECT := t.CORRECT + 1 }
  | .DUPLICATE => { t with DUPLICATE := t.DUPLICATE + 1 }
  | .LOST => { t with LOST := t.LOST + 1 }

/-- The store of a trial. -/
def storeOf (orch : Orch) (point : Point) (t : Nat) : String :=
  "/tmp/agenttx_g1/" ++ orch.name ++ "_" ++ point.name ++ "_" ++ toString t

/-- One trial, on an empty store: a worker, and if it fails, one that recovers. -/
noncomputable def trial (uuid : Nat → String) (store : String) (orch : Orch) (point : Point) : Option Outcome :=
  match (RUNNERS uuid store point orch).run start with
  | Option.none => Option.none
  | some (.ok _, w) => some (classify store w.close)
  | some (.error _, w) =>
    ((RUNNERS uuid store .none orch).run w.close).map fun r => classify store r.2.close

/-- `audit`, one entry of its table. `uuid` has the names that are drawn in each trial. -/
noncomputable def audit (uuid : Orch → Point → Nat → Nat → String) (trials : Nat) (orch : Orch) (point : Point) :
    Option Tally :=
  (List.range trials).foldlM
    (fun tally t => (trial (uuid orch point t) (storeOf orch point t) orch point).map tally.add) Tally.zero

/-- `fails(o)`. -/
def fails (res : Orch → Point → Tally) (o : Orch) : Bool :=
  POINTS.any fun p => (res o p).DUPLICATE ≠ 0 ∨ (res o p).LOST ≠ 0

structure Verdict where
  naive_baselines_fail : Bool
  dbos_fails_on_nontransactional : Bool
  dbos_exactly_once_on_transactional : Bool
  agenttx_exactly_once_both : Bool
  GATE1A_PASS : Bool
  deriving DecidableEq, Repr

/-- The verdict of `main`. -/
def verdict (trials : Nat) (res : Orch → Point → Tally) : Verdict :=
  let naive_baselines_fail := fails res .none && fails res .checkpoint
  let dbos_fails_on_nontransactional := decide ((res .dbos .post_receipt_pre_record).DUPLICATE > 0)
  let dbos_exactly_once_on_transactional := decide ((res .dbos .post_charge_pre_record).CORRECT = trials)
  let agenttx_exactly_once_both := !fails res .agenttx
  ⟨naive_baselines_fail, dbos_fails_on_nontransactional, dbos_exactly_once_on_transactional,
    agenttx_exactly_once_both, naive_baselines_fail && dbos_fails_on_nontransactional && agenttx_exactly_once_both⟩

/-! ## What it counts -/

/-- The points at which an exit makes an effect twice. -/
def Orch.duplicates : Orch → List Point
  | .none => [.post_charge_pre_record, .post_charge_record, .post_receipt_pre_record, .post_receipt_record]
  | .checkpoint => [.post_charge_pre_record, .post_receipt_pre_record]
  | .dbos => [.post_receipt_pre_record]
  | .agenttx => []

variable {uuid : Nat → String} {store : String} {o : Orch} {p : Point}

/-- **A trial.** -/
theorem trial_eq (huuid : uuid 0 ≠ uuid 1) :
    trial uuid store o p = some (if p ∈ o.duplicates then .DUPLICATE else .CORRECT) := by
  have hfresh : Killed uuid store o [] start := .fresh (start_fresh store)
  have hinj : Set.InjOn uuid (Set.Iic 1) := injOn_of_ne huuid
  have hzero : Set.InjOn uuid (Set.Iic 0) := hinj.mono (Set.Iic_subset_Iic.mpr (Nat.zero_le 1))
  unfold trial
  by_cases hp : p = .none
  · subst hp
    obtain ⟨w', hrun, hclose, horacle, -⟩ := hfresh.finishes hzero
    rw [hrun]
    show some (classify store w'.close) = _
    rw [hclose, classify, horacle]
    cases o <;> rfl
  · obtain ⟨res, w, hrun, hdone, -⟩ := (attempt_ends (k := p) hzero (start_fresh store).at).run
    cases res with
    | ok a => exact absurd ((hdone a rfl).2 rfl rfl) hp
    | error e =>
      obtain ⟨w', hrun', hclose, horacle, -⟩ := (Killed.exit p hfresh hrun).finishes hinj
      rw [hrun]
      show ((RUNNERS uuid store .none o).run w.close).map _ = _
      rw [hrun']
      show some (classify store w'.close) = _
      rw [hclose, classify, horacle]
      cases p with
      | none => exact absurd rfl hp
      | _ => cases o <;> rfl

theorem audit_eq {uuid : Orch → Point → Nat → Nat → String} (huuid : ∀ o p t, uuid o p t 0 ≠ uuid o p t 1)
    (trials : Nat) (o : Orch) (p : Point) :
    audit uuid trials o p = some (if p ∈ o.duplicates then ⟨0, trials, 0⟩ else ⟨trials, 0, 0⟩) := by
  unfold audit
  induction trials with
  | zero => split_ifs <;> rfl
  | succ n ih =>
    rw [List.range_succ, List.foldlM_append, ih]
    show ((trial _ _ o p).map _ >>= _) = _
    rw [trial_eq (huuid o p n)]
    split_ifs <;> rfl

/-- **Headline.** For any number of trials, whatever names are drawn: an exit makes an effect twice in every trial or
    in none, nothing is lost, and the gate passes when there is a trial at all. -/
theorem audit_verdict {uuid : Orch → Point → Nat → Nat → String} (huuid : ∀ o p t, uuid o p t 0 ≠ uuid o p t 1)
    (trials : Nat) :
    ∃ results : Orch → Point → Tally, (∀ o p, audit uuid trials o p = some (results o p)) ∧
      (∀ o p, results o p = if p ∈ o.duplicates then ⟨0, trials, 0⟩ else ⟨trials, 0, 0⟩) ∧
      verdict trials results = ⟨0 < trials, 0 < trials, true, true, 0 < trials⟩ := by
  refine ⟨_, audit_eq huuid trials, fun _ _ => rfl, ?_⟩
  simp [verdict, fails, POINTS, Orch.duplicates, Nat.pos_iff_ne_zero]

theorem audit_verdict_twenty :
    ∃ results : Orch → Point → Tally, (∀ o p, audit (fun _ _ _ => drawn) 20 o p = some (results o p)) ∧
      (verdict 20 results).GATE1A_PASS = true := by
  obtain ⟨results, haudit, -, hverdict⟩ := @audit_verdict (fun _ _ _ => drawn) (fun _ _ _ => by decide) 20
  exact ⟨results, haudit, by rw [hverdict]; rfl⟩

end AgentTx.Gate1
