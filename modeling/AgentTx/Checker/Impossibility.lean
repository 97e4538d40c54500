import AgentTx.Checker.Turn

/-!
# `Checker.Impossibility` — no recovery makes a raw effect exactly-once

The effect of a turn fires in an operation of its own and is not idempotent. Just before that operation and
just after it the log is the same (`wal_fire`), so that a recovery that sees nothing but the log does the
same in both worlds, and fires the effect as often. It cannot be right in both.
-/

namespace AgentTx.Checker.Turn

/-- The operations `ops` one after the other, when the effect is not idempotent. -/
def runOps (key : String) (ops : List Op) (w : World) : World :=
  ops.foldl (fun w op => apply_op w op key false) w

/-- The operation fires the effect. -/
def Op.fires : Op → Bool
  | .effect | .effect_commit => true
  | _ => false

variable {key : String} {w : World}

/-- The effect leaves no trace in the log. -/
theorem wal_fire (w : World) (key : String) : (w.fire key).wal = w.wal := rfl

theorem apply_effect (w : World) : apply_op w .effect key false = w.fire key := by
  simp [apply_op]

/-- **Step.** An operation fires the effect once or not at all, whatever happened before. -/
theorem effects_apply_op (w : World) (op : Op) :
    (apply_op w op key false).effects key = w.effects key + if op.fires then 1 else 0 := by
  cases op with
  | begin => rfl
  | effect_commit => exact fire_self
  | effect =>
    rw [apply_effect]
    exact fire_self
  | commit => rfl
  | observe => rfl
  | turn_commit => rfl

/-- **Run.** So does a list of operations fire it. -/
theorem effects_runOps (ops : List Op) (w : World) :
    (runOps key ops w).effects key = w.effects key + ops.countP Op.fires := by
  induction ops generalizing w with
  | nil => rfl
  | cons op ops ih =>
    have hrest : (runOps key (op :: ops) w).effects key =
        (apply_op w op key false).effects key + ops.countP Op.fires := ih _
    rw [hrest, effects_apply_op, List.countP_cons]
    omega

theorem runOps_concat (ops : List Op) (op : Op) (w : World) :
    runOps key (ops ++ [op]) w = apply_op (runOps key ops w) op key false := by
  simp [runOps]

/-- **Impossibility.** The effect is one operation of the turn and every other operation only writes to the
    log. Then, whatever the turn writes and whatever a recovery does on the strength of the log, there is a
    crash after which the effect has not fired exactly once. -/
theorem not_exactly_once (key : String) (ops : List Op) (hone : ops.count .effect = 1)
    (hnone : Op.effect_commit ∉ ops) (policy : List Rec → List Op) :
    ∃ n ≤ ops.length,
      (runOps key (policy (runOps key (ops.take n) .empty).wal) (runOps key (ops.take n) .empty)).effects key ≠ 1 := by
  have hmem : Op.effect ∈ ops := List.count_pos_iff.mp (by omega)
  obtain ⟨before, after, rfl⟩ := List.append_of_mem hmem
  have hquiet : before.countP Op.fires = 0 := by
    rw [List.countP_eq_zero]
    intro op hop hfires
    cases op with
    | effect =>
      have hpos : 0 < before.count .effect := List.count_pos_iff.mpr hop
      rw [List.count_append, List.count_cons_self] at hone
      omega
    | effect_commit => exact hnone (List.mem_append_left _ hop)
    | begin => cases hfires
    | commit => cases hfires
    | observe => cases hfires
    | turn_commit => cases hfires
  let w := runOps key before .empty
  have hfresh : w.effects key = 0 := by
    rw [effects_runOps, hquiet]
    rfl
  -- the two crashes, before and after the effect
  have htake : (before ++ .effect :: after).take before.length = before := List.take_left
  have htake' : (before ++ .effect :: after).take (before.length + 1) = before ++ [.effect] := by
    rw [List.take_append, Nat.add_sub_cancel_left, List.take_of_length_le (Nat.le_succ _)]
    rfl
  by_cases hbefore : (runOps key (policy w.wal) w).effects key = 1
  · refine ⟨before.length + 1, ?_, ?_⟩
    · rw [List.length_append, List.length_cons]
      omega
    · rw [htake', runOps_concat, apply_effect]
      show (runOps key (policy (w.fire key).wal) (w.fire key)).effects key ≠ 1
      rw [wal_fire, effects_runOps, fire_self]
      rw [effects_runOps] at hbefore
      omega
  · refine ⟨before.length, ?_, ?_⟩
    · rw [List.length_append]
      omega
    · rw [htake]
      exact hbefore

/-- The turn of the checker with a raw effect, and a recovery that never fires it. -/
theorem not_exactly_once_turn :
    ∃ n ≤ (turn_ops false).length,
      (runOps "a1" [] (runOps "a1" ((turn_ops false).take n) .empty)).effects "a1" ≠ 1 :=
  not_exactly_once "a1" (turn_ops false) rfl (by decide) fun _ => []

end AgentTx.Checker.Turn
