import AgentTx.Gateway.Protocol

/-!
# `Gateway.Alone` — the operations of the gateway from a world with no open transaction

How an operation ends, and the world it leaves: `settled` again.
-/

namespace AgentTx.Gateway

variable {R X : Type}

/-- No transaction is open. -/
def settled (d : Db R) (x : X) (clk : Clock) : World R X := ⟨d, d, x, clk⟩

@[simp] theorem settled_committed (d : Db R) (x : X) (clk : Clock) : (settled d x clk).committed = d := rfl

variable {d : Db R} {x : X} {clk : Clock} {session turn key afp : String}

@[simp] theorem run_append (type : WalType) : (append session turn type key).run (settled d x clk) =
    some (.ok (), settled { d with wal := d.wal ++ [⟨session, turn, type, key⟩] } x clk) := rfl

@[simp] theorem run_has (type : WalType) : (has session turn type).run (settled d x clk) =
    some (.ok (d.wal.any fun r => r.session = session ∧ r.turn = turn ∧ r.type = type), settled d x clk) := rfl

@[simp] theorem run_seen (klass : ToolClass) : (seen key afp klass).run (settled d x clk) =
    some (.ok (d.gw_keys key), settled d x clk) := rfl

/-- A tick that does not kill. -/
theorem run_tick (h : clk.kill_at = 0 ∨ clk.n + 1 ≠ clk.kill_at) :
    (tick : GwProg R X Unit).run (settled d x clk) =
      some (.ok (), settled d x { clk with n := clk.n + 1 }) := by
  have hkill : ¬ (clk.kill_at ≠ 0 ∧ clk.n + 1 = clk.kill_at) := by
    rintro ⟨hne, heq⟩
    exact h.elim hne fun h => h heq
  simp [tick, settled, hkill]

/-- The tick that kills. -/
theorem run_tick_crash (h : clk.kill_at = clk.n + 1) :
    (tick : GwProg R X Unit).run (settled d x clk) =
      some (.error .Crash, settled d x { clk with n := clk.n + 1 }) := by
  simp [tick, settled, h]

/-- A new key gets the row recorded. -/
theorem record_new (h : d.gw_keys key = none) (status : KeyStatus) (klass : ToolClass)
    (result : Option String) :
    d.record key afp status klass result =
      { d with gw_keys := Function.update d.gw_keys key (some ⟨some afp, status, klass, result⟩) } := by
  simp [Db.record, h]

theorem record_gw_keys_of_ne {status : KeyStatus} {klass : ToolClass} {result : Option String} {k : String}
    (h : k ≠ key) : (d.record key afp status klass result).gw_keys k = d.gw_keys k := Function.update_of_ne h ..

/-- A tool's program changes the outside world only. -/
theorem run_outside {α : Type} {p : Prog Unit X String α} {v : α} {x' : X}
    (h : p.run x = some (.ok v, x')) :
    (outside key p : GwProg R X α).run (settled d x clk) = some (.ok v, settled d x' clk) := by
  induction p generalizing x with
  | ret a =>
    cases h
    rfl
  | raise e => cases h
  | op t act k ih =>
    obtain ⟨⟨b, x₁⟩, hact, hrest⟩ := Option.bind_eq_some_iff.mp h
    have hhead : ((act x).map fun r => (r.1, settled d r.2 clk)) = some (b, settled d x₁ clk) := by
      rw [hact]
      rfl
    show ((act x).map fun r => (r.1, settled d r.2 clk)).bind _ = _
    rw [hhead]
    exact ih b hrest

section Calls

variable [Driver] {tool : Tool R X} {args : Json} {ordinal : Int} {cid : String}

/-- A result that the column takes. -/
theorem run_record {v : Json} {stored : Option String} (h : Driver.text v = some stored) (status : KeyStatus)
    (klass : ToolClass) : (record key afp status klass v).run (settled d x clk) =
      some (.ok (), settled (d.record key afp status klass stored) x clk) := by
  unfold record recordInTx
  rw [h]
  rfl

@[simp] theorem run_record_null (status : KeyStatus) (klass : ToolClass) :
    (record key afp status klass .null).run (settled d x clk) =
      some (.ok (), settled (d.record key afp status klass none) x clk) := run_record Driver.text_null status klass

/-- `Gateway.call` of a transactional tool whose key is new. -/
theorem run_call_new {v : Json} {stored : Option String} {rows : List R} (hclk : clk.kill_at = 0)
    (hk : tool.klass = .transactional)
    (hafp : args_fingerprint args = some afp)
    (hnone : d.gw_keys (action_id session turn cid ordinal) = none)
    (heffect : tool.db_effect (action_id session turn cid ordinal) args d.app = .ok (v, rows))
    (hstored : Driver.text v = some stored) :
    (call tool args session turn ordinal cid).run (settled d x clk) =
      some (.ok ⟨.committed, v, action_id session turn cid ordinal, .transactional⟩,
        settled (Db.record { d with app := d.app ++ rows } (action_id session turn cid ordinal) afp .committed
          .transactional stored) x { clk with n := clk.n + 2 }) := by
  have htick : ∀ {d : Db R} {n : Nat}, (tick : GwProg R X Unit).run (settled d x ⟨n, clk.kill_at⟩) =
      some (.ok (), settled d x ⟨n + 1, clk.kill_at⟩) := run_tick (Or.inl hclk)
  have htx : (transaction do
        let res ← tool.callDbEffect (action_id session turn cid ordinal) args
        recordInTx (action_id session turn cid ordinal) afp .committed .transactional res
        pure res).run (settled d x ⟨clk.n + 1, clk.kill_at⟩) =
      some (.ok v, settled (Db.record { d with app := d.app ++ rows } (action_id session turn cid ordinal) afp
        .committed .transactional stored) x ⟨clk.n + 1, clk.kill_at⟩) := by
    simp [transaction, Tool.callDbEffect, execute, settled, heffect, recordInTx, hstored, commit]
  have hstart : settled d x clk = settled d x ⟨clk.n, clk.kill_at⟩ := rfl
  rw [hstart]
  simp [call, hafp, hnone, perform, hk, htick, htx]

/-- `Gateway.call` of an overlay, idempotent or pure tool whose key is new. -/
theorem run_call_direct {v : Json} {stored : Option String} {x' : X} (hclk : clk.kill_at = 0)
    (hk : tool.klass = .overlay ∨ tool.klass = .idempotent ∨ tool.klass = .pure)
    (hafp : args_fingerprint args = some afp)
    (hnone : d.gw_keys (action_id session turn cid ordinal) = none)
    (heffect : (tool.effect (action_id session turn cid ordinal) args).run x = some (.ok v, x'))
    (hstored : Driver.text v = some stored) :
    (call tool args session turn ordinal cid).run (settled d x clk) =
      some (.ok ⟨.committed, v, action_id session turn cid ordinal, tool.klass⟩,
        settled (d.record (action_id session turn cid ordinal) afp .committed tool.klass stored) x'
          { clk with n := clk.n + 2 }) := by
  have htick : ∀ {d : Db R} {x : X} {n : Nat}, (tick : GwProg R X Unit).run (settled d x ⟨n, clk.kill_at⟩) =
      some (.ok (), settled d x ⟨n + 1, clk.kill_at⟩) := run_tick (Or.inl hclk)
  have hcall : (tool.callEffect (action_id session turn cid ordinal) args).run (settled d x ⟨clk.n, clk.kill_at⟩) =
      some (.ok v, settled d x' ⟨clk.n, clk.kill_at⟩) := by
    simp [Tool.callEffect, run_outside heffect]
  have hstart : settled d x clk = settled d x ⟨clk.n, clk.kill_at⟩ := rfl
  rw [hstart]
  rcases hk with hk | hk | hk <;> simp [call, hafp, hnone, perform, hk, hcall, htick, run_record hstored]

/-- A program runs to its end, and the clock does not kill. -/
def Finishes {α : Type} (p : GwProg R X α) (d : Db R) (x : X) (n : Nat) : Prop :=
  ∃ a d' x' n', p.run (settled d x ⟨n, 0⟩) = some (.ok a, settled d' x' ⟨n', 0⟩)

theorem finishes_runActions_nil (o n : Nat) :
    Finishes (runActions session turn cid o ([] : List (Tool R X × Json))) d x n := ⟨_, _, _, _, rfl⟩

/-- One action after the other. -/
theorem finishes_runActions_cons {plan : List (Tool R X × Json)} {o n n' : Nat} {res : Result} {d' : Db R} {x' : X}
    (hcall : (call tool args session turn o cid).run
      (settled { d with wal := d.wal ++ [⟨session, turn, .ACTION_PREPARED, tool.name⟩] } x ⟨n + 1, 0⟩) =
        some (.ok res, settled d' x' ⟨n', 0⟩))
    (hrest : Finishes (runActions session turn cid (o + 1) plan)
      { d' with wal := d'.wal ++ [⟨session, turn, .OBSERVATION_COMMITTED, res.key⟩] } x' (n' + 1)) :
    Finishes (runActions session turn cid o ((tool, args) :: plan)) d x n := by
  have htick : ∀ {d : Db R} {x : X} {n : Nat}, (tick : GwProg R X Unit).run (settled d x ⟨n, 0⟩) =
      some (.ok (), settled d x ⟨n + 1, 0⟩) := run_tick (Or.inl rfl)
  obtain ⟨results, d'', x'', n'', hrest⟩ := hrest
  refine ⟨res :: results, d'', x'', n'', ?_⟩
  simp [runActions, htick, hcall, hrest]

/-- The turn around the actions, when it has not begun. -/
theorem finishes_run_turn {plan : List (Tool R X × Json)} {n : Nat} (hcid : commit_id_of (planJson plan) = some cid)
    (hwal : d.wal = [])
    (hactions : Finishes (runActions session turn cid 0 plan)
      { d with wal := [⟨session, turn, .BEGIN_TURN, ""⟩] } x (n + 1)) :
    Finishes (run_turn session turn plan) d x n := by
  have htick : ∀ {d : Db R} {x : X} {n : Nat}, (tick : GwProg R X Unit).run (settled d x ⟨n, 0⟩) =
      some (.ok (), settled d x ⟨n + 1, 0⟩) := run_tick (Or.inl rfl)
  obtain ⟨results, d', x', n', hactions⟩ := hactions
  have hbegin : (appendUnlessHas session turn .BEGIN_TURN).run (settled d x ⟨n, 0⟩) =
      some (.ok (), settled { d with wal := [⟨session, turn, .BEGIN_TURN, ""⟩] } x ⟨n, 0⟩) := by
    simp [appendUnlessHas, hwal]
  have hend : ∃ d'', (appendUnlessHas session turn .TURN_COMMITTED).run (settled d' x' ⟨n', 0⟩) =
      some (.ok (), settled d'' x' ⟨n', 0⟩) := by
    unfold appendUnlessHas
    simp only [Prog.run_bind, run_has, Option.bind_some, Prog.andThen_ok]
    split
    · exact ⟨_, rfl⟩
    · exact ⟨_, rfl⟩
  obtain ⟨d'', hend⟩ := hend
  refine ⟨results, d'', x', n' + 1, ?_⟩
  unfold run_turn
  rw [hcid]
  simp [hbegin, htick, hactions, hend]

/-- `Gateway.call` of an action that is committed, with the same arguments. -/
theorem run_call_dedup {r : KeyRow} (hafp : args_fingerprint args = some afp)
    (hr : d.gw_keys (action_id session turn cid ordinal) = some r) (hfp : r.args_fp = some afp)
    (hst : r.status = .committed) :
    (call tool args session turn ordinal cid).run (settled d x clk) =
      some (.ok ⟨.dedup_hit, Driver.read r.result, action_id session turn cid ordinal, tool.klass⟩,
        settled d x clk) := by
  simp [call, hafp, hr, replay, hfp, hst]

end Calls

end AgentTx.Gateway
