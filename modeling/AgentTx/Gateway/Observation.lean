import AgentTx.Gateway.Alone
import AgentTx.Gateway.Turn

/-!
# `Gateway.Observation` — no ghost observation

`Coordinator.run_turn` appends `OBSERVATION_COMMITTED` whatever `Gateway.call` answered, so an uncertain
or a compensated action is observed as if it were committed (`ghost_observation`). When no call finds its
action in a state that has such an answer, every observation is of a committed action
(`observations_committed`).

Layout of the proof:
* **The contract** — an attempt only appends to the WAL (`Appends`), and an observation only for a row that is
  committed. The condition on a run is about one statement, the lookup of `Gateway.call`.
* **Calls and turns** — `callOk` follows the row that is found there; in the two statuses that the condition leaves
  out, the call would answer without a commit. `turnOk` appends what the answer is for.

Main results: `observations_committed`, and `ghost_observation` for a call that finds an intent.
-/

namespace AgentTx.Gateway.Observation

variable {R X : Type}

/-- The action of this key is committed. -/
def Committed (d : Db R) (key : String) : Prop := ∃ r, d.gw_keys key = some r ∧ r.status = .committed

/-- The records appended by a step observe actions that are committed. -/
def Appends (d d' : Db R) : Prop :=
  ∃ new, d'.wal = d.wal ++ new ∧ ∀ r ∈ new, r.type = .OBSERVATION_COMMITTED → Committed d r.key

/-- The answer to an action of this class and status is not that it is committed. -/
def Ambiguous (klass : ToolClass) (status : KeyStatus) : Prop :=
  status = .compensated ∨
  klass = .irreversible ∧ (status = .prepared ∨ status = .effect_started) ∨
  klass = .compensatable ∧ status = .effect_started

/-- A call that looks its action up does not find it ambiguous, unless under other arguments: then it is
    refused. -/
def FindsClear (t : Stmt) (d : Db R) : Prop :=
  ∀ key afp klass r, t = .seen key afp klass → d.gw_keys key = some r → Contract.Matches r afp →
    ¬ Ambiguous klass r.status

/-! ## The contract -/

def contract (R X : Type) : Contract R X where
  inv _ _ := True
  may d _ d' _ := Appends d d'
  may_refl d _ := ⟨[], by simp, by simp⟩
  ok := FindsClear

/-- A step that leaves the WAL alone. -/
theorem appends_nil {d d' : Db R} (h : d'.wal = d.wal) : Appends d d' := ⟨[], by simp [h], by simp⟩

theorem committed_record (d : Db R) (key afp : String) (klass : ToolClass) (result : Option String) :
    Committed (d.record key afp .committed klass result) key := by
  refine ⟨_, Function.update_self .., ?_⟩
  split <;> rfl

/-- What is known during a call: nothing, until the action is committed. -/
def phases (R X : Type) : Contract.Phases R X where
  before _ _ := True
  ready _ _ := True
  prepared _ _ := True
  starting _ _ := True
  effected _ _ _ := True
  undoing _ _ := False
  undone _ _ := False
  after res d _ := Committed d res.key

section Call

variable [Driver]

theorem callOk (tool : Tool R X) (key afp : String) (args : Json) :
    Contract.CallOk (contract R X) tool key afp args (phases R X) fun _ _ => True where
  raises _ _ _ := trivial
  mismatch _ _ _ _ _ _ := trivial
  new _ _ _ _ _ := trivial
  found d x r _ _ hok hr hm := by
    have hclear := hok key afp tool.klass r rfl hr hm
    unfold Contract.Phases.found
    split
    case h_1 hst => exact ⟨r, hr, hst⟩
    case h_2 hst => exact absurd (Or.inl hst) hclear
    case h_3 hst hk => exact absurd (Or.inr (Or.inl ⟨hk, Or.inl hst⟩)) hclear
    case h_4 hst hk => exact absurd (Or.inr (Or.inl ⟨hk, Or.inr hst⟩)) hclear
    case h_5 hst hk => exact hclear (Or.inr (Or.inr ⟨hk, hst⟩))
    all_goals trivial
  compensate _ := fun _ _ h => h.fact.elim
  undo _ _ _ _ h := h.elim
  db_effect hk d x v rows stored _ _ _ _ := ⟨trivial, appends_nil rfl, committed_record _ _ _ _ _⟩
  prepare _ _ _ _ _ := ⟨trivial, appends_nil rfl, trivial⟩
  begin _ _ _ _ _ := ⟨trivial, appends_nil rfl, trivial⟩
  intend _ _ _ _ _ := ⟨trivial, appends_nil rfl, trivial⟩
  direct _ _ _ _ _ _ _ := trivial
  effect _ := by
    have heffect : (contract R X).rules.Triple () (Contract.Settled fun _ _ => True)
        (outside key (tool.effect key args)) (fun _ => Contract.Settled fun _ _ => True) fun _ _ => True :=
      Contract.outside (F := fun _ => True) (fun _ _ _ _ => trivial) (fun d _ _ => appends_nil rfl)
        (fun _ _ => trivial) _
    exact heffect
  finish _ v stored _ d x _ _ := ⟨trivial, appends_nil rfl, committed_record _ _ _ _ _⟩

omit [Driver] in
/-- A record of another type is no observation. -/
theorem appends_other (d : Db R) {r : WalRecord} (h : r.type ≠ .OBSERVATION_COMMITTED) :
    Appends d { d with wal := d.wal ++ [r] } := by
  refine ⟨[r], rfl, fun r' hmem ht => ?_⟩
  rw [List.mem_singleton.mp hmem] at ht
  exact absurd ht h

theorem turnOk (session turn cid : String) (plan : List (Tool R X × Json)) :
    Contract.TurnOk (contract R X) session turn plan cid (fun _ _ => True) (fun _ _ _ _ => True)
      (fun _ _ res d _ => Committed d res.key) (fun _ _ _ => True) fun _ _ => True where
  crash _ := trivial
  begun _ _ _ _ _ := trivial
  begin d x _ _ := ⟨trivial, appends_other d nofun, trivial⟩
  prepare o rs tool args _ d x _ _ := ⟨trivial, appends_other d nofun, trivial⟩
  call o rs tool args _ := Contract.call (fun afp _ => callOk tool _ afp args) fun _ => trivial
  observe o rs res _ d x _ hcommitted := by
    refine ⟨trivial, ⟨_, rfl, fun r hmem _ => ?_⟩, trivial⟩
    rw [List.mem_singleton.mp hmem]
    exact hcommitted.1
  ended _ _ _ _ _ _ := trivial
  end_ rs d x _ _ := ⟨trivial, appends_other d nofun, trivial⟩

/-! ## Runs -/

/-- **Observations are of committed actions**, in every run in which calls find their actions clear. -/
theorem observations_committed (session turn : String) (plan : List (Tool R X × Json)) (w₀ : World R X)
    (h₀ : w₀.working = w₀.committed) (c c' : Serial.State Stmt (World R X) Exn (List Result))
    (hc : (attempts session turn plan).Reachable (fun t w => FindsClear t w.working) (· = w₀) c)
    (l : Serial.Label Nat Stmt) (hok : Serial.okStep (fun t w => FindsClear t w.working) c l)
    (hstep : (attempts session turn plan).step c l = some c') :
    Appends c.shared.committed c'.shared.committed := by
  have hturn : (contract R X).rules.Triple () (Contract.Settled fun _ _ => True)
      (run_turn session turn plan) (fun _ => Contract.Settled fun _ _ => True) fun _ _ => True :=
    Contract.run_turn (fun _ => trivial) fun cid _ => turnOk session turn cid plan
  have hverified := Contract.verified (fun _ _ _ => trivial) hturn
  have hstate := hverified.stateOk (fun w hw => by subst hw; exact ⟨trivial, h₀, trivial⟩) hc
  have hguar := (hverified.step hstate hok hstep).2
  exact Serial.step_within (fun w w' => Appends w.committed w'.committed) (fun _ _ => appends_nil rfl) hguar
    (fun _ => appends_nil rfl) hstep

end Call

/-! A turn of one charge, with nothing in its way. -/

def charge : Tool Nat Unit where
  name := "charge"
  klass := .transactional
  db_effect _ _ _ := .ok (.str "charged", [100])

def charges : List (Tool Nat Unit × Json) := [(charge, .obj [])]

local instance chargeDriver : Driver := .postgres

def uncharged : World Nat Unit := settled ⟨fun _ => none, [], []⟩ () ⟨0, 0⟩

/-- Only a call looks an action up. -/
def NoLookup (t : Stmt) : Prop := ∀ key afp klass, t ≠ .seen key afp klass

theorem unlooked {α : Type} {p : GwProg R X α} (hp : p.Only NoLookup) (w : World R X) :
    p.Guarded (fun t w => FindsClear t w.working) w :=
  hp.guarded (fun _ _ ht _ _ _ _ heq => absurd heq (ht _ _ _)) w

theorem only_tick : (tick : GwProg R X Unit).Only NoLookup := by
  refine Prog.only_bind ((Prog.only_step ..).mpr nofun) fun killed => ?_
  cases killed <;> trivial

theorem only_write {type : WalType} {key : String} {f : Db R → Unit × Db R} :
    (execute (.append type key) f : GwProg R X Unit).Only NoLookup := (Prog.only_step ..).mpr nofun

theorem only_commit : (commit : GwProg R X Unit).Only NoLookup := (Prog.only_modify ..).mpr nofun

theorem only_append {type : WalType} {session turn key : String} :
    (append session turn type key : GwProg R X Unit).Only NoLookup :=
  Prog.only_bind only_write fun _ => only_commit

theorem only_appendUnlessHas {type : WalType} {session turn : String} :
    (appendUnlessHas session turn type : GwProg R X Unit).Only NoLookup := by
  refine Prog.only_bind ((Prog.only_step ..).mpr nofun) fun found => ?_
  cases found with
  | true => trivial
  | false => exact only_append

/-- The attempt up to the commit of its observation. -/
theorem steps_charges {cid afp : String} (hcid : commit_id_of (planJson charges) = some cid)
    (hafp : args_fingerprint (.obj []) = some afp) :
    let key := action_id "s" "t" cid (.int 0)
    let d : Db Nat := Db.record ⟨fun _ => none, [⟨"s", "t", .BEGIN_TURN, ""⟩, ⟨"s", "t", .ACTION_PREPARED, "charge"⟩],
      [100]⟩ key afp .committed .transactional (some "charged")
    ∃ k, (run_turn "s" "t" charges).Steps (fun t w => FindsClear t w.working) uncharged
      (.op .commit (fun w => some ((), { w with committed := w.working })) k)
      ⟨d, { d with wal := d.wal ++ [⟨"s", "t", .OBSERVATION_COMMITTED, key⟩] }, (), ⟨4, 0⟩⟩ := by
  intro key d
  let wal : List WalRecord := [⟨"s", "t", .BEGIN_TURN, ""⟩]
  let d₀ : Db Nat := ⟨fun _ => none, wal ++ [⟨"s", "t", .ACTION_PREPARED, "charge"⟩], []⟩
  have htick : ∀ w, (tick : GwProg Nat Unit Unit).Guarded (fun t w => FindsClear t w.working) w := unlooked only_tick
  have hstored : Driver.text (.str "charged") = some (some "charged") := Driver.text_str "charged" (by decide)
  have hcall : (call charge (.obj []) "s" "t" 0 cid).run (settled d₀ () ⟨2, 0⟩) =
      some (.ok ⟨.committed, .str "charged", key, .transactional⟩, settled d () ⟨4, 0⟩) :=
    run_call_new rfl rfl hafp rfl rfl hstored
  have hclear : (call charge (.obj []) "s" "t" 0 cid).Guarded (fun t w => FindsClear t w.working)
      (settled d₀ () ⟨2, 0⟩) := by
    simp [call, hafp, seen, execute, perform, charge, tick, transaction, Tool.callDbEffect, recordInTx, hstored,
      commit, FindsClear, settled, d₀]
  have hactions : ∃ k, (runActions "s" "t" cid 0 charges).Steps (fun t w => FindsClear t w.working)
      (settled ⟨fun _ => none, wal, []⟩ () ⟨1, 0⟩)
      (.op .commit (fun w => some ((), { w with committed := w.working })) k)
      ⟨d, { d with wal := d.wal ++ [⟨"s", "t", .OBSERVATION_COMMITTED, key⟩] }, (), ⟨4, 0⟩⟩ :=
    ⟨_, (Prog.Steps.of_run_bind (unlooked only_append _) (run_append _)).trans
      ((Prog.Steps.of_run_bind (htick _) (run_tick (Or.inl rfl))).trans
      ((Prog.Steps.of_run_bind hclear hcall).trans
      ((Prog.Steps.of_run_bind (unlooked only_write _) rfl).bind _)))⟩
  obtain ⟨k, hactions⟩ := hactions
  unfold run_turn
  rw [hcid]
  exact ⟨_, (Prog.Steps.of_run_bind (Prog.guarded_ofOption ..) rfl).trans
    ((Prog.Steps.of_run_bind (unlooked only_appendUnlessHas _) rfl).trans
    ((Prog.Steps.of_run_bind (htick _) (run_tick (Or.inl rfl))).trans (hactions.bind _)))⟩

/-- The observation is appended: it is of a committed charge. -/
theorem observations_committed_charge : ∃ c c', (attempts "s" "t" charges).step c (.next .commit) = some c' ∧
    (∃ key, c'.shared.committed.wal = c.shared.committed.wal ++ [⟨"s", "t", .OBSERVATION_COMMITTED, key⟩]) ∧
    Appends c.shared.committed c'.shared.committed := by
  obtain ⟨cid, hcid⟩ : ∃ cid, commit_id_of (planJson charges) = some cid := exists_commit_id rfl
  obtain ⟨afp, hafp⟩ : ∃ afp, args_fingerprint (.obj []) = some afp := exists_args_fingerprint rfl
  obtain ⟨k, hsteps⟩ := steps_charges hcid hafp
  have hstart : (attempts "s" "t" charges).Reachable (fun t w => FindsClear t w.working) (· = uncharged)
      ⟨uncharged, none⟩ := Lts.Reachable.start ⟨rfl, rfl⟩
  have hobserving := (hstart.begin rfl 0).steps rfl hsteps
  exact ⟨_, _, rfl, ⟨_, rfl⟩,
    observations_committed "s" "t" charges uncharged rfl _ _ hobserving (.next .commit) (unlooked only_commit _).1 rfl⟩

/-! ## The ghost -/

/-- A mailer that cannot be undone. -/
def mailer : Tool Unit Unit where
  name := "send_email"
  klass := .irreversible
  effect _ _ := pure (.str "sent")

def mail : List (Tool Unit Unit × Json) := [(mailer, .obj [(.str "to", .str "a")])]

def nothing : World Unit Unit := settled ⟨fun _ => none, [], []⟩ () ⟨0, 0⟩

/-- The first attempt is killed between its intent and the mail; the second one is told that the action is
    uncertain, and records that it was observed. -/
theorem ghost_observation : ∃ c c' l,
    (attempts "s" "t" mail).Reachable (fun _ _ => True) (· = nothing) c ∧
    (attempts "s" "t" mail).step c l = some c' ∧ ¬ Appends c.shared.committed c'.shared.committed := by
  obtain ⟨cid, hcid⟩ : ∃ cid, commit_id_of (planJson mail) = some cid := exists_commit_id rfl
  obtain ⟨afp, hafp⟩ : ∃ afp, args_fingerprint (.obj [(.str "to", .str "a")]) = some afp := exists_args_fingerprint rfl
  let key := action_id "s" "t" cid (.int 0)
  let row : KeyRow := ⟨some afp, .prepared, .irreversible, none⟩
  let keys : Table String KeyRow := Function.update (fun _ => none) key (some row)
  -- the first attempt
  let wal₁ : List WalRecord := [⟨"s", "t", .BEGIN_TURN, ""⟩, ⟨"s", "t", .ACTION_PREPARED, "send_email"⟩]
  have hfirst : (run_turn "s" "t" mail).run (settled ⟨fun _ => none, [], []⟩ () ⟨0, 3⟩) =
      some (.error .Crash, settled ⟨keys, wal₁, []⟩ () ⟨3, 3⟩) := by
    unfold run_turn
    rw [hcid]
    simp [appendUnlessHas, run_tick, run_tick_crash, mail, runActions, call, hafp, mailer, perform, record_new,
      keys, row, wal₁, key]
  -- the second one, up to the commit of its observation
  let d : Db Unit := ⟨keys, wal₁ ++ [⟨"s", "t", .ACTION_PREPARED, "send_email"⟩], []⟩
  let obs : WalRecord := ⟨"s", "t", .OBSERVATION_COMMITTED, key⟩
  have hcall : (call mailer (.obj [(.str "to", .str "a")]) "s" "t" 0 cid).run (settled d () ⟨2, 0⟩) =
      some (.ok ⟨.uncertain, .null, key, .irreversible⟩, settled d () ⟨2, 0⟩) := by
    simp [call, hafp, d, keys, key, row, replay, mailer]
  have hbegun : (appendUnlessHas "s" "t" .BEGIN_TURN : GwProg Unit Unit Unit).run
      (settled ⟨keys, wal₁, []⟩ () ⟨0, 0⟩) = some (.ok (), settled ⟨keys, wal₁, []⟩ () ⟨0, 0⟩) := by
    simp [appendUnlessHas, wal₁]
  have hsecond : ∃ k, (run_turn "s" "t" mail).Steps (fun _ _ => True) (settled ⟨keys, wal₁, []⟩ () ⟨0, 0⟩)
      (.op .commit (fun w => some ((), { w with committed := w.working })) k)
      ⟨d, { d with wal := d.wal ++ [obs] }, (), ⟨2, 0⟩⟩ := by
    unfold run_turn
    rw [hcid]
    have hactions : ∃ k, (runActions "s" "t" cid 0 mail).Steps (fun _ _ => True)
        (settled ⟨keys, wal₁, []⟩ () ⟨1, 0⟩)
        (.op .commit (fun w => some ((), { w with committed := w.working })) k)
        ⟨d, { d with wal := d.wal ++ [obs] }, (), ⟨2, 0⟩⟩ :=
      ⟨_, (Prog.Steps.part (run_append _)).trans ((Prog.Steps.part (run_tick (Or.inl rfl))).trans
        ((Prog.Steps.part hcall).trans ((Prog.Steps.part rfl).bind _)))⟩
    obtain ⟨k, hactions⟩ := hactions
    exact ⟨_, (Prog.Steps.part rfl).trans ((Prog.Steps.part hbegun).trans
      ((Prog.Steps.part (run_tick (Or.inl rfl))).trans (hactions.bind _)))⟩
  obtain ⟨k, hsecond⟩ := hsecond
  have hstart : (attempts "s" "t" mail).Reachable (fun _ _ => True) (· = nothing) ⟨nothing, none⟩ :=
    Lts.Reachable.start ⟨rfl, rfl⟩
  have hdied := ((hstart.begin rfl 3).run rfl (Prog.guarded_of_forall (fun _ _ => trivial) _ _) hfirst).halt rfl
  have hobserved := (hdied.begin rfl 0).steps rfl hsecond
  refine ⟨_, _, .next .commit, hobserved, rfl, ?_⟩
  rintro ⟨new, hnew, hall⟩
  have hnew' : new = [obs] := (List.append_cancel_left (hnew : d.wal ++ [obs] = d.wal ++ new)).symm
  rw [hnew'] at hall
  obtain ⟨r, hr, hst⟩ := hall obs List.mem_cons_self rfl
  have hrow : keys key = some row := Function.update_self ..
  cases hrow.symm.trans hr
  cases hst

end AgentTx.Gateway.Observation
