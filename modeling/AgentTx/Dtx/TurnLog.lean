import AgentTx.Dtx.Charge
import AgentTx.Dtx.Transparent
import AgentTx.Lib.FencedLog
import AgentTx.Lib.Refinement

/-!
# `Dtx.TurnLog` — what the coordinators do is append to fenced logs

The tables `turn_owner`, `charges` and `actions` hold, for each turn, its epoch and a log: the charges of its
actions in the order of their serial numbers, each with the owner epoch in its action's row (`turnLog`, which is
`charges JOIN actions`). Seen so, a crew of coordinators on PostgreSQL, with its transactions, its row locks and its
deaths, is a `FencedLog` whose plan is the durable plan of each turn: whatever statement a coordinator executes,
nobody sees anything of it, or it is one atomic step of the log (`crew_refines`).

Layout of the proof:
* **The logs** — `fencedLog` reads owner, epoch, entries and end of each turn's log off the tables; `chargeFor` is the
  entry that a step of the plan stands for.
* **The contract** — that of `Dtx.Charge`, and in addition that every step of it is one of the log (`LogStep`). Each
  of the three transactions is one: `acquired_logged`, `charged_logged`, `committed_logged`.
* **Runs** — `crew_refines_step` for one statement, and the simulation rule of `Lib.Refinement` for a run.

Main results:
* `crew_refines` — every run of a crew is a run of fenced logs, step by step and by the same coordinators.
* `charges_in_order` — what follows of the charges: a beginning of the plan, with epochs that never go back.
-/

namespace AgentTx.Dtx.Charge

open Transparent (chargeOf)

variable {ι : Type}

/-! ## The logs in the tables

`charges` has no turn in it: which log a charge belongs to is in the row of its action. -/

/-- What is charged for a step of the plan. -/
def chargeFor (s t cid : String) (step : Json) : Except Exn ChargeRow := do
  let (o, args) ← chargeOf step
  let order ← subscript args "order"
  let amount ← subscript args "amount"
  pure ⟨order, amount, action_id s t cid o⟩

/-- What the durable plan of a turn charges. -/
def turnPlan (turns : Table (String × String) TurnRow) (k : String × String) : List (Except Exn ChargeRow) :=
  (turns k).elim [] fun r => (planSteps r).map (chargeFor k.1 k.2 r.commit_id)

/-- `SELECT … FROM charges JOIN actions USING (action_id) WHERE session=? AND turn=? ORDER BY seq`. -/
def turnLog (d : Db) (k : String × String) : List (Except Exn ChargeRow × Nat) :=
  d.charges.filterMap fun ch => (d.actions ch.action_id).bind fun r =>
    if (r.session, r.turn) = k then some (.ok ch, r.owner_epoch) else none

/-- The fenced logs that the public state holds. -/
def fencedLog (p : Public ι) : FencedLog ι (String × String) (Except Exn ChargeRow) where
  epoch := p.db.turn_owner
  token := p.held
  log := turnLog p.db
  closed k := (p.db.turns k).any fun r => r.state = .committed

theorem chargeFor_ok {s t cid : String} {step args order amount : Json} {o : Ordinal} (ho : ordinalOf step = .ok o)
    (hargs : subscript step "args" = .ok args) (horder : subscript args "order" = .ok order)
    (hamount : subscript args "amount" = .ok amount) :
    chargeFor s t cid step = .ok ⟨order, amount, action_id s t cid o⟩ := by
  simp [chargeFor, Transparent.chargeOf_ok ho hargs, horder, hamount, bind, Except.bind, pure, Except.pure]

/-- What a charge says of its step. -/
theorem of_chargeFor {s t cid : String} {step : Json} {ch : ChargeRow} (h : chargeFor s t cid step = .ok ch) :
    ∃ o args, ordinalOf step = .ok o ∧ subscript step "args" = .ok args ∧ ch.action_id = action_id s t cid o := by
  unfold chargeFor at h
  cases hch : chargeOf step with
  | error e =>
    rw [hch] at h
    cases h
  | ok oa =>
    obtain ⟨o, args⟩ := oa
    refine ⟨o, args, Transparent.ordinal_of_chargeOf hch, Transparent.args_of_chargeOf hch, ?_⟩
    rw [hch] at h
    simp only [bind, Except.bind] at h
    cases horder : subscript args "order" with
    | error e =>
      rw [horder] at h
      cases h
    | ok order =>
      cases hamount : subscript args "amount" with
      | error e =>
        rw [horder, hamount] at h
        cases h
      | ok amount =>
        rw [horder, hamount] at h
        cases h
        rfl

theorem mem_turnLog {d : Db} {k : String × String} {ch : ChargeRow} {e : Nat} :
    (.ok ch, e) ∈ turnLog d k ↔
      ch ∈ d.charges ∧ ∃ r, d.actions ch.action_id = some r ∧ (r.session, r.turn) = k ∧ r.owner_epoch = e := by
  simp only [turnLog, List.mem_filterMap, Option.bind_eq_some_iff, Option.ite_none_right_eq_some, Option.some.injEq,
    Prod.mk.injEq, Except.ok.injEq]
  constructor
  · rintro ⟨ch', hch, r, hr, hk, rfl, he⟩
    exact ⟨hch, r, hr, hk, he⟩
  · rintro ⟨hch, r, hr, hk, he⟩
    exact ⟨ch, hch, r, hr, hk, rfl, he⟩

/-- What has been made is a charge of an action of the turn. -/
theorem mem_entries {p : Public ι} {k : String × String} {x : Except Exn ChargeRow} :
    x ∈ (fencedLog p).entries k ↔
      ∃ ch r, x = .ok ch ∧ ch ∈ p.db.charges ∧ p.db.actions ch.action_id = some r ∧ (r.session, r.turn) = k := by
  simp only [FencedLog.entries, fencedLog, List.mem_map, Prod.exists, exists_and_right, exists_eq_right]
  constructor
  · rintro ⟨e, hmem⟩
    obtain ⟨ch, hch, hrow⟩ := List.mem_filterMap.mp hmem
    obtain ⟨r, hr, hif⟩ := Option.bind_eq_some_iff.mp hrow
    obtain ⟨hk, heq⟩ := Option.ite_none_right_eq_some.mp hif
    cases heq
    exact ⟨ch, r, rfl, hch, hr, hk⟩
  · rintro ⟨ch, r, rfl, hch, hr, hk⟩
    exact ⟨r.owner_epoch, mem_turnLog.mpr ⟨hch, r, hr, hk, rfl⟩⟩

/-! ## Where the log stands

What a worker knows of the steps behind it says how long its log is. -/

section Where

variable {turns₀ : Table (String × String) TurnRow} {turnOf : ι → String × String} {p : Public ι} {s t cid : String}

/-- An action with a row has made its entry. -/
theorem made_of_row (hp : Inv turns₀ turnOf p) (hord : DistinctOrdinals turns₀) (hids : DistinctIds turns₀)
    {step args : Json} {o : Ordinal} {row : ActionRow} (hstep : IsStep turns₀ s t cid o args)
    (ho : ordinalOf step = .ok o) (hargs : subscript step "args" = .ok args)
    (hrow : p.db.actions (action_id s t cid o) = some row) :
    chargeFor s t cid step ∈ (fencedLog p).entries (s, t) := by
  obtain ⟨cid', args', order, amount, hstep', haid, -, horder, hamount, hcharges⟩ := hp.action _ row hrow
  obtain ⟨hs, ht, -, rfl⟩ := hstep.unique hord hids hstep' haid
  have hmem : ⟨order, amount, action_id s t cid o⟩ ∈ p.db.chargesOf (action_id s t cid o) := by
    rw [hcharges]
    exact List.mem_singleton_self _
  rw [chargeFor_ok ho hargs horder hamount, mem_entries]
  exact ⟨_, row, rfl, (List.mem_filter.mp hmem).1, hrow, by rw [hs, ht]⟩

/-- An action without a row has not. -/
theorem not_made_of_none {step : Json} {o : Ordinal} (ho : ordinalOf step = .ok o)
    (hnone : p.db.actions (action_id s t cid o) = none) {k : String × String} :
    chargeFor s t cid step ∉ (fencedLog p).entries k := by
  intro hmem
  obtain ⟨ch, r, hch, -, hr, -⟩ := mem_entries.mp hmem
  obtain ⟨o', args, ho', -, haid⟩ := of_chargeFor hch
  cases ho.symm.trans ho'
  rw [haid, hnone] at hr
  cases hr

/-- The steps of a plan can be told apart by what they charge. -/
theorem apart (hord : DistinctOrdinals turns₀) (hids : DistinctIds turns₀) {r : TurnRow}
    (hr : turns₀ (s, t) = some r) {k : String × String} :
    FencedLog.Apart (chargeFor s t r.commit_id) ((fencedLog p).entries k) (planSteps r) := by
  refine (hord _ r hr).imp_of_mem fun {a b} ha hb hab hmade heq => ?_
  obtain ⟨ch, -, hch, -⟩ := mem_entries.mp hmade
  obtain ⟨o, args, ho, hargs, haid⟩ := of_chargeFor hch
  obtain ⟨o', args', ho', hargs', haid'⟩ := of_chargeFor (heq.symm.trans hch)
  have hstep : IsStep turns₀ s t r.commit_id o args := ⟨r, hr, rfl, a, ha, ho, hargs⟩
  have hstep' : IsStep turns₀ s t r.commit_id o' args' := ⟨r, hr, rfl, b, hb, ho', hargs'⟩
  obtain ⟨-, -, rfl⟩ := hids _ _ _ _ _ _ _ _ _ _ hstep hstep' (haid.symm.trans haid')
  exact hab o ho ho'

end Where

/-! ## The contract

The contract of the charges once more, with one conjunct: a step of it is nothing to the logs, or one step of theirs. -/

section Contract

variable [DecidableEq ι] (turns₀ : Table (String × String) TurnRow) (turnOf : ι → String × String)

/-- Seen as logs, what a coordinator does is a step, or nothing. -/
def LogStep (i : ι) (p p' : Public ι) : Prop :=
  fencedLog p' = fencedLog p ∨
    ∃ act, FencedLog.Step (turnPlan turns₀) turnOf (fencedLog p) (i, act) (fencedLog p')

/-- What keeps charges exactly-once, and the logs. -/
def logContract : Contract ι where
  inv p := Inv turns₀ turnOf p ∧ FencedLog.Inv (turnPlan turns₀) turnOf (fencedLog p)
  may i p p' := May turnOf i p p' ∧ LogStep turns₀ turnOf i p p'
  may_refl i p := ⟨(contract turns₀ turnOf).may_refl i p, Or.inl rfl⟩

variable {turns₀ turnOf} {i : ι} {p p' : Public ι} {s t cid : String} {ep : Nat} {steps : List Json}

theorem LogStep.grows (h : LogStep turns₀ turnOf i p p') (k : String × String) :
    turnLog p.db k <+: turnLog p'.db k := by
  rcases h with hsame | ⟨act, hstep⟩
  · rw [show turnLog p'.db = turnLog p.db from congrArg FencedLog.log hsame]
  · exact hstep.grows k

theorem LogStep.made (h : LogStep turns₀ turnOf i p p') {k : String × String} {x : Except Exn ChargeRow}
    (hx : x ∈ (fencedLog p).entries k) : x ∈ (fencedLog p').entries k :=
  ((h.grows k).map Prod.fst).subset hx

/-- What is proved of a step of the log. -/
theorem logContract_step (act : FencedLog.Act (Except Exn ChargeRow))
    (hlog : FencedLog.Inv (turnPlan turns₀) turnOf (fencedLog p)) (h : Inv turns₀ turnOf p' ∧ May turnOf i p p')
    (hstep : FencedLog.Step (turnPlan turns₀) turnOf (fencedLog p) (i, act) (fencedLog p')) :
    (logContract turns₀ turnOf).inv p' ∧ (logContract turns₀ turnOf).may i p p' :=
  ⟨⟨h.1, hstep.keeps hlog⟩, h.2, Or.inr ⟨act, hstep⟩⟩

/-- The steps before `steps` have made their entries. -/
structure Logged (turns₀ : Table (String × String) TurnRow) (i : ι) (s t cid : String) (ep : Nat)
    (steps : List Json) (p : Public ι) : Prop where
  held : p.held i = some ep
  plan : Passed turns₀ s t cid (fun step => chargeFor s t cid step ∈ (fencedLog p).entries (s, t)) steps

theorem Logged.keeps : (logContract turns₀ turnOf).Keeps i [] (Logged turns₀ i s t cid ep steps) := by
  rintro j p p' hji hp hp' ⟨-, hlog⟩ hheld - ⟨hi, hplan⟩
  exact ⟨hheld.trans hi, hplan.mono fun step hmade => hlog.made hmade⟩

omit [DecidableEq ι] in
/-- What has made its entry has its row. -/
theorem Logged.underway (h : Logged turns₀ i s t cid ep steps p) : Underway turns₀ i s t cid ep steps p := by
  refine ⟨h.held, Passed.mono h.plan ?_⟩
  intro step hmade
  obtain ⟨ch, r, hch, -, hr, -⟩ := mem_entries.mp hmade
  obtain ⟨o, args, ho, -, haid⟩ := of_chargeFor hch
  refine ⟨o, ho, ?_⟩
  rw [← haid, hr]
  rfl

/-- `acquire`. -/
theorem acquired_logged (hp : (logContract turns₀ turnOf).inv p) (hheld : p.held i = none) (hturn : turnOf i = (s, t))
    (hep : (p.db.turn_owner (s, t)).elim 1 (· + 1) = ep) :
    (logContract turns₀ turnOf).inv (Contract.acquired i s t ep p) ∧
      (logContract turns₀ turnOf).may i p (Contract.acquired i s t ep p) := by
  refine logContract_step .acquire hp.2 (acquired_ok hp.1 hheld hturn hep) ?_
  have hview : fencedLog (Contract.acquired i s t ep p) = (fencedLog p).acquired i (turnOf i) := by
    rw [hturn, ← hep]
    rfl
  rw [hview]
  exact .acquire hheld

omit [DecidableEq ι] in
/-- A charge whose claim is won, in the logs. -/
theorem fencedLog_charged {o : Ordinal} {afp : String} {order amount : Json} (hp : Inv turns₀ turnOf p)
    (hnone : p.db.actions (action_id s t cid o) = none) :
    fencedLog (p.commit (Contract.chargeWrites (action_id s t cid o) (DTX.chargeRow s t o afp ep) order amount)) =
      (fencedLog p).entered (s, t) (.ok ⟨order, amount, action_id s t cid o⟩) ep := by
  -- the charges there are of other actions
  let p' := p.commit (Contract.chargeWrites (action_id s t cid o) (DTX.chargeRow s t o afp ep) order amount)
  have hold : ∀ k, p.db.charges.filterMap (fun ch => (p'.db.actions ch.action_id).bind fun r =>
      if (r.session, r.turn) = k then some ((.ok ch : Except Exn ChargeRow), r.owner_epoch) else none) =
        turnLog p.db k := by
    intro k
    refine List.filterMap_congr fun ch hch => ?_
    have hne : ch.action_id ≠ action_id s t cid o := by
      intro haid
      have hmem : ch ∈ p.db.chargesOf (action_id s t cid o) := List.mem_filter.mpr ⟨hch, by simp [haid]⟩
      rw [hp.orphan _ hnone] at hmem
      cases hmem
    rw [Contract.charged_action_of_ne hne]
  unfold fencedLog FencedLog.entered
  congr 1
  funext k
  show (p.db.charges ++ [(⟨order, amount, action_id s t cid o⟩ : ChargeRow)]).filterMap _ = _
  rw [List.filterMap_append, hold]
  by_cases hk : k = (s, t)
  · subst hk
    rw [Function.update_self]
    simp [Contract.charged_action_self, DTX.chargeRow]
  · rw [Function.update_of_ne hk]
    simp [Contract.charged_action_self, DTX.chargeRow, Ne.symm hk]

/-- **A charge is the next entry.** -/
theorem charged_logged (hord : DistinctOrdinals turns₀) (hids : DistinctIds turns₀) {step args order amount : Json}
    {o : Ordinal} {afp : String} (hp : (logContract turns₀ turnOf).inv p) (hturn : turnOf i = (s, t))
    (h : Logged turns₀ i s t cid ep (step :: steps) p) (ho : ordinalOf step = .ok o)
    (hargs : subscript step "args" = .ok args) (hafp : args_fingerprint args = some afp)
    (horder : subscript args "order" = .ok order) (hamount : subscript args "amount" = .ok amount)
    (howner : p.db.turn_owner (s, t) = some ep) (hnone : p.db.actions (action_id s t cid o) = none) :
    let p' := p.commit (Contract.chargeWrites (action_id s t cid o) (DTX.chargeRow s t o afp ep) order amount)
    (logContract turns₀ turnOf).inv p' ∧ (logContract turns₀ turnOf).may i p p' ∧
      Logged turns₀ i s t cid ep steps p' := by
  intro p'
  have hcharge : chargeFor s t cid step = .ok ⟨order, amount, action_id s t cid o⟩ :=
    chargeFor_ok ho hargs horder hamount
  have hview : fencedLog p' = (fencedLog p).entered (turnOf i) (chargeFor s t cid step) ep := by
    rw [hturn, hcharge]
    exact fencedLog_charged hp.1 hnone
  -- of the plan, what is made is what this coordinator has behind it
  obtain ⟨r, done, hr, rfl, hsteps, hdone⟩ := h.plan
  have hplan : turnPlan turns₀ (s, t) = (planSteps r).map (chargeFor s t r.commit_id) := by
    simp [turnPlan, hr]
  have hmade : (fencedLog p).entries (s, t) = done.map (chargeFor s t r.commit_id) :=
    FencedLog.made_of_next (hplan ▸ hp.2.planned (s, t)) hsteps (apart hord hids hr) hdone (not_made_of_none ho hnone)
  have hnext : turnPlan turns₀ (turnOf i) = (fencedLog p).entries (turnOf i) ++
      chargeFor s t r.commit_id step :: steps.map (chargeFor s t r.commit_id) := by
    rw [hturn, hplan, hmade, hsteps]
    simp
  have hstep : FencedLog.Step (turnPlan turns₀) turnOf (fencedLog p) (i, .enter (chargeFor s t r.commit_id step))
      (fencedLog p') := by
    rw [hview]
    exact .enter h.held (hturn ▸ howner) hnext
  obtain ⟨hinv, hmay⟩ := logContract_step _ hp.2 (charged_ok hp.1 hturn h.held (h.plan.isStep ho hargs) hafp horder
    hamount howner hnone) hstep
  refine ⟨hinv, hmay, h.held, (h.plan.mono fun step' hm => hmay.2.made hm).next ?_⟩
  rw [hview, hturn, FencedLog.entries_entered]
  simp

/-- **A turn is closed when its log is its plan.** -/
theorem committed_logged (hord : DistinctOrdinals turns₀) (hids : DistinctIds turns₀)
    (hp : (logContract turns₀ turnOf).inv p) (hturn : turnOf i = (s, t)) (h : Logged turns₀ i s t cid ep [] p) :
    (logContract turns₀ turnOf).inv (p.commit [.setCommitted s t]) ∧
      (logContract turns₀ turnOf).may i p (p.commit [.setCommitted s t]) := by
  obtain ⟨r, done, hr, rfl, hsteps, hdone⟩ := h.plan
  rw [List.append_nil] at hsteps
  have hplan : turnPlan turns₀ (s, t) = (planSteps r).map (chargeFor s t r.commit_id) := by
    simp [turnPlan, hr]
  have hwhole : (fencedLog p).entries (turnOf i) = turnPlan turns₀ (turnOf i) := by
    rw [hturn, hplan]
    exact FencedLog.made_of_all (hplan ▸ hp.2.planned (s, t)) (apart hord hids hr) (hsteps ▸ hdone)
  have hview : fencedLog (p.commit [.setCommitted s t]) = (fencedLog p).close (turnOf i) := by
    -- the row is there
    have hsame := hp.1.plans (s, t)
    rw [hr] at hsame
    obtain ⟨r', hr', -, -⟩ := hsame.of_some
    unfold fencedLog FencedLog.close
    congr 1
    funext k
    rw [hturn]
    show (p.db.turns.update (s, t) _ k).any _ = _
    by_cases hk : k = (s, t)
    · subst hk
      rw [Table.update_self, hr', Function.update_self]
      rfl
    · rw [Table.update_of_ne p.db.turns hk, Function.update_of_ne hk]
  refine logContract_step .close hp.2 (committed_ok hp.1 h.underway) ?_
  rw [hview]
  exact .close hwhole

/-! ## The coordinators

The same triples, by the same rule for the loop over the plan. -/

/-- **Every coordinator keeps the logs.** -/
theorem coordinator_logs [Driver] (hord : DistinctOrdinals turns₀) (hids : DistinctIds turns₀) {pid : Nat} {role : Role}
    (hturn : turnOf i = role.turn) :
    ((logContract turns₀ turnOf).rules true).Triple i (Contract.Unstarted true i) (coordinator i pid role)
      (fun _ _ => True) fun _ _ => True := by
  refine coordinator_rule (A := fun ep p => p.held i = some ep)
    (F := fun cid ep steps => Logged turns₀ i role.turn.1 role.turn.2 cid ep steps) ?_
    (fun ep => Contract.keeps_held _) (fun cid ep steps => Logged.keeps) ?_ ?_
    fun cid ep p hp h => committed_logged hord hids hp hturn h
  · refine Contract.acquire (c := ⟨i, true, pid⟩) (Contract.keeps_held none) fun p ep hp hheld hep => ?_
    obtain ⟨hinv, hmay⟩ := acquired_logged hp hheld hturn hep
    exact ⟨hinv, hmay, Function.update_self ..⟩
  · intro ep p r plan items hp hheld hr hplan hitems
    have hsame := hp.1.plans role.turn
    rw [hr] at hsame
    exact ⟨hheld, Passed.start hsame hplan hitems⟩
  · intro cid ep step steps o args ho hargs
    constructor
    · intro p afp order amount hp hf hafp horder hamount _ howner hnone
      exact charged_logged hord hids hp hturn hf ho hargs hafp horder hamount (howner rfl) hnone
    · intro p afp ex v hp hf hafp _ hex hfp hv
      exact ⟨hf.held, hf.plan.next (made_of_row hp.1 hord hids (hf.plan.isStep ho hargs) ho hargs hex)⟩

end Contract

/-! ## Runs

The simulation, and what the abstract log is known to keep. -/

section Runs

variable [DecidableEq ι] [Driver] {crew : Crew ι} {w₀ : World ι} {c : Config ι Stmt (World ι) Exn Unit}

/-- The logs of a crew: each coordinator is hired for the turn of its role. -/
abbrev CrewStep (crew : Crew ι) (w₀ : World ι) :=
  FencedLog.Step (turnPlan w₀.server.db.turns) fun i => (crew.role i).turn

/-- A step of the log is taken by the coordinator whose statement is executed. -/
def By (l : Label ι Empty Stmt) (m : ι × FencedLog.Act (Except Exn ChargeRow)) : Prop := ∃ t, l = .next m.1 t

omit [DecidableEq ι] [Driver] in
/-- Before the run all logs are empty. -/
theorem logs_start (h₀ : Start w₀) : FencedLog.Inv (turnPlan w₀.server.db.turns) (fun i => (crew.role i).turn)
    (fencedLog w₀.pub) := by
  refine .start (fun k => ?_) h₀.quiescent.held fun k => ?_
  · show w₀.server.db.charges.filterMap _ = []
    rw [h₀.no_charges]
    rfl
  · show (w₀.server.db.turns k).any _ = false
    cases hr : w₀.server.db.turns k with
    | none => rfl
    | some r => simp [h₀.open_turns k r hr]

/-- **One statement, one step of the log, or none.** -/
theorem crew_refines_step (crew : Crew ι) (h₀ : Start w₀) (hord : DistinctOrdinals w₀.server.db.turns)
    (hids : DistinctIds w₀.server.db.turns) :
    Lts.Refines (Lts.ofFun crew.system.step) (System.Start (· = w₀)) (CrewStep crew w₀) By
      fun c => fencedLog c.shared.pub where
  step c l c' hc hstep := by
    have hverified : RelyGuarantee.Verified crew.system
        ((logContract w₀.server.db.turns fun i => (crew.role i).turn).rules true) (Contract.Unstarted true) :=
      Contract.verified fun _ => coordinator_logs hord hids rfl
    have hstart : (crewContract crew w₀).inv w₀.pub := inv_start h₀
    have hinit := Contract.init_of_quiescent true h₀.quiescent
      (C := logContract w₀.server.db.turns fun i => (crew.role i).turn) ⟨hstart, logs_start h₀⟩
    have hguar : ∀ i t, l = .next i t →
        ((logContract w₀.server.db.turns fun i => (crew.role i).turn).rules true).Guar i t c.shared c'.shared := by
      rintro i t rfl
      exact hverified.guar (fun _ _ _ => trivial) hinit hc hstep
    rcases Contract.may_step hguar hstep with ⟨i, t, rfl, -, hlog⟩ | hsame
    · rcases hlog with hsame | ⟨act, hact⟩
      · exact Or.inl hsame
      · exact Or.inr ⟨(i, act), ⟨t, rfl⟩, hact⟩
    · exact Or.inl (congrArg fencedLog hsame)

/-- **A crew of coordinators is a fenced log.** Every run of any crew — interleaved statement by statement, with
    locks, pending writes and deaths — is a run of the logs of its turns, in which the coordinators take one atomic
    step each time something of theirs is seen. -/
theorem crew_refines (crew : Crew ι) (w₀ : World ι) (h₀ : Start w₀) (hord : DistinctOrdinals w₀.server.db.turns)
    (hids : DistinctIds w₀.server.db.turns) (ls : List (Label ι Empty Stmt)) (c : Config ι Stmt (World ι) Exn Unit)
    (hrun : Lts.Exec (Lts.ofFun crew.system.step) ⟨w₀, fun _ => .fresh⟩ ls c) :
    ∃ acts seen, Lts.Exec (CrewStep crew w₀) (fencedLog w₀.pub) acts (fencedLog c.shared.pub) ∧
      seen.Sublist ls ∧ List.Forall₂ By seen acts :=
  (crew_refines_step crew h₀ hord hids).exec (Lts.Reachable.start ⟨rfl, fun _ => rfl⟩) hrun

/-- What the log of every turn looks like. -/
structure InOrder (crew : Crew ι) (turns₀ : Table (String × String) TurnRow) (w : World ι) : Prop where
  /-- every charge is in the log of its turn -/
  all : ∀ ch ∈ w.server.db.charges, ∃ k e, (.ok ch, e) ∈ turnLog w.server.db k
  /-- the log is a beginning of the durable plan, in the plan's order -/
  planned : ∀ k, (turnLog w.server.db k).map Prod.fst <+: turnPlan turns₀ k
  /-- owners follow each other, up to the current one -/
  sorted : ∀ k, ((turnLog w.server.db k).map Prod.snd).Pairwise (· ≤ ·)
  below : ∀ k, ∀ e ∈ (turnLog w.server.db k).map Prod.snd, ∃ e', w.server.db.turn_owner k = some e' ∧ e ≤ e'
  /-- and no two coordinators have the same token of a turn -/
  owner : ∀ i j e, (crew.role i).turn = (crew.role j).turn → w.held i = some e → w.held j = some e → i = j
  /-- a committed turn has the whole plan -/
  whole : ∀ k r, w.server.db.turns k = some r → r.state = .committed →
    (turnLog w.server.db k).map Prod.fst = turnPlan turns₀ k

/-- **Charges come in the order of the plan, owner after owner.** Of each turn, at every moment of every run, the
    charges are the first so many of the durable plan, in its order; their owner epochs never go down; and nothing
    that is in the log moves. -/
theorem charges_in_order (crew : Crew ι) (w₀ : World ι) (h₀ : Start w₀) (hord : DistinctOrdinals w₀.server.db.turns)
    (hids : DistinctIds w₀.server.db.turns) (c : Config ι Stmt (World ι) Exn Unit) (hc : RunsTo crew w₀ c) :
    InOrder crew w₀.server.db.turns c.shared ∧
      ∀ ls c', Lts.Exec (Lts.ofFun crew.system.step) c ls c' →
        ∀ k, turnLog c.shared.server.db k <+: turnLog c'.shared.server.db k := by
  have href := crew_refines_step crew h₀ hord hids
  have hlogs : FencedLog.Inv (turnPlan w₀.server.db.turns) (fun i => (crew.role i).turn) (fencedLog c.shared.pub) := by
    obtain ⟨c₀, ls, ⟨rfl, hfresh⟩, hrun⟩ := hc
    exact href.invariant _ (fun L act L' hL hstep => hstep.keeps hL) (Lts.Reachable.start ⟨rfl, hfresh⟩) hrun
      (logs_start h₀)
  refine ⟨⟨?_, hlogs.planned, hlogs.sorted, hlogs.below, hlogs.unique, ?_⟩, ?_⟩
  · intro ch hch
    have hmem : ch ∈ c.shared.server.db.chargesOf ch.action_id := List.mem_filter.mpr ⟨hch, by simp⟩
    rcases (hc.inv h₀).one_charge ch.action_id with ⟨-, hnone⟩ | ⟨r, -, hr, -⟩
    · rw [show c.shared.server.db.chargesOf ch.action_id = [] from hnone] at hmem
      cases hmem
    · exact ⟨(r.session, r.turn), r.owner_epoch, mem_turnLog.mpr ⟨hch, r, hr, rfl, rfl⟩⟩
  · intro k r hr hst
    refine hlogs.whole k ?_
    show (c.shared.server.db.turns k).any _ = true
    rw [hr]
    simp [hst]
  · intro ls c' hrun k
    exact href.invariant (fun L => turnLog c.shared.server.db k <+: L.log k)
      (fun L act L' hL hstep => hL.trans (hstep.grows k)) hc hrun (List.prefix_refl _)

end Runs

/-! The worker that runs a plan of two equal steps. -/

section Twice

local instance logDriver : Driver := .postgres

/-- Its steps take the log of the turn through the whole plan. -/
theorem crew_refines_twice : ∃ ls c acts seen,
    Lts.Exec (Lts.ofFun twiceCrew.system.step) ⟨twice, fun _ => .fresh⟩ ls c ∧
      c.shared.server.db.charges.length = 2 ∧
      Lts.Exec (CrewStep twiceCrew twice) (fencedLog twice.pub) acts (fencedLog c.shared.pub) ∧
      seen.Sublist ls ∧ List.Forall₂ By seen acts := by
  obtain ⟨w, hrun, hlen⟩ := run_twice
  have hstart : RunsTo twiceCrew twice ⟨twice, fun _ => .fresh⟩ := Lts.Reachable.start ⟨rfl, fun _ => rfl⟩
  obtain ⟨⟨w₀, procs⟩, ls, ⟨hw, hfresh⟩, hexec⟩ :=
    System.Reachable.run (hstart.spawn (i := true) rfl) (Function.update_self ..) hrun
  obtain rfl : w₀ = twice := hw
  obtain rfl : procs = fun _ => .fresh := funext hfresh
  obtain ⟨acts, seen, habs, hsub, hby⟩ :=
    crew_refines twiceCrew twice start_twice distinctOrdinals_twice distinctIds_twice _ _ hexec
  exact ⟨_, _, acts, seen, hexec, hlen, habs, hsub, hby⟩

theorem charges_in_order_twice : ∃ c, RunsTo twiceCrew twice c ∧ c.shared.server.db.charges.length = 2 ∧
    InOrder twiceCrew twiceTurns c.shared := by
  obtain ⟨w, hrun, hlen⟩ := run_twice
  have hstart : RunsTo twiceCrew twice ⟨twice, fun _ => .fresh⟩ := Lts.Reachable.start ⟨rfl, fun _ => rfl⟩
  have hdone := System.Reachable.run (hstart.spawn (i := true) rfl) (Function.update_self ..) hrun
  exact ⟨_, hdone, hlen,
    (charges_in_order twiceCrew twice start_twice distinctOrdinals_twice distinctIds_twice _ hdone).1⟩

end Twice

end AgentTx.Dtx.Charge
