import AgentTx.Dtx.Alone
import AgentTx.Dtx.Plan

/-!
# `Dtx.Charge` — charges are exactly-once, and fenced, whatever the coordinators do

Any number of coordinators recover turns from their durable plans on PostgreSQL, each with a token of its
own, interleaved statement by statement and dying anywhere. The contract (`contract`) says that a row of
`actions` and its charge are committed together, for a step of the durable plan, by a coordinator whose
token is the turn's at that moment; and that a committed turn has all its rows.

Layout of the proof:
* **The contract** — `Inv` is what is durable, `May i` what a step of coordinator `i` may do to it, and `Underway`
  what a coordinator knows of its own turn: its token, its plan, and which steps are behind it.
* **What each commit owes** — three lemmas for the three transactions that change anything (`acquired_ok`,
  `charged_ok`, `committed_ok`). The lock of the owner row makes the check and the commit of a charge one step.
* **The coordinators** — `coordinator_rule` is the loop over the plan under any contract; `coordinator_spec` is its
  instance for this one.
* **Runs** — `crew_verified` carries the contract over every interleaving, with deaths anywhere.

Main result: `charges_exactly_once` (`ExactlyOnce` in every state, `Fenced` on every step, and no effect of a
coordinator that is `FencedOut`).
-/

namespace AgentTx.Dtx.Charge

variable {ι : Type}

/-! ## The contract

Three things of a turn are durable: its owner epoch, its rows with their charges, and its state. -/

section Contract

variable (turns₀ : Table (String × String) TurnRow) (turnOf : ι → String × String)

/-- What holds of the committed tables at every moment. -/
structure Inv (p : Public ι) : Prop where
  plans : ∀ k, SamePlan (p.db.turns k) (turns₀ k)
  action : ∀ aid r, p.db.actions aid = some r → ∃ cid args order amount,
    IsStep turns₀ r.session r.turn cid r.ordinal args ∧
    aid = action_id r.session r.turn cid r.ordinal ∧ args_fingerprint args = some r.args_fp ∧
    subscript args "order" = .ok order ∧ subscript args "amount" = .ok amount ∧
    p.db.chargesOf aid = [⟨order, amount, aid⟩]
  orphan : ∀ aid, p.db.actions aid = none → p.db.chargesOf aid = []
  committed : ∀ s t r, p.db.turns (s, t) = some r → r.state = .committed → ∀ step ∈ planSteps r,
    ∃ o, ordinalOf step = .ok o ∧ (p.db.actions (action_id s t r.commit_id o)).isSome
  tokens : ∀ i e, p.held i = some e → ∃ e', p.db.turn_owner (turnOf i) = some e' ∧ e ≤ e'

/-- What coordinator `i` may do to them. -/
structure May (i : ι) (p p' : Public ι) : Prop where
  actions : ∀ aid r, p.db.actions aid = some r → p'.db.actions aid = some r
  fenced : ∀ aid r, p'.db.actions aid = some r → p.db.actions aid = none →
    p.held i = some r.owner_epoch ∧ p.db.turn_owner (turnOf i) = some r.owner_epoch ∧
      (r.session, r.turn) = turnOf i
  epoch : ∀ k e, p.db.turn_owner k = some e → ∃ e', p'.db.turn_owner k = some e' ∧ e ≤ e'
  held : ∀ j e, p.held j = some e → p'.held j = some e
  token : ∀ e, p.held i = none → p'.held i = some e →
    p'.db.turn_owner (turnOf i) = some e ∧ ∀ e', p.db.turn_owner (turnOf i) = some e' → e' < e

variable {turns₀ turnOf}

/-- A step that adds no action, and moves no epoch and no token. -/
theorem May.same {i : ι} {p p' : Public ι} (hactions : p'.db.actions = p.db.actions)
    (howner : p'.db.turn_owner = p.db.turn_owner) (hheld : p'.held = p.held) : May turnOf i p p' where
  actions aid r h := by rw [hactions]; exact h
  fenced aid r h hn := by
    rw [hactions, hn] at h
    cases h
  epoch k e h := ⟨e, by rw [howner]; exact h, Nat.le_refl e⟩
  held j e h := by rw [hheld]; exact h
  token e hn h := by
    rw [hheld, hn] at h
    cases h

variable (turns₀ turnOf) in
def contract : Contract ι where
  inv := Inv turns₀ turnOf
  may := May turnOf
  may_refl _ _ := May.same rfl rfl rfl

variable {i : ι} {p : Public ι} {s t cid : String} {ep : Nat} {steps : List Json}

/-- The first `done` steps of the turn have been committed, and `steps` are to come. -/
structure Underway (turns₀ : Table (String × String) TurnRow) (i : ι) (s t cid : String) (ep : Nat)
    (steps : List Json) (p : Public ι) : Prop where
  held : p.held i = some ep
  plan : ∃ r done, turns₀ (s, t) = some r ∧ r.commit_id = cid ∧ planSteps r = done ++ steps ∧
    ∀ step ∈ done, ∃ o, ordinalOf step = .ok o ∧ (p.db.actions (action_id s t cid o)).isSome

theorem isSome_of_keeps {p' : Public ι} {aid : String}
    (h : ∀ aid r, p.db.actions aid = some r → p'.db.actions aid = some r)
    (hs : (p.db.actions aid).isSome) : (p'.db.actions aid).isSome := by
  obtain ⟨r, hr⟩ := Option.isSome_iff_exists.mp hs
  rw [h aid r hr]
  rfl

theorem Underway.keeps : (contract turns₀ turnOf).Keeps i [] (Underway turns₀ i s t cid ep steps) := by
  rintro j p p' hji hp hp' hmay hheld - ⟨hi, hplan⟩
  refine ⟨hheld.trans hi, Passed.mono hplan ?_⟩
  rintro step ⟨o, ho, hsome⟩
  exact ⟨o, ho, isSome_of_keeps hmay.actions hsome⟩

/-- The step at hand is a step of the durable plan. -/
theorem Underway.isStep {step args : Json} {o : Ordinal}
    (h : Underway turns₀ i s t cid ep (step :: steps) p) (ho : ordinalOf step = .ok o)
    (hargs : subscript step "args" = .ok args) : IsStep turns₀ s t cid o args :=
  Passed.isStep h.plan ho hargs

/-- The step at hand has its row. -/
theorem Underway.next {p' : Public ι} {step : Json} {o : Ordinal}
    (h : Underway turns₀ i s t cid ep (step :: steps) p) (ho : ordinalOf step = .ok o)
    (hheld : p'.held i = p.held i)
    (hactions : ∀ aid r, p.db.actions aid = some r → p'.db.actions aid = some r)
    (hsome : (p'.db.actions (action_id s t cid o)).isSome) :
    Underway turns₀ i s t cid ep steps p' := by
  refine ⟨hheld.trans h.held, Passed.next (Passed.mono h.plan ?_) ⟨o, ho, hsome⟩⟩
  rintro step' ⟨o', ho', hsome'⟩
  exact ⟨o', ho', isSome_of_keeps hactions hsome'⟩

/-- The steps of the plan that `load_plan` reads are the durable ones. -/
theorem Underway.start {r : TurnRow} {plan : Json} (hp : Inv turns₀ turnOf p) (hheld : p.held i = some ep)
    (hr : p.db.turns (s, t) = some r) (hplan : json_loads r.plan = .ok plan)
    (hitems : iterate plan = .ok steps) : Underway turns₀ i s t r.commit_id ep steps p := by
  have hsame := (hp.plans (s, t))
  rw [hr] at hsame
  exact ⟨hheld, Passed.start hsame hplan hitems⟩

variable [DecidableEq ι]

/-! ## What each commit owes the contract

Each is a fact about the tables before and after, without a program in it. -/

/-- `acquire`. -/
theorem acquired_ok (hp : Inv turns₀ turnOf p) (hheld : p.held i = none) (hturn : turnOf i = (s, t))
    (hep : (p.db.turn_owner (s, t)).elim 1 (· + 1) = ep) :
    Inv turns₀ turnOf (Contract.acquired i s t ep p) ∧ May turnOf i p (Contract.acquired i s t ep p) := by
  have hself : (Contract.acquired i s t ep p).db.turn_owner (turnOf i) = some ep := by
    rw [hturn]
    exact Contract.acquired_owner
  refine ⟨⟨hp.plans, hp.action, hp.orphan, hp.committed, fun j e hj => ?_⟩,
    ⟨fun _ _ h => h, ?_, fun k e he => Contract.acquired_epoch hep he, fun j e hj => ?_, fun e _ he => ?_⟩⟩
  · by_cases hji : j = i
    · subst hji
      -- its own token is the newest one
      rw [Contract.acquired_held] at hj
      exact ⟨ep, hself, by rw [Option.some.inj hj]⟩
    · rw [Contract.acquired_held_of_ne hji] at hj
      obtain ⟨e', he', hle⟩ := hp.tokens j e hj
      obtain ⟨e'', he'', hle'⟩ := Contract.acquired_epoch hep he'
      exact ⟨e'', he'', Nat.le_trans hle hle'⟩
  · intro aid r h hn
    rw [show p.db.actions aid = some r from h] at hn
    cases hn
  · -- a token that is held stays: this coordinator held none
    have hji : j ≠ i := by
      rintro rfl
      rw [hheld] at hj
      cases hj
    rw [Contract.acquired_held_of_ne hji]
    exact hj
  · rw [Contract.acquired_held] at he
    cases he
    exact ⟨hself, fun e' he' => Contract.lt_of_acquire hep (hturn ▸ he')⟩

omit [DecidableEq ι] in
/-- A charge whose claim is won. -/
theorem charged_ok {o : Ordinal} {args order amount : Json} {afp : String} (hp : Inv turns₀ turnOf p)
    (hturn : turnOf i = (s, t)) (hheld : p.held i = some ep) (hstep : IsStep turns₀ s t cid o args)
    (hafp : args_fingerprint args = some afp) (horder : subscript args "order" = .ok order)
    (hamount : subscript args "amount" = .ok amount) (howner : p.db.turn_owner (s, t) = some ep)
    (hnone : p.db.actions (action_id s t cid o) = none) :
    let p' := p.commit
      (Contract.chargeWrites (action_id s t cid o) (DTX.chargeRow s t o afp ep) order amount)
    Inv turns₀ turnOf p' ∧ May turnOf i p p' := by
  intro p'
  have hself : p'.db.actions (action_id s t cid o) = _ := Contract.charged_action_self
  -- rows stay: the only one that is written was not there
  have hactions : ∀ aid r, p.db.actions aid = some r → p'.db.actions aid = some r := by
    intro aid r hr
    have hne : aid ≠ action_id s t cid o := by
      rintro rfl
      rw [hnone] at hr
      cases hr
    exact (Contract.charged_action_of_ne hne).trans hr
  refine ⟨⟨hp.plans, fun aid r hr => ?_, fun aid hn => ?_, fun s' t' r hr hst step hmem => ?_, hp.tokens⟩,
    ⟨hactions, fun aid r hr hn => ?_, fun k e he => ⟨e, he, Nat.le_refl e⟩, fun _ _ h => h,
      fun e hn he => ?_⟩⟩
  · by_cases haid : aid = action_id s t cid o
    · -- the row just claimed, with its charge
      subst haid
      cases hself.symm.trans hr
      refine ⟨cid, args, order, amount, hstep, rfl, hafp, horder, hamount, ?_⟩
      refine Contract.charged_chargesOf_self.trans ?_
      rw [hp.orphan _ hnone]
      rfl
    · obtain ⟨cid', args', order', amount', h₁, h₂, h₃, h₄, h₅, hcharge⟩ :=
        hp.action aid r ((Contract.charged_action_of_ne haid).symm.trans hr)
      exact ⟨cid', args', order', amount', h₁, h₂, h₃, h₄, h₅,
        (Contract.charged_chargesOf_of_ne haid).trans hcharge⟩
  · -- an action without a row is another one
    have haid : aid ≠ action_id s t cid o := by
      rintro rfl
      rw [hself] at hn
      cases hn
    exact (Contract.charged_chargesOf_of_ne haid).trans
      (hp.orphan aid ((Contract.charged_action_of_ne haid).symm.trans hn))
  · -- the rows of a committed turn were there before
    obtain ⟨o', ho', hsome⟩ := hp.committed s' t' r hr hst step hmem
    exact ⟨o', ho', isSome_of_keeps hactions hsome⟩
  · by_cases haid : aid = action_id s t cid o
    · -- the only new row is the one this coordinator has claimed as the owner
      subst haid
      cases hself.symm.trans hr
      exact ⟨hheld, hturn ▸ howner, hturn.symm⟩
    · rw [Contract.charged_action_of_ne haid, hn] at hr
      cases hr
  · rw [show p.held i = some e from he] at hn
    cases hn

omit [DecidableEq ι] in
/-- The end of a turn: all steps of the plan are behind. -/
theorem committed_ok (hp : Inv turns₀ turnOf p) (h : Underway turns₀ i s t cid ep [] p) :
    Inv turns₀ turnOf (p.commit [.setCommitted s t]) ∧ May turnOf i p (p.commit [.setCommitted s t]) := by
  let recorded (s t cid : String) (step : Json) : Prop :=
    ∃ o, ordinalOf step = .ok o ∧ (p.db.actions (action_id s t cid o)).isSome
  refine ⟨⟨fun k => ?_, hp.action, hp.orphan, fun s' t' r hr hst => ?_, hp.tokens⟩, May.same rfl rfl rfl⟩
  · exact (samePlan_setCommitted p.db s t k).trans (hp.plans k)
  · exact all_committed (D := recorded) hp.plans hp.committed h.plan hr hst

end Contract

/-! ## The coordinators

A coordinator is a worker of the gate, or a caller of `run_turn` that brings no plan. -/

/-- What a coordinator does, and for which turn. -/
inductive Role where
  | recover (session turn : String) (crash_at : Option Int)
  | worker (session turn : String)

/-- The turn it works on. -/
def Role.turn : Role → String × String
  | recover session turn _ => (session, turn)
  | worker session turn => (session, turn)

section Coordinators

variable [DecidableEq ι] [Driver]

/-- Coordinator `i`, with process id `pid`, on PostgreSQL. -/
def coordinator (i : ι) (pid : Nat) : Role → DtxProg ι Unit
  | .recover session turn crash_at => turnProcess ⟨i, true, pid⟩ session turn none none crash_at
  | .worker session turn => chargeWorker ⟨i, true, pid⟩ session turn

/-- **The rule for a coordinator**, whatever its contract: `A` is what holds once the turn is acquired, and `F`
    when some steps of the plan are to come. -/
theorem coordinator_rule {C : Contract ι} {i : ι} {pid : Nat} {role : Role} {A : Nat → Public ι → Prop}
    {F : String → Nat → List Json → Public ι → Prop}
    (hacq : (C.rules true).Triple i (Contract.Unstarted true i) (DTX.acquire ⟨i, true, pid⟩ role.turn.1 role.turn.2)
      (fun ep => Contract.At true i [] [] (A ep)) fun _ _ => True)
    (hA : ∀ ep, C.Keeps i [] (A ep)) (hF : ∀ cid ep steps, C.Keeps i [] (F cid ep steps))
    (hload : ∀ ep p r plan items, C.inv p → A ep p → p.db.turns role.turn = some r →
      json_loads r.plan = .ok plan → iterate plan = .ok items → F r.commit_id ep items p)
    (hok : ∀ cid ep step steps o args, ordinalOf step = .ok o → subscript step "args" = .ok args →
      Contract.ChargeOk C ⟨i, true, pid⟩ role.turn.1 role.turn.2 cid o args ep (F cid ep (step :: steps))
        fun _ => F cid ep steps)
    (hcommit : ∀ cid ep p, C.inv p → F cid ep [] p →
      C.inv (p.commit [.setCommitted role.turn.1 role.turn.2]) ∧
        C.may i p (p.commit [.setCommitted role.turn.1 role.turn.2])) :
    (C.rules true).Triple i (Contract.Unstarted true i) (coordinator i pid role) (fun _ _ => True)
      fun _ _ => True := by
  cases role with
  | recover s t crash_at =>
    exact Contract.turnProcess (c := ⟨i, true, pid⟩) hacq hA hF nofun hload hok hcommit
  | worker s t =>
    refine Contract.gateWorker (c := ⟨i, true, pid⟩) hacq hA (fun cid ep => hF cid ep []) hload ?_ hcommit
    -- the action of the gate is `do_charge`, with its answer forgotten
    intro cid ep step steps o args ho hargs
    have hcharge : (C.rules true).Triple i (Contract.At true i [] [] (F cid ep (step :: steps)))
        (DTX.do_charge ⟨i, true, pid⟩ s t cid o args ep false) (fun _ => Contract.At true i [] [] (F cid ep steps))
        fun _ => Contract.At true i [] [] (F cid ep (step :: steps)) :=
      Contract.do_charge (hF cid ep (step :: steps)) (fun _ => hF cid ep steps) (hok cid ep step steps o args ho hargs)
    have hbody : (C.rules true).Triple i (Contract.At true i [] [] (F cid ep (step :: steps)))
        (do
          let _ ← DTX.do_charge ⟨i, true, pid⟩ s t cid o args ep false
          pure true)
        (fun b w => b = true → Contract.At true i [] [] (F cid ep steps) w) fun _ _ => True := by
      refine RelyGuarantee.Triple.bind (hcharge.conseq (fun _ _ h => h) (fun _ _ _ h => h) fun _ _ _ _ => trivial) ?_
      intro r w hw hat _
      exact hat
    refine hbody.tryCatch fun e => ?_
    -- a worker that is fenced out gives up; any other exception leaves it
    by_cases he : e = .StaleOwner
    · rw [if_pos he]
      intro w hw _ h
      cases h
    · rw [if_neg he]
      intro w hw _
      trivial

section Programs

variable {turns₀ : Table (String × String) TurnRow} {turnOf : ι → String × String} {i : ι} {pid : Nat}
  {s t : String}

omit [Driver] in
theorem acquire_spec (hturn : turnOf i = (s, t)) :
    ((contract turns₀ turnOf).rules true).Triple i (Contract.At true i [] [] fun p => p.held i = none)
      (DTX.acquire ⟨i, true, pid⟩ s t) (fun ep => Contract.At true i [] [] fun p => p.held i = some ep)
      fun _ _ => True := by
  refine Contract.acquire (c := ⟨i, true, pid⟩) (Contract.keeps_held none) fun p ep hp hheld hep => ?_
  obtain ⟨hinv, hmay⟩ := acquired_ok hp hheld hturn hep
  exact ⟨hinv, hmay, Function.update_self ..⟩

omit [DecidableEq ι] in
theorem chargeOk (hturn : turnOf i = (s, t)) {cid : String} {ep : Nat} {step args : Json} {o : Ordinal}
    {steps : List Json} (ho : ordinalOf step = .ok o) (hargs : subscript step "args" = .ok args) :
    Contract.ChargeOk (contract turns₀ turnOf) ⟨i, true, pid⟩ s t cid o args ep
      (Underway turns₀ i s t cid ep (step :: steps)) fun _ => Underway turns₀ i s t cid ep steps where
  win p afp order amount hp hf hafp horder hamount _ howner hnone := by
    obtain ⟨hinv, hmay⟩ := charged_ok hp hturn hf.held (hf.isStep ho hargs) hafp horder hamount
      (howner rfl) hnone
    refine ⟨hinv, hmay, hf.next ho rfl hmay.actions ?_⟩
    rw [Contract.charged_action_self]
    rfl
  found p afp ex v hp hf hafp _ hex hfp hv := by
    refine hf.next ho rfl (fun _ _ h => h) ?_
    rw [hex]
    rfl

/-- **Every coordinator keeps the contract.** -/
theorem coordinator_spec {role : Role} (hturn : turnOf i = role.turn) :
    ((contract turns₀ turnOf).rules true).Triple i (Contract.Unstarted true i) (coordinator i pid role)
      (fun _ _ => True) fun _ _ => True := by
  cases role with
  | recover s t crash_at =>
    refine Contract.turnProcess (c := ⟨i, true, pid⟩) (A := fun ep p => p.held i = some ep)
      (F := Underway turns₀ i s t) (acquire_spec hturn) (fun ep => Contract.keeps_held _)
      (fun cid ep steps => Underway.keeps) nofun ?_ (fun cid ep step steps o args => chargeOk hturn)
      fun cid ep p => committed_ok
    exact fun ep p r plan items hp hheld hr hplan hitems => Underway.start hp hheld hr hplan hitems
  | worker s t =>
    refine Contract.gateWorker (c := ⟨i, true, pid⟩) (A := fun ep p => p.held i = some ep)
      (F := Underway turns₀ i s t) (acquire_spec hturn) (fun ep => Contract.keeps_held _)
      (fun cid ep => Underway.keeps) ?_ ?_ fun cid ep p => committed_ok
    · exact fun ep p r plan items hp hheld hr hplan hitems => Underway.start hp hheld hr hplan hitems
    · intro cid ep step steps o args ho hargs
      have hok : Contract.ChargeOk (contract turns₀ turnOf) ⟨i, true, pid⟩ s t cid o args ep
          (Underway turns₀ i s t cid ep (step :: steps)) (fun _ => Underway turns₀ i s t cid ep steps) :=
        chargeOk hturn ho hargs
      have hcharge : ((contract turns₀ turnOf).rules true).Triple i
          (Contract.At true i [] [] (Underway turns₀ i s t cid ep (step :: steps)))
          (DTX.do_charge ⟨i, true, pid⟩ s t cid o args ep false)
          (fun _ => Contract.At true i [] [] (Underway turns₀ i s t cid ep steps)) fun _ _ => True :=
        (Contract.do_charge Underway.keeps (fun _ => Underway.keeps) hok).conseq (fun _ _ h => h) (fun _ _ _ h => h)
          fun _ _ _ _ => trivial
      have hbody : ((contract turns₀ turnOf).rules true).Triple i
          (Contract.At true i [] [] (Underway turns₀ i s t cid ep (step :: steps)))
          (do
            let _ ← DTX.do_charge ⟨i, true, pid⟩ s t cid o args ep false
            pure true)
          (fun b w => b = true → Contract.At true i [] [] (Underway turns₀ i s t cid ep steps) w)
          fun _ _ => True :=
        hcharge.bind fun _ => fun _ _ hat _ => hat
      -- fenced out, it stops; on anything else too
      refine hbody.tryCatch fun e => ?_
      by_cases he : e = .StaleOwner
      · rw [if_pos he]
        exact fun _ _ _ => nofun
      · rw [if_neg he]
        exact fun _ _ _ => trivial

end Programs

/-! ## Runs

Nothing is assumed of the schedule: any statement of any coordinator may come next, or its death. -/

/-- Before the run: plans are stored, all turns are open, and no action has been taken. -/
structure Start (w : World ι) : Prop where
  quiescent : Quiescent w
  open_turns : ∀ k r, w.server.db.turns k = some r → r.state = .open
  no_actions : ∀ aid, w.server.db.actions aid = none
  no_charges : w.server.db.charges = []

/-- The coordinators of a run: what each one does, in which process. -/
structure Crew (ι : Type) where
  role : ι → Role
  pid : ι → Nat

def Crew.system (crew : Crew ι) : System ι Empty Stmt (World ι) Exn Unit :=
  Dtx.system fun i => coordinator i (crew.pid i) (crew.role i)

section Runs

variable {crew : Crew ι} {w₀ : World ι} {c c' : Config ι Stmt (World ι) Exn Unit}

/-- The contract of a crew. -/
abbrev crewContract (crew : Crew ι) (w₀ : World ι) : Contract ι :=
  contract w₀.server.db.turns fun i => (crew.role i).turn

theorem crew_verified (crew : Crew ι) (w₀ : World ι) :
    RelyGuarantee.Verified crew.system ((crewContract crew w₀).rules true) (Contract.Unstarted true) :=
  Contract.verified fun _ => coordinator_spec rfl

omit [DecidableEq ι] [Driver] in
theorem inv_start (h₀ : Start w₀) : (crewContract crew w₀).inv w₀.pub where
  plans _ := .refl _
  action aid r h := by
    rw [show w₀.pub.db.actions aid = none from h₀.no_actions aid] at h
    cases h
  orphan aid _ := by
    show w₀.server.db.chargesOf aid = []
    rw [Db.chargesOf, h₀.no_charges]
    rfl
  committed s t r hr hst := by
    rw [h₀.open_turns (s, t) r hr] at hst
    cases hst
  tokens i e he := by
    rw [show w₀.pub.held i = none from h₀.quiescent.held i] at he
    cases he

/-- The runs of a crew from `w₀`. -/
def RunsTo (crew : Crew ι) (w₀ : World ι) (c : Config ι Stmt (World ι) Exn Unit) : Prop :=
  crew.system.Reachable (· = w₀) c

theorem RunsTo.inv (h₀ : Start w₀) (h : RunsTo crew w₀ c) : (crewContract crew w₀).inv c.shared.pub := by
  have hinit := Contract.init_of_quiescent (C := crewContract crew w₀) true h₀.quiescent (inv_start h₀)
  exact ((crew_verified crew w₀).inv (fun _ _ _ => trivial) hinit h).2

/-- **What a step may do.** -/
theorem RunsTo.may (h₀ : Start w₀) (h : RunsTo crew w₀ c) {l : Label ι Empty Stmt}
    (hstep : crew.system.step c l = some c') :
    (∃ i t, l = .next i t ∧ May (fun i => (crew.role i).turn) i c.shared.pub c'.shared.pub) ∨
      c'.shared.pub = c.shared.pub := by
  have hinit := Contract.init_of_quiescent (C := crewContract crew w₀) true h₀.quiescent (inv_start h₀)
  have hguar : ∀ i t, l = .next i t → ((crewContract crew w₀).rules true).Guar i t c.shared c'.shared := by
    rintro i t rfl
    exact (crew_verified crew w₀).guar (fun _ _ _ => trivial) hinit h hstep
  exact Contract.may_step hguar hstep

omit [DecidableEq ι] [Driver] in
/-- A coordinator whose token has been overtaken. -/
theorem May.stale {turnOf : ι → String × String} {i j : ι} {p p' : Public ι} {e e' : Nat}
    (h : May turnOf j p p') (hheld : p.held i = some e) (howner : p.db.turn_owner (turnOf i) = some e')
    (hlt : e < e') :
    p'.held i = some e ∧ ∃ e'', p'.db.turn_owner (turnOf i) = some e'' ∧ e < e'' := by
  obtain ⟨e'', he'', hle⟩ := h.epoch _ e' howner
  exact ⟨h.held i e hheld, e'', he'', Nat.lt_of_lt_of_le hlt hle⟩

omit [DecidableEq ι] [Driver] in
theorem May.adds_none {turnOf : ι → String × String} {i : ι} {p p' : Public ι} {e e' : Nat}
    (h : May turnOf i p p') (hheld : p.held i = some e) (howner : p.db.turn_owner (turnOf i) = some e')
    (hlt : e < e') {aid : String} (hn : p.db.actions aid = none) : p'.db.actions aid = none := by
  cases hr : p'.db.actions aid with
  | none => rfl
  | some r =>
    obtain ⟨hmine, hepoch, -⟩ := h.fenced aid r hr hn
    rw [hheld] at hmine
    rw [howner] at hepoch
    have he : e = e' := Option.some.inj (hmine.trans hepoch.symm)
    omega

/-! ## The theorem

The invariant says what it needs for induction; `ExactlyOnce` and `Fenced` say the same in terms of the plan. -/

/-- What the tables say of the charges. -/
structure ExactlyOnce (db : Db) : Prop where
  at_most_one : ∀ aid, (db.chargesOf aid).length ≤ 1
  iff_action : ∀ aid, db.chargesOf aid ≠ [] ↔ (db.actions aid).isSome
  of_plan : ∀ ch ∈ db.charges, ∃ s t cid o args, IsStep db.turns s t cid o args ∧
    ch.action_id = action_id s t cid o
  carries : ∀ s t cid o args, IsStep db.turns s t cid o args → ∀ ch ∈ db.chargesOf (action_id s t cid o),
    subscript args "order" = .ok ch.order_id ∧ subscript args "amount" = .ok ch.amount
  committed : ∀ s t r, db.turns (s, t) = some r → r.state = .committed → ∀ step ∈ planSteps r,
    ∃ o ch, ordinalOf step = .ok o ∧ db.chargesOf (action_id s t r.commit_id o) = [ch]

/-- A row of `actions` stays as it is once it is committed, and it is committed by a coordinator that
    holds the turn's epoch at that moment. -/
structure Fenced (crew : Crew ι) (c : Config ι Stmt (World ι) Exn Unit) : Prop where
  stays : ∀ l c', crew.system.step c l = some c' → ∀ aid r, c.shared.server.db.actions aid = some r →
    c'.shared.server.db.actions aid = some r
  owner : ∀ l c', crew.system.step c l = some c' → ∀ aid r, c'.shared.server.db.actions aid = some r →
    c.shared.server.db.actions aid = none → ∃ i t, l = .next i t ∧
      c.shared.held i = some r.owner_epoch ∧
      c.shared.server.db.turn_owner (r.session, r.turn) = some r.owner_epoch

/-- Coordinator `j` commits its `acquire` of the turn of `i`, which has acquired before: from then on `i`
    adds no row. -/
def FencedOut (crew : Crew ι) (c : Config ι Stmt (World ι) Exn Unit) : Prop :=
  ∀ i j t c₁ ls c₂ t' c₃, (crew.role i).turn = (crew.role j).turn → c.shared.held i ≠ none →
    crew.system.step c (.next j t) = some c₁ → c.shared.held j = none → c₁.shared.held j ≠ none →
    Lts.Exec (Lts.ofFun crew.system.step) c₁ ls c₂ → crew.system.step c₂ (.next i t') = some c₃ →
    ∀ aid, c₂.shared.server.db.actions aid = none → c₃.shared.server.db.actions aid = none

omit [DecidableEq ι] [Driver] in
/-- An action without a row has no charge, and one with a row has one. -/
theorem Inv.one_charge {turns₀ : Table (String × String) TurnRow} {turnOf : ι → String × String} {p : Public ι}
    (hp : Inv turns₀ turnOf p) (aid : String) : (p.db.actions aid = none ∧ p.db.chargesOf aid = []) ∨
      ∃ r ch, p.db.actions aid = some r ∧ p.db.chargesOf aid = [ch] := by
  cases ha : p.db.actions aid with
  | none => exact Or.inl ⟨rfl, hp.orphan aid ha⟩
  | some r =>
    obtain ⟨cid, args, order, amount, -, -, -, -, -, hcharge⟩ := hp.action aid r ha
    exact Or.inr ⟨r, _, rfl, hcharge⟩

omit [DecidableEq ι] [Driver] in
theorem Inv.exactlyOnce {turns₀ : Table (String × String) TurnRow} {turnOf : ι → String × String}
    {p : Public ι} (hp : Inv turns₀ turnOf p) (hord : DistinctOrdinals turns₀) (hids : DistinctIds turns₀) :
    ExactlyOnce p.db := by
  refine ⟨fun aid => ?_, fun aid => ?_, fun ch hch => ?_, fun s t cid o args hstep ch hch => ?_,
    fun s t r hr hst step hmem => ?_⟩
  · rcases hp.one_charge aid with ⟨-, hcharge⟩ | ⟨r, ch, -, hcharge⟩
    · simp [hcharge]
    · simp [hcharge]
  · rcases hp.one_charge aid with ⟨ha, hcharge⟩ | ⟨r, ch, ha, hcharge⟩
    · simp [ha, hcharge]
    · simp [ha, hcharge]
  · -- a charge without its row is an orphan
    have hmem : ch ∈ p.db.chargesOf ch.action_id := List.mem_filter.mpr ⟨hch, by simp⟩
    cases ha : p.db.actions ch.action_id with
    | none =>
      rw [hp.orphan _ ha] at hmem
      cases hmem
    | some r =>
      obtain ⟨cid, args, order, amount, hstep, haid, -⟩ := hp.action _ r ha
      exact ⟨r.session, r.turn, cid, r.ordinal, args, hstep.congr hp.plans, haid⟩
  · cases ha : p.db.actions (action_id s t cid o) with
    | none =>
      rw [hp.orphan _ ha] at hch
      cases hch
    | some r =>
      obtain ⟨cid', args', order, amount, hstep', haid, -, horder, hamount, hcharge⟩ := hp.action _ r ha
      have hstep₀ : IsStep turns₀ s t cid o args := hstep.congr fun k => (hp.plans k).symm
      -- one id, one step: the charge has the arguments of this one
      obtain ⟨-, -, -, rfl⟩ := hstep₀.unique hord hids hstep' haid
      rw [hcharge, List.mem_singleton] at hch
      subst hch
      exact ⟨horder, hamount⟩
  · obtain ⟨o, ho, hsome⟩ := hp.committed s t r hr hst step hmem
    obtain ⟨row, hrow⟩ := Option.isSome_iff_exists.mp hsome
    obtain ⟨cid, args, order, amount, -, -, -, -, -, hcharge⟩ := hp.action _ row hrow
    exact ⟨o, _, ho, hcharge⟩

/-- **Exactly-once with fencing.** -/
theorem charges_exactly_once (crew : Crew ι) (w₀ : World ι) (h₀ : Start w₀)
    (hord : DistinctOrdinals w₀.server.db.turns) (hids : DistinctIds w₀.server.db.turns)
    (c : Config ι Stmt (World ι) Exn Unit) (hc : RunsTo crew w₀ c) :
    ExactlyOnce c.shared.server.db ∧ Fenced crew c ∧ FencedOut crew c := by
  refine ⟨(hc.inv h₀).exactlyOnce hord hids, ⟨?_, ?_⟩, ?_⟩
  · intro l c' hstep aid r hr
    rcases hc.may h₀ hstep with ⟨i, t, -, hmay⟩ | hsame
    · exact hmay.actions aid r hr
    · show c'.shared.pub.db.actions aid = some r
      rw [hsame]
      exact hr
  · intro l c' hstep aid r hr hn
    rcases hc.may h₀ hstep with ⟨i, t, rfl, hmay⟩ | hsame
    · obtain ⟨hheld, howner, hturn⟩ := hmay.fenced aid r hr hn
      exact ⟨i, t, rfl, hheld, hturn ▸ howner⟩
    · rw [show c'.shared.server.db = c.shared.server.db from congrArg Public.db hsame, hn] at hr
      cases hr
  · intro i j t c₁ ls c₂ t' c₃ hturn hi hstep hj hj₁ hrun hstep' aid hn
    obtain ⟨e, he⟩ := Option.ne_none_iff_exists'.mp hi
    obtain ⟨e₁, he₁⟩ := Option.ne_none_iff_exists'.mp hj₁
    -- the epoch that `j` gets is above every token of the turn
    have hstale : c₁.shared.held i = some e ∧
        ∃ e', c₁.shared.server.db.turn_owner (crew.role i).turn = some e' ∧ e < e' := by
      rcases hc.may h₀ hstep with ⟨_, _, hl, hmay⟩ | hsame
      · cases hl
        obtain ⟨howner, hlt⟩ := hmay.token e₁ hj he₁
        obtain ⟨e', he', hle⟩ := (hc.inv h₀).tokens i e he
        exact ⟨hmay.held i e he, e₁, hturn ▸ howner, Nat.lt_of_le_of_lt hle (hlt e' (hturn ▸ he'))⟩
      · rw [show c₁.shared.held = c.shared.held from congrArg Public.held hsame] at he₁
        rw [hj] at he₁
        cases he₁
    -- and stays there
    have hrun₁ : RunsTo crew w₀ c₁ := Lts.Reachable.step hc hstep
    obtain ⟨hc₂, hheld₂, e', howner₂, hlt⟩ := hrun.invariant
      (fun d => RunsTo crew w₀ d ∧ d.shared.held i = some e ∧
        ∃ e', d.shared.server.db.turn_owner (crew.role i).turn = some e' ∧ e < e')
      (fun d l d' hd hds => by
        obtain ⟨hd, hheld, e', howner, hlt⟩ := hd
        refine ⟨Lts.Reachable.step hd hds, ?_⟩
        rcases hd.may h₀ hds with ⟨k, _, -, hmay⟩ | hsame
        · exact hmay.stale hheld howner hlt
        · rw [show d'.shared.held = d.shared.held from congrArg Public.held hsame,
            show d'.shared.server.db = d.shared.server.db from congrArg Public.db hsame]
          exact ⟨hheld, e', howner, hlt⟩)
      ⟨hrun₁, hstale⟩
    rcases hc₂.may h₀ hstep' with ⟨_, _, hl, hmay⟩ | hsame
    · cases hl
      exact hmay.adds_none hheld₂ howner₂ hlt hn
    · rw [show c₃.shared.server.db = c₂.shared.server.db from congrArg Public.db hsame]
      exact hn

end Runs

/-! A worker that runs the plan of two equal steps. -/

def twice : World Bool := ⟨rest { Db.empty with turns := twiceTurns }, .empty, fun _ => none⟩

def twiceCrew : Crew Bool := ⟨fun _ => .worker "s" "t", fun _ => 1⟩

omit [Driver] in
theorem start_twice : Start twice where
  quiescent := quiescent_rest _ _
  open_turns k r hr := by rw [twiceTurns_eq hr, twiceRow]
  no_actions _ := rfl
  no_charges := rfl

/-- The worker, alone, takes both steps. -/
theorem run_twice : ∃ w, (coordinator true 1 (.worker "s" "t")).run twice = some (.ok (), w) ∧
    w.server.db.charges.length = 2 := by
  obtain ⟨afp, hafp⟩ : ∃ afp, args_fingerprint (.obj [(.str "order", .str "O"), (.str "amount", .int 5)]) =
      some afp := exists_args_fingerprint rfl
  have horder : subscript (.obj [(.str "order", .str "O"), (.str "amount", .int 5)]) "order" =
      .ok (.str "O") := rfl
  have hamount : subscript (.obj [(.str "order", .str "O"), (.str "amount", .int 5)]) "amount" =
      .ok (.int 5) := rfl
  simp [coordinator, chargeWorker, gateWorker, gateWorker.steps, twice, twiceTurns, Db.empty, iterate,
    loads_twice, twiceStep_ordinal, twiceStep_args, DTX.run_acquire, DTX.run_load_plan,
    DTX.run_do_charge_new _ hafp _ horder hamount twice_billable, twice_taken, DTX.run_commit_turn,
    Contract.chargeWrites, Write.apply, Table.update_of_ne _ twice_ids, Function.update_of_ne twice_ids]

end Coordinators

section PostgreSQL

local instance driver : Driver := .postgres

theorem charges_exactly_once_twice : ∃ c, RunsTo twiceCrew twice c ∧
    c.shared.server.db.charges.length = 2 ∧
    ExactlyOnce c.shared.server.db ∧ Fenced twiceCrew c ∧ FencedOut twiceCrew c := by
  obtain ⟨w, hrun, hlen⟩ := run_twice
  have hstart : RunsTo twiceCrew twice ⟨twice, fun _ => .fresh⟩ := Lts.Reachable.start ⟨rfl, fun _ => rfl⟩
  have hdone := System.Reachable.run (hstart.spawn (i := true) rfl) (Function.update_self ..) hrun
  exact ⟨_, hdone, hlen,
    charges_exactly_once twiceCrew twice start_twice distinctOrdinals_twice distinctIds_twice _ hdone⟩

end PostgreSQL

end AgentTx.Dtx.Charge
