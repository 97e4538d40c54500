import AgentTx.Dtx.Charge
import AgentTx.Dtx.Overlay
import AgentTx.Dtx.Transparent
import AgentTx.Lib.Prog.Stop

/-!
# `Dtx.Sweep` — the recovery sweep: a turn can always be brought to its end

The gates race coordinators that die anywhere, and then start one more worker for each turn. Exactly-once says
nothing about that worker: it could wait for a lock for ever, be refused, or find a row it cannot read. It does
not. Once the others have stopped, wherever each of them stands, no lock is held (`Contract.stop`), and what the
race has left of a turn is what its plan is for, up to some step; a worker that then runs by itself takes the turn
to its end.

Layout of the proof, first for charges and then for receipts:
* **The others have stopped** — `Contract.stop`: deaths lead from any state to one at rest, where the contract still
  holds; `Contract.sweep` adds the run of one process by itself.
* **What is left** — `readable`: results in rows can be read. `Answers` compares the tables with the plan played so
  far; `RunsTo.answers` gets it from the invariant of `Dtx.Charge`.
* **By itself** — `run_chargeWorker` and `run_overlayWorker`: the worker's own run, step by step of the plan, each of
  which is new or found done.

Main results: `sweep_charges_once` and `sweep_publishes_once`. Both are for plans whose values the columns take
(`Chargeable`, `Publishable`): a step with another one is refused each time, and its turn stays open.
-/

namespace AgentTx.Dtx

variable {ι : Type} [DecidableEq ι]

/-! ## The others have stopped -/

section Stop

variable {C : Contract ι} {pg : Bool} {main : ι → DtxProg ι Unit} {w₀ : World ι}
  {c : Config ι Stmt (World ι) Exn Unit}

/-- A coordinator that does not run has no transaction open. -/
theorem Contract.idle_of_stopped (hV : RelyGuarantee.Verified (system main) (C.rules pg) (Contract.Unstarted pg))
    (hok : ∀ i t p, C.ok i t p) (h₀ : Quiescent w₀) (hinv : C.inv w₀.pub)
    (hc : (system main).Reachable (· = w₀) c) :
    ∀ i, ¬ System.Running c i → c.shared.server.Idle i := by
  have hinit := Contract.init_of_quiescent (C := C) pg h₀ hinv
  refine Lts.Reachable.invariant (fun c => ∀ i, ¬ System.Running c i → c.shared.server.Idle i) ?_ ?_ hc
  · rintro c ⟨hshared, -⟩ i -
    rw [hshared]
    exact ⟨h₀.pending i, fun l => by rw [h₀.locks l]; exact nofun⟩
  · intro c l c' hc hidle hstep j hj
    -- another process leaves what `j` has, and has not, as it is
    have hother : ∀ {i : ι} {s : World ι} {q : Proc Stmt (World ι) Exn Unit}, j ≠ i →
        c' = ⟨s, Function.update c.procs i q⟩ → c.shared.server.Frame (scheme pg) j s.server → s.server.Idle j := by
      rintro i s q hji rfl hframe
      refine hframe.idle (hidle j fun hrun => hj ?_)
      obtain ⟨p, hp⟩ := hrun
      exact ⟨p, (Function.update_of_ne hji ..).trans hp⟩
    rcases System.step_cases hstep with ⟨i, -, -, hc'⟩ | ⟨i, t, β, act, k, b, s, rfl, -, -, hc'⟩ |
      ⟨i, p, -, -, hc'⟩ | ⟨e, s, -, -, hc'⟩
    · by_cases hji : j = i
      · refine absurd ⟨main j, ?_⟩ hj
        rw [hc', hji]
        exact Function.update_self ..
      · rw [hc']
        exact hother hji hc' .refl
    · by_cases hji : j = i
      · refine absurd ⟨k b, ?_⟩ hj
        rw [hc', hji]
        exact Function.update_self ..
      · have hguar := hV.guar (fun i t s => hok i t s.pub) hinit hc hstep
        rw [hc'] at hguar ⊢
        exact hother hji hc' (hguar.1 j (Ne.symm hji)).1
    · by_cases hji : j = i
      · rw [hc', hji]
        exact TxServer.release_idle
      · rw [hc']
        exact hother hji hc' (TxServer.rollback_frame (Ne.symm hji))
    · exact e.elim

omit [DecidableEq ι] in
/-- Where no transaction is open, there are the tables, the files and the tokens. -/
theorem eq_rest_of_idle {w : World ι} (h : ∀ i, w.server.Idle i) : w = ⟨rest w.server.db, w.files, w.held⟩ := by
  obtain ⟨⟨db, locks, pending⟩, files, held⟩ := w
  have hpending : pending = fun _ => [] := funext fun i => (h i).pending
  have hlocks : locks = fun _ => none := by
    funext l
    cases hl : locks l with
    | none => rfl
    | some i => exact absurd hl ((h i).locks l)
  subst hpending hlocks
  rfl

/-- **Everybody stops.** What is left is what was committed. -/
theorem Contract.stop (hV : RelyGuarantee.Verified (system main) (C.rules pg) (Contract.Unstarted pg))
    (hok : ∀ i t p, C.ok i t p) (h₀ : Quiescent w₀) (hinv : C.inv w₀.pub)
    (hc : (system main).Reachable (· = w₀) c) :
    ∃ ls c', Lts.Exec (Lts.ofFun (system main).step) c ls c' ∧ (∀ l ∈ ls, ∃ i, l = .die i) ∧
      (∀ i, c'.procs i = (c.procs i).kill) ∧ c'.shared = ⟨rest c.shared.server.db, c.shared.files, c.shared.held⟩ := by
  obtain ⟨ls, c', hrun, hls, hprocs, hpub⟩ := System.kill_all (S := system main) (c := c)
    (P := fun w => w.pub = c.shared.pub) (fun i w hw => hw) hc.finite_running rfl
  refine ⟨ls, c', hrun, hls, hprocs, ?_⟩
  -- with every process gone, no transaction is open
  have hidle : ∀ i, c'.shared.server.Idle i := by
    intro i
    refine Contract.idle_of_stopped hV hok h₀ hinv (Lts.Reachable.exec hc hrun) i ?_
    rintro ⟨p, hp⟩
    rw [hprocs i] at hp
    exact System.not_running_kill hp
  obtain ⟨hdb, hfiles, hheld⟩ : c'.shared.server.db = c.shared.server.db ∧ c'.shared.files = c.shared.files ∧
      c'.shared.held = c.shared.held :=
    ⟨congrArg Public.db hpub, congrArg Public.files hpub, congrArg Public.held hpub⟩
  rw [eq_rest_of_idle hidle, hdb, hfiles, hheld]

/-- A label of the sweep: a death, or what the new worker does. -/
def Sweeping (j : ι) (l : Label ι Empty Stmt) : Prop := (∃ i, l = .die i) ∨ System.Own j l

/-- **The sweep**, from what its worker does by itself. -/
theorem Contract.sweep (hV : RelyGuarantee.Verified (system main) (C.rules pg) (Contract.Unstarted pg))
    (hok : ∀ i t p, C.ok i t p) (h₀ : Quiescent w₀) (hinv : C.inv w₀.pub)
    (hc : (system main).Reachable (· = w₀) c) {j : ι} (hj : c.procs j = .fresh) {w' : World ι}
    (hrun : (main j).run ⟨rest c.shared.server.db, c.shared.files, c.shared.held⟩ = some (.ok (), w')) :
    ∃ ls c', Lts.Exec (Lts.ofFun (system main).step) c ls c' ∧ (∀ l ∈ ls, Sweeping j l) ∧ c'.shared = w' := by
  obtain ⟨ls, c₁, hstop, hls, hprocs, hshared⟩ := Contract.stop hV hok h₀ hinv hc
  have hfresh : c₁.procs j = .fresh := by
    rw [hprocs j, hj]
    rfl
  obtain ⟨ls', hls', hown⟩ := System.exec_spawn (S := system main) hfresh (hshared ▸ hrun)
  refine ⟨ls ++ ls', _, hstop.trans hown, ?_, rfl⟩
  intro l hl
  rcases List.mem_append.mp hl with hl | hl
  · exact Or.inl (hls l hl)
  · exact Or.inr (hls' l hl)

end Stop

/-! ## Charges -/

namespace Charge

open Transparent

/-- A step that can be charged: it has an ordinal, arguments that have a text, and there an order and an amount,
    and the columns take all three. -/
def Chargeable [Driver] (step : Json) : Prop := ∃ o args afp order amount, chargeOf step = .ok (o, args) ∧
  o.taken = true ∧ args_fingerprint args = some afp ∧ subscript args "order" = .ok order ∧
  subscript args "amount" = .ok amount ∧ billable order amount = true

/-- What is charged for a step of the plan was charged with the arguments of the plan, and can be read. -/
def Answers (turns₀ : Table (String × String) TurnRow) (s t cid : String) (l : Ledger) : Prop :=
  ∀ o args r, IsStep turns₀ s t cid o args → l.actions (action_id s t cid o) = some r →
    args_fingerprint args = some r.args_fp ∧ ∃ v, r.value = .ok v

section Play

variable [Driver] {turns₀ : Table (String × String) TurnRow} {s t cid : String} {l : Ledger}

/-- A step of the plan can be played, and the ledger answers for the plan as before. -/
theorem Answers.play {step args : Json} {o : Ordinal} (hord : DistinctOrdinals turns₀) (hids : DistinctIds turns₀)
    (h : Answers turns₀ s t cid l) (hchargeable : Chargeable step) (hch : chargeOf step = .ok (o, args))
    (hstep : IsStep turns₀ s t cid o args) :
    ∃ l', Transparent.play s t cid l step = some l' ∧ Answers turns₀ s t cid l' := by
  obtain ⟨_, _, afp, order, amount, hch', ho, hafp, horder, hamount, hbill⟩ := hchargeable
  cases hch.symm.trans hch'
  cases hrow : l.actions (action_id s t cid o) with
  | some ex =>
    obtain ⟨hfp, v, hv⟩ := h o args ex hstep hrow
    exact ⟨l, play_found hch hafp ho hrow (Option.some.inj (hfp.symm.trans hafp)) hv, h⟩
  | none =>
    refine ⟨_, play_new hch hafp ho hrow horder hamount hbill, fun o' args' r hstep' hr => ?_⟩
    by_cases haid : action_id s t cid o' = action_id s t cid o
    · -- the step just charged: it has these arguments
      obtain ⟨-, -, -, rfl⟩ := hstep'.unique hord hids hstep haid
      rw [haid, Ledger.charged_self] at hr
      cases hr
      exact ⟨hafp, _, ActionRow.value_dumps rfl⟩
    · rw [Ledger.charged_of_ne haid] at hr
      exact h o' args' r hstep' hr

/-- So can the rest of the plan. -/
theorem Answers.run {r₀ : TurnRow} (steps : List Json) (hord : DistinctOrdinals turns₀) (hids : DistinctIds turns₀)
    (hr₀ : turns₀ (s, t) = some r₀) (hmem : ∀ step ∈ steps, step ∈ planSteps r₀)
    (hsteps : ∀ step ∈ steps, Chargeable step) (h : Answers turns₀ s t r₀.commit_id l) :
    ∃ l', (replay s t r₀.commit_id).run l steps = some l' := by
  induction steps generalizing l with
  | nil => exact ⟨l, rfl⟩
  | cons step steps ih =>
    obtain ⟨o, args, -, -, -, hch, -⟩ := hsteps step List.mem_cons_self
    have hstep : IsStep turns₀ s t r₀.commit_id o args :=
      ⟨r₀, hr₀, rfl, step, hmem step List.mem_cons_self, ordinal_of_chargeOf hch, args_of_chargeOf hch⟩
    obtain ⟨l₁, hplay, hanswers⟩ := h.play hord hids (hsteps step List.mem_cons_self) hch hstep
    obtain ⟨l', hrest⟩ := ih (fun x hx => hmem x (List.mem_cons_of_mem _ hx))
      (fun x hx => hsteps x (List.mem_cons_of_mem _ hx)) hanswers
    exact ⟨l', (congrArg (Option.bind · _) hplay).trans hrest⟩

end Play

/-! ### The worker, by itself -/

section Alone

variable [Driver] {x : DTX ι} {s t cid : String} {fs : FileSys} {held : ι → Option Nat} {ep : Nat}

/-- What `chargeWorker` does with a step. -/
def chargeAction (x : DTX ι) (s t : String) (cid : String) (o : Ordinal) (args : Json) (ep : Nat) : DtxProg ι Bool :=
  Prog.tryCatch (do
      let _ ← x.do_charge s t cid o args ep false
      pure true)
    fun e => if e = .StaleOwner then pure false else .raise e

theorem run_chargeAction {o : Ordinal} {args : Json} {r : Tag × Option Json} {w w' : World ι}
    (h : (x.do_charge s t cid o args ep false).run w = some (.ok r, w')) :
    (chargeAction x s t cid o args ep).run w = some (.ok true, w') := by
  simp [chargeAction, h]

/-- **What can be played is what the worker gets through.** -/
theorem run_steps (x : DTX ι) (fs : FileSys) (held : ι → Option Nat) {steps : List Json} {db : Db} {l : Ledger}
    (howner : db.turn_owner (s, t) = some ep)
    (hplay : (replay s t cid).run db.ledger steps = some l) :
    ∃ db', (gateWorker.steps x s t (chargeAction x s t) cid ep steps).run ⟨rest db, fs, held⟩ =
      some (.ok (), ⟨rest ((Write.setCommitted s t).apply db'), fs, held⟩) ∧ db'.turns = db.turns := by
  induction steps generalizing db with
  | nil => exact ⟨db, DTX.run_steps_nil x, rfl⟩
  | cons step steps ih =>
    obtain ⟨l₁, hstep, hrest⟩ := Option.bind_eq_some_iff.mp hplay
    obtain ⟨o, args, afp, hch, hafp, htaken, hcase⟩ := play_cases hstep
    have ho : (subscript step "ordinal" >>= asOrdinal) = .ok o := ordinal_of_chargeOf hch
    have hargs := args_of_chargeOf hch
    rcases hcase with ⟨ex, v, hex, hfp, hv, rfl⟩ | ⟨hnone, order, amount, horder, hamount, hbill, rfl⟩
    · -- charged before: it is answered from its row
      obtain ⟨r, hr, rfl⟩ := of_ledger_some hex
      have hrun : (x.do_charge s t cid o args ep false).run ⟨rest db, fs, held⟩ =
          some (.ok (.dedup, v), ⟨rest db, fs, held⟩) := by
        rw [DTX.run_do_charge_found x hafp htaken howner hr hfp, show r.value = .ok v from hv]
        rfl
      obtain ⟨db', hsteps, hturns⟩ := ih howner hrest
      exact ⟨db', (DTX.run_steps_cons x ho hargs (run_chargeAction hrun)).trans hsteps, hturns⟩
    · -- nobody has charged it
      let charged := Public.commit ⟨db, fs, held⟩
        (Contract.chargeWrites (action_id s t cid o) (DTX.chargeRow s t o afp ep) order amount)
      have hledger : charged.db.ledger = db.ledger.charged _ (DTX.chargeRow s t o afp 0) order amount :=
        ledger_charged
      have hrun : (x.do_charge s t cid o args ep false).run ⟨rest db, fs, held⟩ =
          some (.ok (.committed, _), ⟨rest charged.db, fs, held⟩) :=
        DTX.run_do_charge_new x hafp htaken horder hamount hbill howner (ledger_none.mp hnone)
      have howner' : charged.db.turn_owner (s, t) = some ep := howner
      obtain ⟨db', hsteps, hturns⟩ := ih howner' (hledger ▸ hrest)
      exact ⟨db', (DTX.run_steps_cons x ho hargs (run_chargeAction hrun)).trans hsteps, hturns⟩

/-- The worker takes the turn to its end. -/
theorem run_chargeWorker (x : DTX ι) (fs : FileSys) (held : ι → Option Nat) {db : Db} {r : TurnRow}
    {plan : Json} {steps : List Json} {l : Ledger} (hr : db.turns (s, t) = some r)
    (hplan : json_loads r.plan = .ok plan) (hitems : iterate plan = .ok steps)
    (hplay : (replay s t r.commit_id).run db.ledger steps = some l) :
    ∃ db' held', (chargeWorker x s t).run ⟨rest db, fs, held⟩ = some (.ok (), ⟨rest db', fs, held'⟩) ∧
      db'.turns (s, t) = some { r with state := .committed } := by
  let ep := (db.turn_owner (s, t)).elim 1 (· + 1)
  let acquired := (Write.setOwner s t ep).apply db
  have howner : acquired.turn_owner (s, t) = some ep := Function.update_self ..
  obtain ⟨db', hsteps, hturns⟩ := run_steps x fs (Function.update held x.conn (some ep)) howner hplay
  refine ⟨_, _, DTX.run_gateWorker x hr hplan hitems rfl hsteps, ?_⟩
  show db'.turns.update (s, t) _ (s, t) = _
  rw [Table.update_self, hturns]
  show Option.map _ (db.turns (s, t)) = _
  rw [hr, Option.map_some]

end Alone

/-! ### What the race leaves can be read -/

def readable (ι : Type) : Contract ι where
  inv p := ∀ aid r, p.db.actions aid = some r → ∃ v, r.value = .ok v
  may _ _ _ := True
  may_refl _ _ := trivial

omit [DecidableEq ι] in
theorem readable_ok [Driver] (i : ι) (s t cid : String) (o : Ordinal) (args : Json) (ep : Nat) (pid : Nat) :
    Contract.ChargeOk (readable ι) ⟨i, true, pid⟩ s t cid o args ep (fun _ => True) fun _ _ => True where
  win p afp order amount hp _ _ _ _ _ _ hnone := by
    refine ⟨fun aid r hr => ?_, trivial, trivial⟩
    by_cases haid : aid = action_id s t cid o
    · rw [haid, Contract.charged_action_self] at hr
      cases hr
      exact ⟨_, ActionRow.value_dumps rfl⟩
    · rw [Contract.charged_action_of_ne haid] at hr
      exact hp aid r hr
  found _ _ _ _ _ _ _ _ _ _ _ := trivial

theorem coordinator_readable [Driver] (i : ι) (pid : Nat) (role : Role) :
    ((readable ι).rules true).Triple i (Contract.Unstarted true i) (coordinator i pid role) (fun _ _ => True)
      fun _ _ => True := by
  refine coordinator_rule (A := fun _ _ => True) (F := fun _ _ _ _ => True) ?_ (fun _ => Contract.keeps_const True)
    (fun _ _ _ => Contract.keeps_const True) (fun _ _ _ _ _ _ _ _ _ _ => trivial) ?_ fun _ _ p hp _ => ⟨hp, trivial⟩
  · exact Contract.acquire (c := ⟨i, true, pid⟩) (Contract.keeps_held none) fun p ep hp _ _ => ⟨hp, trivial, trivial⟩
  · intro cid ep step steps o args _ _
    exact readable_ok i role.turn.1 role.turn.2 cid o args ep pid

section Runs

variable [Driver] {crew : Crew ι} {w₀ : World ι} {c : Config ι Stmt (World ι) Exn Unit}

theorem RunsTo.readable (h₀ : Start w₀) (hc : RunsTo crew w₀ c) : (Charge.readable ι).inv c.shared.pub := by
  have hinit := Contract.init_of_quiescent (C := Charge.readable ι) true h₀.quiescent fun aid r hr => by
    rw [show w₀.pub.db.actions aid = none from h₀.no_actions aid] at hr
    cases hr
  have hverified : RelyGuarantee.Verified crew.system ((Charge.readable ι).rules true) (Contract.Unstarted true) :=
    Contract.verified fun i => coordinator_readable i (crew.pid i) (crew.role i)
  exact (hverified.inv (fun _ _ _ => trivial) hinit hc).2

omit [DecidableEq ι] [Driver] in
/-- Rows that are of the plan and can be read answer for it. -/
theorem Inv.answers {turns₀ : Table (String × String) TurnRow} {turnOf : ι → String × String} {p : Public ι}
    (hp : Inv turns₀ turnOf p) (hrows : (Charge.readable ι).inv p) (hord : DistinctOrdinals turns₀)
    (hids : DistinctIds turns₀) (s t cid : String) : Answers turns₀ s t cid p.db.ledger := by
  intro o args r hstep hr
  obtain ⟨row, hrow, rfl⟩ := of_ledger_some hr
  obtain ⟨cid', args', order, amount, hstep', haid, hafp, -⟩ := hp.action _ row hrow
  obtain ⟨-, -, -, rfl⟩ := hstep.unique hord hids hstep' haid
  exact ⟨hafp, hrows _ row hrow⟩

/-- **What the race leaves answers for the plan.** -/
theorem RunsTo.answers (h₀ : Start w₀) (hord : DistinctOrdinals w₀.server.db.turns)
    (hids : DistinctIds w₀.server.db.turns) (hc : RunsTo crew w₀ c) (s t cid : String) :
    Answers w₀.server.db.turns s t cid c.shared.server.db.ledger :=
  (hc.inv h₀).answers (hc.readable h₀) hord hids s t cid

/-- **A turn can always be brought to its end.** Wherever the race stands, however many coordinators died in the
    middle of what: when the rest stop too, a worker that starts then and is left alone finds no lock held, is
    refused nothing, and sets the turn committed, with every step of the plan charged exactly once. -/
theorem sweep_charges_once (crew : Crew ι) (w₀ : World ι) (h₀ : Start w₀)
    (hord : DistinctOrdinals w₀.server.db.turns) (hids : DistinctIds w₀.server.db.turns)
    (c : Config ι Stmt (World ι) Exn Unit) (hc : RunsTo crew w₀ c) (j : ι) (hj : c.procs j = .fresh) (s t : String)
    (hrole : crew.role j = .worker s t) (r₀ : TurnRow) (hr₀ : w₀.server.db.turns (s, t) = some r₀)
    (plan : Json) (steps : List Json) (hplan : json_loads r₀.plan = .ok plan) (hitems : iterate plan = .ok steps)
    (hsteps : ∀ step ∈ steps, Chargeable step) :
    ∃ ls c', Lts.Exec (Lts.ofFun crew.system.step) c ls c' ∧ (∀ l ∈ ls, Sweeping j l) ∧
      (∃ r, c'.shared.server.db.turns (s, t) = some r ∧ r.state = .committed ∧ SamePlan (some r) (some r₀)) ∧
      ExactlyOnce c'.shared.server.db := by
  have hsame : SamePlan (c.shared.server.db.turns (s, t)) (some r₀) := hr₀ ▸ (hc.inv h₀).plans (s, t)
  obtain ⟨r, hr, hcid, htext⟩ := hsame.of_some
  have hsteps₀ : planSteps r₀ = steps := by
    rw [planSteps, hplan]
    simp [bind, Except.bind, hitems]
  -- what has been charged so far was charged for this plan, so the rest of it can be played
  obtain ⟨l, hplay⟩ := (hc.answers h₀ hord hids s t r₀.commit_id).run steps hord hids hr₀
    (fun step hmem => hsteps₀ ▸ hmem) hsteps
  obtain ⟨db', held', hrun, hcommitted⟩ := run_chargeWorker ⟨j, true, crew.pid j⟩ c.shared.files c.shared.held hr
    (htext ▸ hplan) hitems (hcid.symm ▸ hplay)
  have hmain : coordinator j (crew.pid j) (crew.role j) = chargeWorker ⟨j, true, crew.pid j⟩ s t := by rw [hrole]; rfl
  -- once the others are gone, the worker runs as it does alone
  obtain ⟨ls, c', hexec, hls, hshared⟩ := Contract.sweep (crew_verified crew w₀) (fun _ _ _ => trivial) h₀.quiescent
    (inv_start h₀) hc hj (hmain ▸ hrun)
  have hc' : RunsTo crew w₀ c' := Lts.Reachable.exec hc hexec
  refine ⟨ls, c', hexec, hls, ⟨{ r with state := .committed }, ?_, rfl, ?_⟩, (hc'.inv h₀).exactlyOnce hord hids⟩
  · rw [hshared]
    exact hcommitted
  · show some (r.commit_id, r.plan) = some (r₀.commit_id, r₀.plan)
    rw [hcid, htext]

end Runs

section Twice

local instance sweepDriver : Driver := .postgres

/-- One worker holds a token of the turn already; it is stopped, and the other one charges both steps. -/
theorem sweep_charges_once_twice : ∃ c : Config Bool Stmt (World Bool) Exn Unit, RunsTo twiceCrew twice c ∧
    c.shared.held false = some 1 ∧ ∃ ls c', Lts.Exec (Lts.ofFun twiceCrew.system.step) c ls c' ∧
      (∀ l ∈ ls, Sweeping true l) ∧ (∃ r, c'.shared.server.db.turns ("s", "t") = some r ∧ r.state = .committed ∧
        SamePlan (some r) (some twiceRow)) ∧ ExactlyOnce c'.shared.server.db := by
  have hstart : RunsTo twiceCrew twice ⟨twice, fun _ => .fresh⟩ := Lts.Reachable.start ⟨rfl, fun _ => rfl⟩
  -- the first worker takes the turn and stops there
  have hacquired := System.Reachable.steps (hstart.spawn (i := false) rfl) (Function.update_self ..)
    ((Prog.Steps.part (DTX.run_acquire ⟨false, true, 1⟩)).tryCatch (fun _ => pure ()) |>.bind fun _ =>
      DTX.rollback ⟨false, true, 1⟩)
  have hrow : twiceTurns ("s", "t") = some twiceRow := Function.update_self ..
  refine ⟨_, hacquired, rfl, sweep_charges_once twiceCrew twice start_twice distinctOrdinals_twice
    distinctIds_twice _ hacquired true rfl "s" "t" rfl twiceRow hrow _ _ loads_twice rfl ?_⟩
  obtain ⟨afp, hafp⟩ : ∃ afp, args_fingerprint (.obj [(.str "order", .str "O"), (.str "amount", .int 5)]) =
      some afp := exists_args_fingerprint rfl
  intro step hmem
  have hstep : ∃ o, step = twiceStep o ∧ (Ordinal.int o).taken = true := by
    rcases List.mem_pair.mp hmem with rfl | rfl
    · exact ⟨0, rfl, twice_taken.1⟩
    · exact ⟨1, rfl, twice_taken.2⟩
  obtain ⟨o, rfl, ho⟩ := hstep
  exact ⟨.int o, _, afp, _, _, chargeOf_ok (twiceStep_ordinal o) (twiceStep_args o), ho, hafp, rfl, rfl, twice_billable⟩

end Twice

end Charge

/-! ## Receipts -/

namespace Overlay

/-- A step that can be published: it has an ordinal, which its column takes, and arguments that have a text. -/
def Publishable [Driver] (step : Json) : Prop := ∃ o args afp, ordinalOf step = .ok o ∧ o.taken = true ∧
  subscript step "args" = .ok args ∧ args_fingerprint args = some afp

section Alone

variable [Driver] {x : DTX ι} {s t cid store : String} {held : ι → Option Nat} {ep : Nat}

/-- What `overlayWorker` does with a step. -/
def overlayAction (x : DTX ι) (store s t cid : String) (o : Ordinal) (args : Json) (ep : Nat) : DtxProg ι Bool := do
  let _ ← x.do_overlay s t cid o args ep store
  pure true

theorem run_overlayAction {o : Ordinal} {args : Json} {r : Tag × FsPath} {w w' : World ι}
    (h : (x.do_overlay s t cid o args ep store).run w = some (.ok r, w')) :
    (overlayAction x store s t cid o args ep).run w = some (.ok true, w') := by
  simp [overlayAction, h]

omit [DecidableEq ι] [Driver] in
/-- A row that is recorded, or was, leaves the turns as they are. -/
theorem recorded_turns (aid : String) (row : ActionRow) (db : Db) : (DTX.recorded aid row db).turns = db.turns := by
  unfold DTX.recorded
  split
  · rfl
  · rfl

/-- **A publishable step is published or found**, whatever is there of it. -/
theorem run_publishable (x : DTX ι) (store s t cid : String) (ep : Nat) (db : Db) (fs : FileSys)
    (held : ι → Option Nat) {step : Json} (hstep : Publishable step) :
    ∃ o args db' fs', (subscript step "ordinal" >>= asOrdinal) = .ok o ∧ subscript step "args" = .ok args ∧
      (overlayAction x store s t cid o args ep).run ⟨rest db, fs, held⟩ = some (.ok true, ⟨rest db', fs', held⟩) ∧
      db'.turns = db.turns := by
  obtain ⟨o, args, afp, ho, htaken, hargs, hafp⟩ := hstep
  cases hfile : fs.dir (DTX.receipt store (action_id s t cid o)) with
  | some n =>
    have hfound : (fs.dir (DTX.receipt store (action_id s t cid o))).isSome := by rw [hfile]; rfl
    have hrun : (overlayAction x store s t cid o args ep).run ⟨rest db, fs, held⟩ = _ :=
      run_overlayAction (DTX.run_do_overlay_found x hafp htaken hfound)
    exact ⟨o, args, _, _, ho, hargs, hrun, recorded_turns ..⟩
  | none =>
    obtain ⟨text, htext, -⟩ := Option.map_eq_some_iff.mp hafp
    obtain ⟨fs', n, hrun, -⟩ := DTX.run_do_overlay_new x db held ep hafp htext htaken hfile
    exact ⟨o, args, _, fs', ho, hargs, run_overlayAction hrun, recorded_turns ..⟩

/-- So the worker gets through every plan of such steps. -/
theorem run_steps (x : DTX ι) (store s t cid : String) (ep : Nat) (db : Db) (fs : FileSys) (held : ι → Option Nat)
    {steps : List Json} (hsteps : ∀ step ∈ steps, Publishable step) :
    ∃ db' fs', (gateWorker.steps x s t (overlayAction x store s t) cid ep steps).run ⟨rest db, fs, held⟩ =
      some (.ok (), ⟨rest ((Write.setCommitted s t).apply db'), fs', held⟩) ∧ db'.turns = db.turns := by
  induction steps generalizing db fs with
  | nil => exact ⟨db, fs, DTX.run_steps_nil x, rfl⟩
  | cons step steps ih =>
    obtain ⟨o, args, db₁, fs₁, ho, hargs, hrun, hturns₁⟩ := run_publishable x store s t cid ep db fs
      held (hsteps step List.mem_cons_self)
    obtain ⟨db', fs', hrest, hturns⟩ := ih db₁ fs₁ fun x hx => hsteps x (List.mem_cons_of_mem _ hx)
    exact ⟨db', fs', (DTX.run_steps_cons x ho hargs hrun).trans hrest, hturns.trans hturns₁⟩

theorem run_overlayWorker (x : DTX ι) (store : String) (fs : FileSys) (held : ι → Option Nat) {db : Db}
    {r : TurnRow} {plan : Json} {steps : List Json} (hr : db.turns (s, t) = some r)
    (hplan : json_loads r.plan = .ok plan) (hitems : iterate plan = .ok steps)
    (hsteps : ∀ step ∈ steps, Publishable step) :
    ∃ w, (overlayWorker x store s t).run ⟨rest db, fs, held⟩ = some (.ok (), w) ∧
      w.server.db.turns (s, t) = some { r with state := .committed } := by
  let ep := (db.turn_owner (s, t)).elim 1 (· + 1)
  obtain ⟨db', fs', hrun, hturns⟩ := run_steps x store s t r.commit_id ep ((Write.setOwner s t ep).apply db) fs
    (Function.update held x.conn (some ep)) hsteps
  refine ⟨_, DTX.run_gateWorker x hr hplan hitems rfl hrun, ?_⟩
  show db'.turns.update (s, t) _ (s, t) = _
  rw [Table.update_self, hturns]
  show Option.map _ (db.turns (s, t)) = _
  rw [hr, Option.map_some]

end Alone

section Runs

variable [Driver] {crew : Crew ι} {pg : Bool} {store : String} {w₀ : World ι} {c : Config ι Stmt (World ι) Exn Unit}

omit [DecidableEq ι] [Driver] in
theorem inv_start (h₀ : Start store w₀) : Inv w₀.server.db.turns crew.turn store w₀.pub where
  plans _ := .refl _
  tokens i _ e _ _ hi := by
    rw [show w₀.pub.held i = none from h₀.quiescent.held i] at hi
    cases hi
  epochs i e hi := by
    rw [show w₀.pub.held i = none from h₀.quiescent.held i] at hi
    cases hi
  no_links := h₀.no_links
  receipts P n hP hn := by
    rw [show w₀.pub.files.dir P = none from h₀.no_receipts P hP] at hn
    cases hn
  committed s t r hr hst := by
    rw [h₀.open_turns (s, t) r hr] at hst
    cases hst

theorem crew_verified (w₀ : World ι) (crew : Crew ι) (pg : Bool) (store : String)
    (hord : DistinctOrdinals w₀.server.db.turns) (hids : DistinctIds w₀.server.db.turns) :
    RelyGuarantee.Verified (crew.system pg store)
      ((contract w₀.server.db.turns crew.turn crew.pid store).rules pg) (Contract.Unstarted pg) :=
  Contract.verified fun _ => worker_spec hord hids rfl

/-- **Receipts, too.** A worker that starts when the others have stopped, wherever in the publication of what
    receipt, sets the turn committed, and each step of the plan has its one whole receipt. -/
theorem sweep_publishes_once (crew : Crew ι) (pg : Bool) (store : String) (w₀ : World ι) (h₀ : Start store w₀)
    (hord : DistinctOrdinals w₀.server.db.turns) (hids : DistinctIds w₀.server.db.turns)
    (c : Config ι Stmt (World ι) Exn Unit) (hc : (crew.system pg store).Reachable (· = w₀) c) (j : ι)
    (hj : c.procs j = .fresh) (r₀ : TurnRow) (hr₀ : w₀.server.db.turns (crew.turn j) = some r₀) (plan : Json)
    (steps : List Json) (hplan : json_loads r₀.plan = .ok plan) (hitems : iterate plan = .ok steps)
    (hsteps : ∀ step ∈ steps, Publishable step) :
    ∃ ls c', Lts.Exec (Lts.ofFun (crew.system pg store).step) c ls c' ∧ (∀ l ∈ ls, Sweeping j l) ∧
      (∃ r, c'.shared.server.db.turns (crew.turn j) = some r ∧ r.state = .committed ∧
        SamePlan (some r) (some r₀)) ∧ ExactlyOnce store c'.shared.server.db c'.shared.files := by
  have hverified := crew_verified w₀ crew pg store hord hids
  have hstart : Inv w₀.server.db.turns crew.turn store w₀.pub := inv_start h₀
  have hinit := Contract.init_of_quiescent (C := contract w₀.server.db.turns crew.turn crew.pid store) pg
    h₀.quiescent hstart
  have hinv : Inv w₀.server.db.turns crew.turn store c.shared.pub :=
    (hverified.inv (fun _ _ _ => trivial) hinit hc).2
  have hsame : SamePlan (c.shared.server.db.turns (crew.turn j)) (some r₀) := hr₀ ▸ hinv.plans (crew.turn j)
  obtain ⟨r, hr, hcid, htext⟩ := hsame.of_some
  -- the worker alone, from the tables and files as they were left
  obtain ⟨w, hrun, hcommitted⟩ := run_overlayWorker ⟨j, pg, crew.pid j⟩ store c.shared.files c.shared.held hr
    (htext ▸ hplan) hitems hsteps
  -- once the others are gone, it runs like that
  obtain ⟨ls, c', hexec, hls, hshared⟩ := Contract.sweep hverified (fun _ _ _ => trivial) h₀.quiescent hstart hc hj
    hrun
  have hinv' : Inv w₀.server.db.turns crew.turn store c'.shared.pub :=
    (hverified.inv (fun _ _ _ => trivial) hinit (Lts.Reachable.exec hc hexec)).2
  refine ⟨ls, c', hexec, hls, ⟨{ r with state := .committed }, ?_, rfl, ?_⟩, hinv'.exactlyOnce hord hids⟩
  · rw [hshared]
    exact hcommitted
  · show some (r.commit_id, r.plan) = some (r₀.commit_id, r₀.plan)
    rw [hcid, htext]

end Runs

section Twice

local instance sweepDriver : Driver := .postgres

/-- One worker holds a token of the turn already; it is stopped, and the other one publishes both receipts. -/
theorem sweep_publishes_once_twice : ∃ c : Config Bool Stmt (World Bool) Exn Unit,
    (twiceCrew.system true "/x").Reachable (· = twice) c ∧ c.shared.held false = some 1 ∧
    ∃ ls c', Lts.Exec (Lts.ofFun (twiceCrew.system true "/x").step) c ls c' ∧ (∀ l ∈ ls, Sweeping true l) ∧
      (∃ r, c'.shared.server.db.turns ("s", "t") = some r ∧ r.state = .committed ∧
        SamePlan (some r) (some twiceRow)) ∧ ExactlyOnce "/x" c'.shared.server.db c'.shared.files := by
  have hstart : (twiceCrew.system true "/x").Reachable (· = twice) ⟨twice, fun _ => .fresh⟩ :=
    Lts.Reachable.start ⟨rfl, fun _ => rfl⟩
  -- the first worker takes the turn and stops there
  have hacquired := System.Reachable.steps (hstart.spawn (i := false) rfl) (Function.update_self ..)
    ((Prog.Steps.part (DTX.run_acquire ⟨false, true, 1⟩)).tryCatch (fun _ => pure ()) |>.bind fun _ =>
      DTX.rollback ⟨false, true, 1⟩)
  have hrow : twiceTurns ("s", "t") = some twiceRow := Function.update_self ..
  refine ⟨_, hacquired, rfl, sweep_publishes_once twiceCrew true "/x" twice start_twice distinctOrdinals_twice
    distinctIds_twice _ hacquired true rfl twiceRow hrow _ _ loads_twice rfl ?_⟩
  obtain ⟨afp, hafp⟩ : ∃ afp, args_fingerprint (.obj [(.str "order", .str "O"), (.str "amount", .int 5)]) =
      some afp := exists_args_fingerprint rfl
  intro step hmem
  rcases List.mem_pair.mp hmem with rfl | rfl
  · exact ⟨.int 0, _, afp, twiceStep_ordinal 0, twice_taken.1, twiceStep_args 0, hafp⟩
  · exact ⟨.int 1, _, afp, twiceStep_ordinal 1, twice_taken.2, twiceStep_args 1, hafp⟩

end Twice

end Overlay

end AgentTx.Dtx
