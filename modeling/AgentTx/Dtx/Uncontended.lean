import AgentTx.Dtx.Sweep

/-!
# `Dtx.Uncontended` — workers that nobody contends with

The recovery sweep of a gate starts one worker for each turn, all at once. A worker that is alone gets through
(`Dtx.Sweep`); these run together, interleaved statement by statement, on one database. No two of them work on one
turn, so nobody is fenced out; and what each of them finds of its turn answers for its plan. None of them ever
raises, and each one that ends has set its turn committed.

The first part has the rules for programs that do not raise: `Returns` is a triple without an exception.

Layout of the second part:
* `sweepContract` — what the workers keep together: the contract of `Dtx.Charge`, that nobody else acquires a turn
  which has a worker, and that rows can be read.
* `step_returns` — a step of the plan returns, for a new charge and for one that is found.
* `worker_returns` — so does the worker, with its turn committed.

Main results: `sweepers_commit` (at every moment of the sweep), `exists_sweep` (it can end) and `sweep_commits_all`
(both, behind any race).
-/

namespace AgentTx.Dtx

section Uncontended

variable {ι : Type} [DecidableEq ι] [Driver]

/-! ## No exception -/

namespace Contract

variable {C : Contract ι} {c : DTX ι} {ls : List Lock} {F G H : Public ι → Prop} {α β : Type}

/-- The program ends with `Q`; it does not raise. -/
abbrev Returns (C : Contract ι) (pg : Bool) (i : ι) (P : World ι → Prop) (p : DtxProg ι α) (Q : α → World ι → Prop) :
    Prop :=
  (C.rules pg).Triple i P p Q fun _ _ => False

namespace Returns

omit [Driver] in
/-- A transaction whose body does not raise is committed. -/
theorem transaction {body : DtxProg ι α} {P : World ι → Prop} {B Q : α → World ι → Prop}
    (hb : Returns C c.pg c.conn P body B) (hc : ∀ a, Returns C c.pg c.conn (B a) c.commit fun _ => Q a) :
    Returns C c.pg c.conn P (c.transaction body) Q := by
  refine RelyGuarantee.Triple.tryCatch (hb.bind fun a => (hc a).bind fun _ => ?_) fun e => ?_
  · intro w hw hq
    exact hq
  · intro w hw hfalse
    exact hfalse.elim

omit [Driver] in
/-- The owner row, where it is known. -/
theorem select_owner {s t : String} {ep : Nat} (hpg : c.pg = true) (hF : C.Keeps c.conn [] F)
    (howner : ∀ p, C.inv p → F p → p.db.turn_owner (s, t) = some ep) :
    Returns C c.pg c.conn (At c.pg c.conn [] [] F) (c.select_owner s t)
      fun r w => r = some ep ∧ At c.pg c.conn [] [.owner s t] F w := by
  refine triple_execute (stable_at hF) fun w r srv hw hat _ hf => ?_
  have hrow : w.pub.db.turn_owner (s, t) = some ep := howner w.pub hw hat.fact
  simp only [view_eq hat.pending, hrow, hpg, Option.isSome_some, Bool.and_self, if_true] at hf
  obtain ⟨srv', hsrv, hr⟩ := Option.map_eq_some_iff.mp hf
  cases hr
  exact ⟨Quiet.lock hsrv, rfl, hat.lock hsrv⟩

/-- The effect of a charge that has an order and an amount, and its columns take them. -/
theorem chargeEffect {aid : String} {args order amount : Json} {row : ActionRow} (hl : .action aid ∈ ls)
    (hH : C.Keeps c.conn ls H) (horder : subscript args "order" = .ok order)
    (hamount : subscript args "amount" = .ok amount) (hbill : billable order amount = true) :
    Returns C c.pg c.conn (At c.pg c.conn [.insertAction aid row] ls H) (c.chargeEffect aid args false)
      fun _ => At c.pg c.conn (chargeWrites aid row order amount) ls H := by
  unfold DTX.chargeEffect
  rw [horder, hamount]
  have hcharge : Returns C c.pg c.conn (At c.pg c.conn [.insertAction aid row] ls H)
      (c.insert_charge ⟨order, amount, aid⟩)
      fun _ => At c.pg c.conn [.insertAction aid row, .insertCharge ⟨order, amount, aid⟩] ls H := by
    refine (insert_charge hl hH fun hrefused => ?_).post fun _ _ _ hat => hat.2
    rw [DTX.charge_taken, hbill] at hrefused
    cases hrefused
  refine hcharge.bind fun _ => ?_
  have hset : Returns C c.pg c.conn (At c.pg c.conn [.insertAction aid row, .insertCharge ⟨order, amount, aid⟩] ls H)
      (c.set_result aid (Json.obj [(.str "order", order), (.str "amount", amount)]).dumps)
      fun _ => At c.pg c.conn (chargeWrites aid row order amount) (.action aid :: ls) H :=
    lock_write hH fun _ => rfl
  refine hset.bind fun _ => ?_
  intro w hw hat
  exact hat.mono (fun l hl => List.mem_cons_of_mem _ hl) id

omit [DecidableEq ι] [Driver] in
/-- An action that is found done, with the same arguments and a result that can be read. -/
theorem chargeFound {aid afp : String} (hF : C.Keeps c.conn ls F)
    (hfound : ∀ p, C.inv p → F p → ∃ ex v, p.db.actions aid = some ex ∧ ex.args_fp = afp ∧ ex.value = .ok v ∧ G p) :
    Returns C c.pg c.conn (At c.pg c.conn [] ls F) (c.chargeFound aid afp) fun _ => At c.pg c.conn [] ls G := by
  have hsel : Returns C c.pg c.conn (At c.pg c.conn [] ls F) (c.select_action aid) fun r => At c.pg c.conn [] ls
      fun p => ∃ ex v, r = some ex ∧ ex.args_fp = afp ∧ ex.value = .ok v ∧ G p :=
    select_action hF fun p hp hf => hfound p hp hf
  refine hsel.bind fun r => ?_
  intro w hw hat
  obtain ⟨ex, v, rfl, hfp, hv, hg⟩ := hat.fact
  simp only [ne_eq, hfp, not_true_eq_false, if_false]
  unfold ActionRow.value at hv
  cases hres : ex.result with
  | none => exact ⟨hat.pending, hat.locks, hg⟩
  | some text =>
    cases hload : json_loads text with
    | error e =>
      simp only [hres, hload] at hv
      cases hv
    | ok x =>
      simp only [hload]
      exact ⟨hat.pending, hat.locks, hg⟩

/-- **`do_charge`**, by a coordinator that owns the turn, for an action that is new or is found with its arguments. -/
theorem do_charge {s t cid : String} {o : Ordinal} {args order amount : Json} {ep : Nat} {afp : String}
    (hpg : c.pg = true) (hF : C.Keeps c.conn [] F) (hG : C.Keeps c.conn [] G)
    (hafp : args_fingerprint args = some afp) (htaken : o.taken = true) (horder : subscript args "order" = .ok order)
    (hamount : subscript args "amount" = .ok amount) (hbill : billable order amount = true)
    (howner : ∀ p, C.inv p → F p → p.db.turn_owner (s, t) = some ep)
    (hstay : C.Keeps c.conn [] fun p => (p.db.actions (action_id s t cid o)).isSome = true)
    (hwin : ∀ p, C.inv p → F p → p.db.actions (action_id s t cid o) = none →
      let p' := p.commit (chargeWrites (action_id s t cid o) (DTX.chargeRow s t o afp ep) order amount)
      C.inv p' ∧ C.may c.conn p p' ∧ G p')
    (hfound : ∀ p ex, C.inv p → F p → p.db.actions (action_id s t cid o) = some ex →
      ex.args_fp = afp ∧ (∃ v, ex.value = .ok v) ∧ G p) :
    Returns C c.pg c.conn (At c.pg c.conn [] [] F) (c.do_charge s t cid o args ep false)
      fun _ => At c.pg c.conn [] [] G := by
  have hfence : C.Keeps c.conn [.owner s t] F := hF.mono fun l hl => absurd hl List.not_mem_nil
  have hthere : C.Keeps c.conn [.owner s t] fun p => F p ∧ (p.db.actions (action_id s t cid o)).isSome = true :=
    hfence.and (hstay.mono fun l hl => absurd hl List.not_mem_nil)
  have hwon : C.Keeps c.conn [.action (action_id s t cid o), .owner s t]
      fun p => F p ∧ p.db.actions (action_id s t cid o) = none :=
    (hF.mono fun l hl => absurd hl List.not_mem_nil).and (keeps_action List.mem_cons_self none)
  unfold DTX.do_charge
  rw [hafp]
  -- what is pending is a charge that is won, or nothing
  refine transaction (B := fun _ w =>
    At c.pg c.conn (chargeWrites (action_id s t cid o) (DTX.chargeRow s t o afp ep) order amount)
      [.action (action_id s t cid o), .owner s t] (fun p => F p ∧ p.db.actions (action_id s t cid o) = none) w ∨
    At c.pg c.conn [] [.owner s t] G w) ?_ fun r => ?_
  · refine (select_owner hpg hF howner).bind fun r => ?_
    rintro w hw ⟨rfl, hat⟩
    simp only [ne_eq, not_true_eq_false, if_false]
    have hins : Returns C c.pg c.conn (At c.pg c.conn [] [.owner s t] F)
        (c.insert_action (action_id s t cid o) (DTX.chargeRow s t o afp ep)) _ :=
      insert_action hfence (fun hrefused => absurd (htaken.symm.trans hrefused) nofun)
        (fun p hp hf _ _ hnone => (⟨hf, hnone⟩ : F p ∧ p.db.actions (action_id s t cid o) = none))
        fun p hp hf _ _ hsome => (⟨hf, hsome⟩ : F p ∧ (p.db.actions (action_id s t cid o)).isSome = true)
    refine RelyGuarantee.Triple.bind hins (fun b => ?_) w hw hat
    cases b with
    | true =>
      refine (chargeEffect List.mem_cons_self hwon horder hamount hbill).post ?_
      intro r w hw hat
      exact Or.inl hat
    | false =>
      refine (chargeFound hthere fun p hp hf => ?_).post fun r w hw hat => Or.inr hat
      obtain ⟨ex, hex⟩ := Option.isSome_iff_exists.mp hf.2
      obtain ⟨hfp, ⟨v, hv⟩, hg⟩ := hfound p ex hp hf.1 hex
      exact ⟨ex, v, hex, hfp, hv, hg⟩
  · rintro w hw (hat | hat)
    · exact commit hwon (fun p hp hf => hwin p hp hf.1 hf.2) w hw hat
    · have hkeeps : C.Keeps c.conn [.owner s t] G := hG.mono fun l hl => absurd hl List.not_mem_nil
      have hdone : Returns C c.pg c.conn (At c.pg c.conn [] [.owner s t] G) c.commit fun _ => At c.pg c.conn [] [] G :=
        commit hkeeps fun p hp hg => ⟨hp, C.may_refl _ _, hg⟩
      exact hdone w hw hat

omit [Driver] in
/-- The end of a turn that has a plan. -/
theorem commit_turn {s t : String} {Q : Public ι → Prop} (hF : C.Keeps c.conn [] F)
    (hrow : ∀ p, C.inv p → F p → (p.db.turns (s, t)).isSome = true)
    (h : ∀ p, C.inv p → F p → C.inv (p.commit [.setCommitted s t]) ∧
      C.may c.conn p (p.commit [.setCommitted s t]) ∧ Q (p.commit [.setCommitted s t])) :
    Returns C c.pg c.conn (At c.pg c.conn [] [] F) (c.commit_turn s t) fun _ => At c.pg c.conn [] [] Q := by
  have hset : Returns C c.pg c.conn (At c.pg c.conn [] [] F) (c.set_committed s t)
      fun _ => At c.pg c.conn [.setCommitted s t] [] F := by
    refine triple_execute (stable_at hF) fun w b srv hw hat _ hf => ?_
    have hsome : (w.pub.db.turns (s, t)).isNone = false := by
      simpa using hrow w.pub hw hat.fact
    rw [view_eq hat.pending, hsome, Bool.and_false, if_neg Bool.false_ne_true] at hf
    obtain ⟨srv', hsrv, hr⟩ := Option.map_eq_some_iff.mp hf
    cases hr
    have hat' := hat.lock hsrv
    refine ⟨(Quiet.lock hsrv).trans (Quiet.write (hat'.locks _ List.mem_cons_self)), ?_⟩
    exact hat'.write.mono (fun l hl => absurd hl List.not_mem_nil) id
  exact hset.bind fun _ => commit hF h

omit [Driver] in
/-- **A gate's worker.** The turn has a plan that can be read; each of its steps returns and goes on. -/
theorem gateWorker {s t : String} {action : String → Ordinal → Json → Nat → DtxProg ι Bool} {P Q : Public ι → Prop}
    {A : Nat → Public ι → Prop} {F : String → Nat → List Json → Public ι → Prop}
    (hacq : Returns C c.pg c.conn (At c.pg c.conn [] [] P) (c.acquire s t) fun ep => At c.pg c.conn [] [] (A ep))
    (hA : ∀ ep, C.Keeps c.conn [] (A ep)) (hF : ∀ cid ep, C.Keeps c.conn [] (F cid ep [])) (hQ : C.Keeps c.conn [] Q)
    (hload : ∀ ep p, C.inv p → A ep p → ∃ r plan items, p.db.turns (s, t) = some r ∧ json_loads r.plan = .ok plan ∧
      iterate plan = .ok items ∧ F r.commit_id ep items p)
    (hstep : ∀ cid ep step steps p, C.inv p → F cid ep (step :: steps) p → ∃ o args, ordinalOf step = .ok o ∧
      subscript step "args" = .ok args ∧ Returns C c.pg c.conn (At c.pg c.conn [] [] (F cid ep (step :: steps)))
        (action cid o args ep) fun b w => b = true ∧ At c.pg c.conn [] [] (F cid ep steps) w)
    (hrow : ∀ cid ep p, C.inv p → F cid ep [] p → (p.db.turns (s, t)).isSome = true)
    (hcommit : ∀ cid ep p, C.inv p → F cid ep [] p → C.inv (p.commit [.setCommitted s t]) ∧
      C.may c.conn p (p.commit [.setCommitted s t]) ∧ Q (p.commit [.setCommitted s t])) :
    Returns C c.pg c.conn (At c.pg c.conn [] [] P) (Dtx.gateWorker c s t action)
      fun _ => At c.pg c.conn [] [] Q := by
  -- by induction on the steps left, with `F` of these steps as the invariant
  have hsteps : ∀ cid ep steps, Returns C c.pg c.conn (At c.pg c.conn [] [] (F cid ep steps))
      (gateWorker.steps c s t action cid ep steps) fun _ => At c.pg c.conn [] [] Q := by
    intro cid ep steps
    induction steps with
    | nil => exact commit_turn (hF cid ep) (hrow cid ep) (hcommit cid ep)
    | cons step steps ih =>
      intro w hw hat
      obtain ⟨o, args, ho, hargs, haction⟩ := hstep cid ep step steps w.pub hw.2 hat.fact
      unfold gateWorker.steps
      rw [show (subscript step "ordinal" >>= asOrdinal) = .ok o from ho, hargs]
      refine RelyGuarantee.Triple.bind haction (fun b => ?_) w hw hat
      rintro w hw ⟨rfl, hat⟩
      exact ih w hw hat
  suffices hbody : (C.rules c.pg).Triple c.conn (At c.pg c.conn [] [] P) _ (fun _ => At c.pg c.conn [] [] Q)
      fun _ _ => False by
    refine RelyGuarantee.Triple.bind (Q := fun _ => At c.pg c.conn [] [] Q) (hbody.tryCatch fun e => ?_) fun _ => ?_
    · intro w hw hfalse
      exact hfalse.elim
    · exact (rollback hQ).pre fun w hw hat => hat.fact
  refine hacq.bind fun ep => RelyGuarantee.Triple.bind (Q := fun o w => ∃ cid plan items, o = some (cid, plan) ∧
    iterate plan = .ok items ∧ At c.pg c.conn [] [] (F cid ep items) w) ?_ fun o => ?_
  · have hsel : Returns C c.pg c.conn (At c.pg c.conn [] [] (A ep)) (c.select_turn s t) fun r =>
        At c.pg c.conn [] [] fun p => ∃ row plan items, r = some row ∧ json_loads row.plan = .ok plan ∧
          iterate plan = .ok items ∧ F row.commit_id ep items p :=
      select_turn (hA ep) fun p hp ha => hload ep p hp ha
    refine hsel.bind fun r => ?_
    intro w hw hat
    obtain ⟨row, plan, items, rfl, hplan, hitems, hf⟩ := hat.fact
    simp only [hplan]
    exact ⟨row.commit_id, plan, items, rfl, hitems, hat.pending, hat.locks, hf⟩
  · rintro w hw ⟨cid, plan, items, rfl, hitems, hat⟩
    simp only [hitems]
    exact hsteps cid ep items w hw hat

end Returns

end Contract

/-! ## One worker for each turn -/

namespace Charge

open Contract (At Returns)

/-- The turn is set committed. -/
def Committed (k : String × String) (p : Public ι) : Prop := ∃ r, p.db.turns k = some r ∧ r.state = .committed

/-- A turn has a plan that can be read, of steps that can be charged. -/
def Playable (turns₀ : Table (String × String) TurnRow) (k : String × String) : Prop :=
  ∃ r plan items, turns₀ k = some r ∧ json_loads r.plan = .ok plan ∧ iterate plan = .ok items ∧
    ∀ step ∈ items, Chargeable step

section Sweepers

variable (turns₀ : Table (String × String) TurnRow) (turnOf : ι → String × String)

/-- Charges are exactly-once; rows can be read; and whoever holds a token of a turn is its owner. -/
def sweepContract : Contract ι where
  inv p := Inv turns₀ turnOf p ∧ (readable ι).inv p ∧ ∀ i e, p.held i = some e → p.db.turn_owner (turnOf i) = some e
  may i p p' := May turnOf i p p' ∧ ∀ k, Committed k p → Committed k p'
  may_refl i p := ⟨(contract turns₀ turnOf).may_refl i p, fun _ h => h⟩

variable {turns₀ turnOf} {i : ι} {p : Public ι} {s t cid : String} {ep : Nat} {steps : List Json}

omit [DecidableEq ι] [Driver] in
theorem keeps_committed (k : String × String) : (sweepContract turns₀ turnOf).Keeps i [] (Committed k) :=
  fun _ _ _ _ _ _ hmay _ _ h => hmay.2 k h

omit [DecidableEq ι] [Driver] in
theorem keeps_underway : (sweepContract turns₀ turnOf).Keeps i [] (Underway turns₀ i s t cid ep steps) := by
  rintro j p p' hji hp hp' ⟨hmay, -⟩ hheld - ⟨hi, hplan⟩
  refine ⟨hheld.trans hi, Passed.mono hplan ?_⟩
  rintro step ⟨o, ho, hsome⟩
  exact ⟨o, ho, isSome_of_keeps hmay.actions hsome⟩

omit [DecidableEq ι] [Driver] in
theorem keeps_isSome (aid : String) :
    (sweepContract turns₀ turnOf).Keeps i [] fun p => (p.db.actions aid).isSome = true :=
  fun _ _ _ _ _ _ hmay _ _ h => isSome_of_keeps hmay.1.actions h

omit [Driver] in
/-- `acquire`: the tokens of the others are of other turns. -/
theorem acquired_sweep (hinj : Function.Injective turnOf) (hp : (sweepContract turns₀ turnOf).inv p)
    (hheld : p.held i = none) (hturn : turnOf i = (s, t)) (hep : (p.db.turn_owner (s, t)).elim 1 (· + 1) = ep) :
    (sweepContract turns₀ turnOf).inv (Contract.acquired i s t ep p) ∧
      (sweepContract turns₀ turnOf).may i p (Contract.acquired i s t ep p) := by
  obtain ⟨hinv, hmay⟩ := acquired_ok hp.1 hheld hturn hep
  refine ⟨⟨hinv, hp.2.1, fun j e hj => ?_⟩, hmay, fun k h => h⟩
  by_cases hji : j = i
  · subst hji
    rw [Contract.acquired_held] at hj
    rw [hturn, ← hj]
    exact Contract.acquired_owner
  · rw [Contract.acquired_held_of_ne hji] at hj
    have hne : turnOf j ≠ (s, t) := fun h => hji (hinj (h.trans hturn.symm))
    show Function.update p.db.turn_owner (s, t) (some ep) (turnOf j) = some e
    rw [Function.update_of_ne hne]
    exact hp.2.2 j e hj

omit [DecidableEq ι] in
/-- A charge whose claim is won. -/
theorem charged_sweep {o : Ordinal} {args order amount : Json} {afp : String} (hp : (sweepContract turns₀ turnOf).inv p)
    (hturn : turnOf i = (s, t)) (hheld : p.held i = some ep) (hstep : IsStep turns₀ s t cid o args)
    (hafp : args_fingerprint args = some afp) (horder : subscript args "order" = .ok order)
    (hamount : subscript args "amount" = .ok amount) (hcols : o.taken = true ∧ billable order amount = true)
    (hnone : p.db.actions (action_id s t cid o) = none) :
    let p' := p.commit (Contract.chargeWrites (action_id s t cid o) (DTX.chargeRow s t o afp ep) order amount)
    (sweepContract turns₀ turnOf).inv p' ∧ (sweepContract turns₀ turnOf).may i p p' := by
  intro p'
  have howner : p.db.turn_owner (s, t) = some ep := hturn ▸ hp.2.2 i ep hheld
  obtain ⟨hinv, hmay⟩ := charged_ok hp.1 hturn hheld hstep hafp horder hamount howner hnone
  have hreadable : (readable ι).inv p' :=
    ((readable_ok i s t cid o args ep 0).win p afp order amount hp.2.1 trivial hafp horder hamount hcols
      (fun _ => howner) hnone).1
  exact ⟨⟨hinv, hreadable, hp.2.2⟩, hmay, fun k h => h⟩

omit [DecidableEq ι] [Driver] in
/-- The end of a turn. -/
theorem committed_sweep (hp : (sweepContract turns₀ turnOf).inv p) (h : Underway turns₀ i s t cid ep [] p) :
    (sweepContract turns₀ turnOf).inv (p.commit [.setCommitted s t]) ∧
      (sweepContract turns₀ turnOf).may i p (p.commit [.setCommitted s t]) ∧
      Committed (s, t) (p.commit [.setCommitted s t]) := by
  obtain ⟨hinv, hmay⟩ := committed_ok hp.1 h
  obtain ⟨r₀, done, hr₀, -⟩ := h.plan
  have hsame := hp.1.plans (s, t)
  rw [hr₀] at hsame
  obtain ⟨r, hr, -, -⟩ := hsame.of_some
  have hself : (p.commit [.setCommitted s t]).db.turns (s, t) = some { r with state := .committed } := by
    show p.db.turns.update (s, t) _ (s, t) = _
    rw [Table.update_self, hr]
    rfl
  refine ⟨⟨hinv, hp.2.1, hp.2.2⟩, ⟨hmay, ?_⟩, ⟨_, hself, rfl⟩⟩
  rintro k ⟨r', hr', hst⟩
  by_cases hk : k = (s, t)
  · subst hk
    exact ⟨_, hself, rfl⟩
  · refine ⟨r', ?_, hst⟩
    show p.db.turns.update (s, t) _ k = _
    rw [Table.update_of_ne p.db.turns hk]
    exact hr'

/-- A step at hand can be charged, or is found charged. -/
theorem step_returns (hord : DistinctOrdinals turns₀) (hids : DistinctIds turns₀) {pid : Nat} {step args : Json}
    {o : Ordinal} {afp : String} {order amount : Json} (hturn : turnOf i = (s, t)) (ho : ordinalOf step = .ok o)
    (hargs : subscript step "args" = .ok args) (htaken : o.taken = true) (hafp : args_fingerprint args = some afp)
    (horder : subscript args "order" = .ok order) (hamount : subscript args "amount" = .ok amount)
    (hbill : billable order amount = true) :
    Returns (sweepContract turns₀ turnOf) true i (At true i [] [] (Underway turns₀ i s t cid ep (step :: steps)))
      (DTX.do_charge ⟨i, true, pid⟩ s t cid o args ep false)
      fun _ => At true i [] [] (Underway turns₀ i s t cid ep steps) := by
  refine Returns.do_charge (c := ⟨i, true, pid⟩) rfl keeps_underway keeps_underway hafp htaken horder hamount hbill
    (fun p hp hf => hturn ▸ hp.2.2 i ep hf.held) (keeps_isSome _) ?_ ?_
  · intro p hp hf hnone
    obtain ⟨hinv, hmay⟩ := charged_sweep hp hturn hf.held (hf.isStep ho hargs) hafp horder hamount ⟨htaken, hbill⟩ hnone
    refine ⟨hinv, hmay, hf.next ho rfl hmay.1.actions ?_⟩
    rw [Contract.charged_action_self]
    rfl
  · intro p ex hp hf hex
    -- the row is of this step: it has these arguments
    obtain ⟨cid', args', -, -, hstep', haid, hafp', -⟩ := hp.1.action _ ex hex
    obtain ⟨-, -, -, rfl⟩ := (hf.isStep ho hargs).unique hord hids hstep' haid
    refine ⟨Option.some.inj (hafp'.symm.trans hafp), hp.2.1 _ ex hex, hf.next ho rfl (fun _ _ h => h) ?_⟩
    rw [hex]
    rfl

/-- **The worker of a turn of its own** returns, with the turn committed. -/
theorem worker_returns (hinj : Function.Injective turnOf) (hord : DistinctOrdinals turns₀) (hids : DistinctIds turns₀)
    (pid : Nat) (hplay : Playable turns₀ (turnOf i)) :
    Returns (sweepContract turns₀ turnOf) true i (Contract.Unstarted true i)
      (chargeWorker ⟨i, true, pid⟩ (turnOf i).1 (turnOf i).2) fun _ => At true i [] [] (Committed (turnOf i)) := by
  obtain ⟨r₀, plan, items, hr₀, hplan, hitems, hsteps⟩ := hplay
  have hplanSteps : planSteps r₀ = items := by
    rw [planSteps, hplan]
    simp [bind, Except.bind, hitems]
  refine Returns.gateWorker (c := ⟨i, true, pid⟩) (A := fun ep p => p.held i = some ep)
    (F := Underway turns₀ i (turnOf i).1 (turnOf i).2) ?_ (fun ep => Contract.keeps_held _)
    (fun cid ep => keeps_underway) (keeps_committed _) ?_ ?_ ?_ fun cid ep p hp hf => committed_sweep hp hf
  · refine Contract.acquire (c := ⟨i, true, pid⟩) (Contract.keeps_held none) fun p ep hp hheld hep => ?_
    obtain ⟨hinv, hmay⟩ := acquired_sweep hinj hp hheld rfl hep
    exact ⟨hinv, hmay, Function.update_self ..⟩
  · intro ep p hp hheld
    have hsame := hp.1.plans (turnOf i)
    rw [hr₀] at hsame
    obtain ⟨r, hr, -, htext⟩ := hsame.of_some
    have hloads : json_loads r.plan = .ok plan := htext ▸ hplan
    exact ⟨r, plan, items, hr, hloads, hitems, Underway.start hp.1 hheld hr hloads hitems⟩
  · intro cid ep step steps p hp hf
    obtain ⟨r, done, hr, -, hall, -⟩ := hf.plan
    -- the row is the one at the start, so the step is one of the plan that is playable
    obtain rfl : r₀ = r := Option.some.inj (hr₀.symm.trans hr)
    have hmem : step ∈ items := by
      rw [← hplanSteps, hall]
      simp
    obtain ⟨o, args, afp, order, amount, hch, htaken, hafp, horder, hamount, hbill⟩ := hsteps step hmem
    have ho : ordinalOf step = .ok o := Transparent.ordinal_of_chargeOf hch
    have hargs : subscript step "args" = .ok args := Transparent.args_of_chargeOf hch
    refine ⟨o, args, ho, hargs, ?_⟩
    have hcharge : Returns (sweepContract turns₀ turnOf) true i
        (At true i [] [] (Underway turns₀ i (turnOf i).1 (turnOf i).2 cid ep (step :: steps)))
        (DTX.do_charge ⟨i, true, pid⟩ (turnOf i).1 (turnOf i).2 cid o args ep false)
        fun _ => At true i [] [] (Underway turns₀ i (turnOf i).1 (turnOf i).2 cid ep steps) :=
      step_returns hord hids rfl ho hargs htaken hafp horder hamount hbill
    -- the handler is never entered
    refine RelyGuarantee.Triple.tryCatch (hcharge.bind fun _ => ?_) fun e => ?_
    · intro w hw hat
      exact ⟨rfl, hat⟩
    · intro w hw hfalse
      exact hfalse.elim
  · intro cid ep p hp hf
    have hsame := hp.1.plans (turnOf i)
    rw [hr₀] at hsame
    obtain ⟨r, hr, -, -⟩ := hsame.of_some
    rw [show p.db.turns ((turnOf i).1, (turnOf i).2) = some r from hr]
    rfl

end Sweepers

/-! ## The sweep -/

/-- The workers of a sweep, each with its turn. -/
def sweepers (turnOf : ι → String × String) (pid : ι → Nat) : Crew ι :=
  ⟨fun j => .worker (turnOf j).1 (turnOf j).2, pid⟩

/-- What new processes find when the old ones are gone: what was committed, and the files. -/
def after {κ : Type} (w : World κ) : World ι := ⟨rest w.server.db, w.files, fun _ => none⟩

variable {turnOf : ι → String × String} {pid : ι → Nat} {w₁ : World ι} {c : Config ι Stmt (World ι) Exn Unit}
  {turns₀ : Table (String × String) TurnRow}

/-- **Nobody is refused.** Workers for distinct turns, interleaved in any order: at every moment charges are
    exactly-once, and each worker that has ended has set its turn committed. -/
theorem sweepers_commit (hinj : Function.Injective turnOf) (hord : DistinctOrdinals turns₀) (hids : DistinctIds turns₀)
    (hplay : ∀ j, Playable turns₀ (turnOf j)) (hquiet : Quiescent w₁)
    (h₁ : (sweepContract turns₀ turnOf).inv w₁.pub) (hc : RunsTo (sweepers turnOf pid) w₁ c) :
    (sweepContract turns₀ turnOf).inv c.shared.pub ∧
      ∀ j, c.procs j = .running (.ret ()) → Committed (turnOf j) c.shared.pub := by
  have hmain : ∀ j, ((sweepContract turns₀ turnOf).rules true).Triple j (Contract.Unstarted true j)
      ((sweepers turnOf pid).system.main j) (fun _ => At true j [] [] (Committed (turnOf j))) fun _ _ => False :=
    fun j => worker_returns hinj hord hids (pid j) (hplay j)
  have hverified : RelyGuarantee.Verified (sweepers turnOf pid).system ((sweepContract turns₀ turnOf).rules true)
      (Contract.Unstarted true) :=
    Contract.verified fun j => (hmain j).conseq (fun _ _ h => h) (fun _ _ _ _ => trivial) fun _ _ _ _ => trivial
  have hinit := Contract.init_of_quiescent true hquiet h₁
  refine ⟨(hverified.inv (fun _ _ _ => trivial) hinit hc).2, fun j hret => ?_⟩
  have hstarted : c.procs j ≠ .fresh := by
    rw [hret]
    nofun
  have hfollows := hverified.followed (fun _ _ _ => trivial) (fun e => e.elim) hmain
    (fun j _ => Contract.stable_at (keeps_committed _)) (fun _ _ => .const _) hinit hc j hstarted
  exact (hfollows.2 _ hret).fact

omit [DecidableEq ι] [Driver] in
/-- What held of the tables holds of them when the tokens are gone. -/
theorem Inv.after {κ : Type} {turnOf' : κ → String × String} {w : World κ} (h : Inv turns₀ turnOf' w.pub) :
    Inv turns₀ turnOf (after w : World ι).pub where
  plans := h.plans
  action := h.action
  orphan := h.orphan
  committed := h.committed
  tokens i e he := by
    rw [show (Charge.after w : World ι).pub.held i = none from rfl] at he
    cases he

omit [DecidableEq ι] in
/-- What a race has left is what a sweep can begin with. -/
theorem sweep_start {κ : Type} [DecidableEq κ] {crew : Crew κ} {w₀ : World κ} {c : Config κ Stmt (World κ) Exn Unit}
    (h₀ : Start w₀) (hc : RunsTo crew w₀ c) (turnOf : ι → String × String) :
    (sweepContract w₀.server.db.turns turnOf).inv (after c.shared : World ι).pub := by
  have hrows : (readable κ).inv c.shared.pub := hc.readable h₀
  refine ⟨(hc.inv h₀).after, hrows, fun j e he => ?_⟩
  rw [show (after c.shared : World ι).pub.held j = none from rfl] at he
  cases he

/-- The sweep after a race. -/
theorem sweep_ends {κ : Type} [DecidableEq κ] {crew : Crew κ} {w₀ : World κ} {c : Config κ Stmt (World κ) Exn Unit}
    {c' : Config ι Stmt (World ι) Exn Unit} (h₀ : Start w₀) (hord : DistinctOrdinals w₀.server.db.turns)
    (hids : DistinctIds w₀.server.db.turns) (hc : RunsTo crew w₀ c) (hinj : Function.Injective turnOf)
    (hplay : ∀ j, Playable w₀.server.db.turns (turnOf j)) (hc' : RunsTo (sweepers turnOf pid) (after c.shared) c') :
    (sweepContract w₀.server.db.turns turnOf).inv c'.shared.pub ∧
      ∀ j, c'.procs j = .running (.ret ()) → Committed (turnOf j) c'.shared.pub :=
  sweepers_commit hinj hord hids hplay ⟨fun _ => rfl, fun _ => rfl, fun _ => rfl⟩ (sweep_start h₀ hc turnOf) hc'

/-- **The sweep can end.** The workers `js`, each run by itself when the one before it is done, all end. -/
theorem exists_sweep {κ : Type} [DecidableEq κ] {crew : Crew κ} {w₀ : World κ} {c : Config κ Stmt (World κ) Exn Unit}
    (h₀ : Start w₀) (hord : DistinctOrdinals w₀.server.db.turns) (hids : DistinctIds w₀.server.db.turns)
    (hc : RunsTo crew w₀ c) (turnOf : ι → String × String) (hinj : Function.Injective turnOf)
    (hplay : ∀ j, Playable w₀.server.db.turns (turnOf j)) (pid : ι → Nat) (js : List ι) (hjs : js.Nodup) :
    ∃ c' : Config ι Stmt (World ι) Exn Unit, RunsTo (sweepers turnOf pid) (after c.shared) c' ∧
      (∀ j ∈ js, c'.procs j = .running (.ret ())) ∧ (∀ j, j ∉ js → c'.procs j = .fresh) ∧
      ∃ db fs held, c'.shared = ⟨rest db, fs, held⟩ := by
  induction js with
  | nil =>
    exact ⟨⟨after c.shared, fun _ => .fresh⟩, Lts.Reachable.start ⟨rfl, fun _ => rfl⟩, nofun, fun _ _ => rfl,
      _, _, _, rfl⟩
  | cons i js ih =>
    obtain ⟨hi, hjs⟩ := List.nodup_cons.mp hjs
    obtain ⟨c₁, hc₁, hdone, hfresh, db, fs, held, hshared⟩ := ih hjs
    -- what the others have left answers for the plan of this turn, too
    obtain ⟨⟨hinv, hrows, -⟩, -⟩ := sweep_ends h₀ hord hids hc hinj hplay hc₁
    obtain ⟨r₀, plan, items, hr₀, hplan, hitems, hsteps⟩ := hplay i
    have hplanSteps : planSteps r₀ = items := by
      rw [planSteps, hplan]
      simp [bind, Except.bind, hitems]
    have hsame := hinv.plans (turnOf i)
    rw [hr₀] at hsame
    obtain ⟨r, hr, hcid, htext⟩ := hsame.of_some
    have hanswers : Answers w₀.server.db.turns (turnOf i).1 (turnOf i).2 r₀.commit_id c₁.shared.pub.db.ledger :=
      hinv.answers hrows hord hids _ _ _
    obtain ⟨l, hplayed⟩ := hanswers.run items hord hids hr₀ (fun step hmem => hplanSteps ▸ hmem) hsteps
    have hloads : json_loads r.plan = .ok plan := htext ▸ hplan
    rw [hshared] at hr hplayed
    replace hr : db.turns (turnOf i) = some r := hr
    obtain ⟨db', held', hrun, -⟩ := run_chargeWorker ⟨i, true, pid i⟩ fs held hr hloads hitems (hcid.symm ▸ hplayed)
    rw [← hshared] at hrun
    refine ⟨_, System.Reachable.run (System.Reachable.spawn hc₁ (hfresh i hi)) (Function.update_self ..) hrun, ?_, ?_,
      db', fs, held', rfl⟩
    · intro j hj
      by_cases hji : j = i
      · subst hji
        exact Function.update_self ..
      · show Function.update (Function.update c₁.procs i _) i _ j = _
        rw [Function.update_of_ne hji, Function.update_of_ne hji]
        exact hdone j ((List.mem_cons.mp hj).resolve_left hji)
    · intro j hj
      obtain ⟨hji, hj⟩ := not_or.mp (fun h => hj (List.mem_cons.mpr h))
      show Function.update (Function.update c₁.procs i _) i _ j = _
      rw [Function.update_of_ne hji, Function.update_of_ne hji]
      exact hfresh j hj

/-- **A whole race can be brought to its end.** Wherever the race of any crew stands, when its processes are gone,
    workers for any turns, one for each, started all at once and interleaved in any order, keep charges exactly-once,
    and each of them that ends has set its turn committed: none is refused, and none fails. -/
theorem sweep_commits_all {κ : Type} [DecidableEq κ] (crew : Crew κ) (w₀ : World κ) (h₀ : Start w₀)
    (hord : DistinctOrdinals w₀.server.db.turns) (hids : DistinctIds w₀.server.db.turns)
    (c : Config κ Stmt (World κ) Exn Unit) (hc : RunsTo crew w₀ c) (turnOf : ι → String × String)
    (hinj : Function.Injective turnOf) (hplay : ∀ j, Playable w₀.server.db.turns (turnOf j)) (pid : ι → Nat)
    (c' : Config ι Stmt (World ι) Exn Unit) (hc' : RunsTo (sweepers turnOf pid) (after c.shared) c') :
    ExactlyOnce c'.shared.server.db ∧ ∀ j, c'.procs j = .running (.ret ()) →
      ∃ r, c'.shared.server.db.turns (turnOf j) = some r ∧ r.state = .committed := by
  obtain ⟨⟨hinv, -⟩, hends⟩ := sweep_ends h₀ hord hids hc hinj hplay hc'
  exact ⟨hinv.exactlyOnce hord hids, hends⟩

end Charge

end Uncontended

namespace Charge

local instance sweepersDriver : Driver := .postgres

/-- A worker of the race holds a token of the turn when it goes; the one that the sweep starts charges both steps. -/
theorem sweep_commits_all_twice : ∃ c : Config Bool Stmt (World Bool) Exn Unit, RunsTo twiceCrew twice c ∧
    c.shared.held false = some 1 ∧ ∃ c' : Config Unit Stmt (World Unit) Exn Unit,
      RunsTo (sweepers (fun _ => ("s", "t")) fun _ => 1) (after c.shared) c' ∧ c'.procs () = .running (.ret ()) ∧
      ExactlyOnce c'.shared.server.db ∧
      ∃ r, c'.shared.server.db.turns ("s", "t") = some r ∧ r.state = .committed := by
  have hstart : RunsTo twiceCrew twice ⟨twice, fun _ => .fresh⟩ := Lts.Reachable.start ⟨rfl, fun _ => rfl⟩
  have hacquired := System.Reachable.steps (hstart.spawn (i := false) rfl) (Function.update_self ..)
    ((Prog.Steps.part (DTX.run_acquire ⟨false, true, 1⟩)).tryCatch (fun _ => pure ()) |>.bind fun _ =>
      DTX.rollback ⟨false, true, 1⟩)
  have hplay : Playable twiceTurns ("s", "t") := by
    obtain ⟨afp, hafp⟩ : ∃ afp, args_fingerprint (.obj [(.str "order", .str "O"), (.str "amount", .int 5)]) =
        some afp := exists_args_fingerprint rfl
    refine ⟨twiceRow, _, _, Function.update_self .., loads_twice, rfl, fun step hmem => ?_⟩
    have hstep : ∃ o, step = twiceStep o ∧ (Ordinal.int o).taken = true := by
      rcases List.mem_pair.mp hmem with rfl | rfl
      · exact ⟨0, rfl, twice_taken.1⟩
      · exact ⟨1, rfl, twice_taken.2⟩
    obtain ⟨o, rfl, ho⟩ := hstep
    exact ⟨.int o, _, afp, _, _, Transparent.chargeOf_ok (twiceStep_ordinal o) (twiceStep_args o), ho, hafp, rfl, rfl,
      twice_billable⟩
  obtain ⟨c', hsweep, hret, -⟩ := exists_sweep start_twice distinctOrdinals_twice distinctIds_twice hacquired
    (fun _ : Unit => ("s", "t")) (fun _ _ _ => rfl) (fun _ => hplay) (fun _ => 1) [()] (List.nodup_singleton _)
  obtain ⟨honce, hends⟩ := sweep_commits_all twiceCrew twice start_twice distinctOrdinals_twice distinctIds_twice _
    hacquired (fun _ : Unit => ("s", "t")) (fun _ _ _ => rfl) (fun _ => hplay) (fun _ => 1) c' hsweep
  have hdone := hret () List.mem_cons_self
  exact ⟨_, hacquired, rfl, c', hsweep, hdone, honce, hends () hdone⟩

end Charge

end AgentTx.Dtx
