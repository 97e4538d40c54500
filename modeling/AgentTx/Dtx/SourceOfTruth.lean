import AgentTx.Dtx.Alone
import AgentTx.Dtx.Plan

/-!
# `Dtx.SourceOfTruth` — the durable plan and the plans that callers supply

Calls of `run_turn` on one turn, with a plan or without, with an epoch of their own or a given one, on
either backend. `begin_turn` keeps the plan that is stored but returns the commit id of the plan it was
given, so a caller that supplies another plan runs that one, under ids the stored plan does not have
(`two_plans`). When whoever finds a plan stored supplies one with the same canonical text, the stored plan
is the source of truth (`plan_is_source_of_truth`).

Layout of the proof:
* **The contract** — `Inv s t` is about the one turn: its charges are for steps of the plan that is stored, and it is
  committed only when all of them are there. A caller knows (`Knows`) that the plan it goes through has the identity
  of the stored one.
* **Where the condition is used** — at the `INSERT` of `begin_turn` alone (`begun_ok`): when it finds a row, what it
  was given must be that row's plan.
* **The calls** — `caller_spec`, for a call with a plan or without, and with a token of its own or a given one.

Main results: `plan_is_source_of_truth`, with two callers that charge a plan and commit it, and `two_plans`, where the
second caller brings a plan of its own.
-/

namespace AgentTx.Dtx.SourceOfTruth

variable {ι : Type}

/-- A call of `run_turn`. -/
structure Call where
  session : String
  turn : String
  plan : Option (List Json)
  epoch : Option Nat
  crash_at : Option Int

/-- `row` is what `begin_turn` stores for `plan`. -/
def Stores (row : TurnRow) (plan : List Json) : Prop :=
  commit_id_of (.arr plan) = some row.commit_id ∧ row.plan = (Json.arr plan).dumps

/-- The claims of the turn on the tables: its charges are steps of the stored plan, and once it is
    committed all steps are charged. -/
structure Holds (s t : String) (db : Db) : Prop where
  charges : ∀ ch ∈ db.charges, ∃ r, db.actions ch.action_id = some r ∧ ((r.session, r.turn) = (s, t) →
    ∃ row, db.turns (s, t) = some row ∧ ∃ step ∈ planSteps row, ∃ o, ordinalOf step = .ok o ∧
      ch.action_id = action_id s t row.commit_id o)
  committed : ∀ row, db.turns (s, t) = some row → row.state = .committed → ∀ step ∈ planSteps row,
    ∃ o, ordinalOf step = .ok o ∧ db.chargesOf (action_id s t row.commit_id o) ≠ []

/-- When call `i` finds a plan stored for the turn, it supplies one with the same canonical text. -/
def Agrees (calls : ι → Call) (s t : String) (i : ι) (st : Stmt) (p : Public ι) : Prop :=
  st = .insert_turn s t → ∀ row plan, p.db.turns (s, t) = some row → (calls i).plan = some plan →
    ∃ plan₀, Stores row plan₀ ∧ canonical_args (.arr plan₀) = canonical_args (.arr plan)

/-! ## The contract

About one turn, since nothing relates the plans of two. -/

section Contract

variable (s t : String)

structure Inv (p : Public ι) : Prop where
  stored : ∀ row, p.db.turns (s, t) = some row → ∃ plan, Stores row plan
  charged : ∀ aid, (p.db.actions aid).isSome ↔ p.db.chargesOf aid ≠ []
  of_plan : ∀ aid r, p.db.actions aid = some r → (r.session, r.turn) = (s, t) →
    ∃ row, p.db.turns (s, t) = some row ∧ ∃ step ∈ planSteps row, ∃ o, ordinalOf step = .ok o ∧
      aid = action_id s t row.commit_id o
  committed : ∀ row, p.db.turns (s, t) = some row → row.state = .committed → ∀ step ∈ planSteps row,
    ∃ o, ordinalOf step = .ok o ∧ (p.db.actions (action_id s t row.commit_id o)).isSome

/-- Nothing that is stored goes away. -/
structure May (p p' : Public ι) : Prop where
  actions : ∀ aid, (p.db.actions aid).isSome → (p'.db.actions aid).isSome
  plan : ∀ row, p.db.turns (s, t) = some row → SamePlan (p'.db.turns (s, t)) (some row)

variable {s t} in
theorem May.same {p p' : Public ι} (hactions : p'.db.actions = p.db.actions)
    (hturns : p'.db.turns = p.db.turns) : May s t p p' where
  actions aid h := by rw [hactions]; exact h
  plan row h := by
    rw [hturns, h]
    exact .refl _

/-- The steps `steps` of the turn are still to come; what is before them in the stored plan is done. -/
def Underway (cid : String) (steps : List Json) (p : Public ι) : Prop :=
  ∃ row done, p.db.turns (s, t) = some row ∧ row.commit_id = cid ∧
    (planSteps row).map ordinalOf = done ++ steps.map ordinalOf ∧
    ∀ x ∈ done, ∃ o, x = .ok o ∧ (p.db.actions (action_id s t cid o)).isSome

variable (calls : ι → Call)

def contract : Contract ι where
  inv := Inv s t
  may _ := May s t
  may_refl _ _ := May.same rfl rfl
  ok := Agrees calls s t

variable {s t calls} {i : ι} {p p' : Public ι} {s' t' cid : String} {steps : List Json}

theorem Inv.holds (hp : Inv s t p) : Holds s t p.db where
  charges ch hch := by
    have hmem : ch ∈ p.db.chargesOf ch.action_id := List.mem_filter.mpr ⟨hch, by simp⟩
    obtain ⟨r, hr⟩ := Option.isSome_iff_exists.mp ((hp.charged _).mpr (List.ne_nil_of_mem hmem))
    exact ⟨r, hr, hp.of_plan _ r hr⟩
  committed row hrow hst step hmem := by
    obtain ⟨o, ho, hsome⟩ := hp.committed row hrow hst step hmem
    exact ⟨o, ho, (hp.charged _).mp hsome⟩

theorem Underway.mono (h : Underway s t cid steps p) (hmay : May s t p p') : Underway s t cid steps p' := by
  obtain ⟨row, done, hrow, hcid, hsteps, hdone⟩ := h
  obtain ⟨row', hrow', hcid', hplan'⟩ := (hmay.plan row hrow).of_some
  refine ⟨row', done, hrow', hcid'.trans hcid, by rw [planSteps_congr hplan', hsteps], fun x hx => ?_⟩
  obtain ⟨o, ho, hsome⟩ := hdone x hx
  exact ⟨o, ho, hmay.actions _ hsome⟩

/-- What a call on the turn knows; a call on another turn knows nothing. -/
def Knows (s t s' t' cid : String) (steps : List Json) (p : Public ι) : Prop :=
  (s', t') = (s, t) → Underway s t cid steps p

theorem Knows.keeps : (contract s t calls).Keeps i [] (Knows s t s' t' cid steps) :=
  fun _ _ _ _ _ _ hmay _ _ h heq => (h heq).mono hmay

theorem Knows.next {step : Json} {o : Ordinal} (h : Knows s t s' t' cid (step :: steps) p)
    (ho : ordinalOf step = .ok o) (hmay : May s t p p')
    (hsome : (p'.db.actions (action_id s' t' cid o)).isSome) : Knows s t s' t' cid steps p' := by
  intro heq
  obtain ⟨row, done, hrow, hcid, hsteps, hdone⟩ := (h heq).mono hmay
  cases heq
  refine ⟨row, done ++ [.ok o], hrow, hcid, by simp [hsteps, ho], fun x hx => ?_⟩
  rcases List.mem_append.mp hx with hx | hx
  · exact hdone x hx
  · exact ⟨o, List.mem_singleton.mp hx, hsome⟩

/-! ## What each commit owes the contract

Four transactions. Only one of them, `begin_turn`, depends on what a caller brings. -/

theorem acquired_ok [DecidableEq ι] {ep : Nat} (hp : Inv s t p) :
    Inv s t (Contract.acquired i s' t' ep p) ∧ May s t p (Contract.acquired i s' t' ep p) :=
  ⟨⟨hp.stored, hp.charged, hp.of_plan, hp.committed⟩, May.same rfl rfl⟩

theorem charged_ok {o : Ordinal} (row : ActionRow) (order amount : Json) (hp : Inv s t p)
    (h : (row.session, row.turn) = (s, t) → ∃ row', p.db.turns (s, t) = some row' ∧
      ∃ step ∈ planSteps row', ∃ o', ordinalOf step = .ok o' ∧
        action_id s' t' cid o = action_id s t row'.commit_id o')
    (hnone : p.db.actions (action_id s' t' cid o) = none) :
    let p' := p.commit (Contract.chargeWrites (action_id s' t' cid o) row order amount)
    Inv s t p' ∧ May s t p p' := by
  intro p'
  have hself : p'.db.actions (action_id s' t' cid o) = _ := Contract.charged_action_self
  have hmono : ∀ aid, (p.db.actions aid).isSome → (p'.db.actions aid).isSome := by
    intro aid hsome
    have hne : aid ≠ action_id s' t' cid o := by
      rintro rfl
      rw [hnone] at hsome
      cases hsome
    rw [show p'.db.actions aid = p.db.actions aid from Contract.charged_action_of_ne hne]
    exact hsome
  refine ⟨⟨hp.stored, fun aid => ?_, fun aid r hr hst => ?_, fun row hrow hst step hmem => ?_⟩,
    ⟨hmono, fun row hrow => ?_⟩⟩
  · by_cases haid : aid = action_id s' t' cid o
    · subst haid
      have hcharge : p'.db.chargesOf (action_id s' t' cid o) = _ := Contract.charged_chargesOf_self
      rw [hself, hcharge]
      simp
    · rw [show p'.db.actions aid = p.db.actions aid from Contract.charged_action_of_ne haid,
        show p'.db.chargesOf aid = p.db.chargesOf aid from Contract.charged_chargesOf_of_ne haid]
      exact hp.charged aid
  · by_cases haid : aid = action_id s' t' cid o
    · subst haid
      cases hself.symm.trans hr
      exact h hst
    · exact hp.of_plan aid r ((Contract.charged_action_of_ne haid).symm.trans hr) hst
  · obtain ⟨o', ho', hsome⟩ := hp.committed row hrow hst step hmem
    exact ⟨o', ho', hmono _ hsome⟩
  · rw [show p'.db.turns (s, t) = some row from hrow]
    exact .refl _

theorem begun_ok {plan : List Json} (row : TurnRow) (hp : Inv s t p) (hrow : Stores row plan)
    (hst : row.state = .open) (hnone : p.db.turns (s', t') = none) :
    Inv s t (p.commit [.insertTurn s' t' row]) ∧ May s t p (p.commit [.insertTurn s' t' row]) := by
  have hturns : ∀ k, (p.commit [.insertTurn s' t' row]).db.turns k =
      Function.update p.db.turns (s', t') (some row) k := fun _ => rfl
  -- a turn already begun is not begun again, so the watched row stays
  have hkeep : ∀ row₁, p.db.turns (s, t) = some row₁ →
      (p.commit [.insertTurn s' t' row]).db.turns (s, t) = some row₁ := by
    intro row₁ h₁
    have hne : (s, t) ≠ (s', t') := by
      intro he
      rw [he, hnone] at h₁
      cases h₁
    rw [hturns, Function.update_of_ne hne]
    exact h₁
  -- the watched row is the new one or the one before
  have hcases : ∀ row₁, (p.commit [.insertTurn s' t' row]).db.turns (s, t) = some row₁ →
      row₁ = row ∨ p.db.turns (s, t) = some row₁ := by
    intro row₁ h₁
    rw [hturns] at h₁
    by_cases he : (s, t) = (s', t')
    · rw [he, Function.update_self] at h₁
      exact Or.inl (Option.some.inj h₁).symm
    · rw [Function.update_of_ne he] at h₁
      exact Or.inr h₁
  refine ⟨⟨fun row₁ h₁ => ?_, hp.charged, fun aid r hr hturn => ?_, fun row₁ h₁ hst₁ step hmem => ?_⟩,
    ⟨fun _ h => h, fun row₁ h₁ => ?_⟩⟩
  · rcases hcases row₁ h₁ with rfl | h₁
    · exact ⟨plan, hrow⟩
    · exact hp.stored row₁ h₁
  · obtain ⟨row₁, h₁, hrest⟩ := hp.of_plan aid r hr hturn
    exact ⟨row₁, hkeep row₁ h₁, hrest⟩
  · rcases hcases row₁ h₁ with rfl | h₁
    · rw [hst] at hst₁
      cases hst₁
    · exact hp.committed row₁ h₁ hst₁ step hmem
  · rw [hkeep row₁ h₁]
    exact .refl _

theorem committed_ok (hp : Inv s t p) (h : Knows s t s' t' cid [] p) :
    Inv s t (p.commit [.setCommitted s' t']) ∧ May s t p (p.commit [.setCommitted s' t']) := by
  have hsame := samePlan_setCommitted p.db s' t' (s, t)
  -- the row of the turn, before
  have hback : ∀ row, (p.commit [.setCommitted s' t']).db.turns (s, t) = some row →
      ∃ row₁, p.db.turns (s, t) = some row₁ ∧ row₁.commit_id = row.commit_id ∧ row₁.plan = row.plan := by
    intro row hrow
    rw [show ((Write.setCommitted s' t').apply p.db).turns (s, t) = some row from hrow] at hsame
    exact hsame.symm.of_some
  refine ⟨⟨fun row hrow => ?_, hp.charged, fun aid r hr hturn => ?_, fun row hrow hst step hmem => ?_⟩,
    ⟨fun _ h => h, fun row hrow => by rw [← hrow]; exact hsame⟩⟩
  · obtain ⟨row₁, h₁, hcid, hplan⟩ := hback row hrow
    obtain ⟨plan, hstores⟩ := hp.stored row₁ h₁
    exact ⟨plan, by rw [Stores, ← hcid, ← hplan]; exact hstores⟩
  · obtain ⟨row₁, h₁, step, hmem, o, ho, haid⟩ := hp.of_plan aid r hr hturn
    rw [h₁] at hsame
    obtain ⟨row, hrow, hcid, hplan⟩ := hsame.of_some
    exact ⟨row, hrow, step, by rwa [planSteps_congr hplan], o, ho, by rw [hcid]; exact haid⟩
  · by_cases he : (s', t') = (s, t)
    · -- this turn: everything before the end of the plan is done
      obtain ⟨row₁, done, h₁, hcid₁, hsteps, hdone⟩ := h he
      obtain ⟨row₂, h₂, hcid, hplan⟩ := hback row hrow
      cases h₁.symm.trans h₂
      rw [List.map_nil, List.append_nil] at hsteps
      have hmem' : ordinalOf step ∈ done := by
        rw [← hsteps, planSteps_congr hplan]
        exact List.mem_map_of_mem hmem
      obtain ⟨o, ho, hsome⟩ := hdone _ hmem'
      rw [← hcid, hcid₁]
      exact ⟨o, ho, hsome⟩
    · have hne : (s, t) ≠ (s', t') := fun he' => he he'.symm
      have hrow' : p.db.turns.update (s', t') (fun r => { r with state := .committed }) (s, t) = some row :=
        hrow
      rw [Table.update_of_ne p.db.turns hne] at hrow'
      exact hp.committed row hrow' hst step hmem

end Contract

/-! ## The calls

A caller acquires or comes with a token, gets hold of a plan, and goes through it. -/

section Runs

variable [DecidableEq ι] [Driver]

/-- Processes that call `run_turn`, each once. -/
def callers (pg : Bool) (calls : ι → Call) : System ι Empty Stmt (World ι) Exn Unit :=
  system fun i => turnProcess ⟨i, pg, 0⟩ (calls i).session (calls i).turn (calls i).plan (calls i).epoch
    (calls i).crash_at

section Programs

variable {calls : ι → Call} {s t : String} {i : ι} {pg : Bool}

omit [Driver] in
theorem begin_turn_spec {s' t' : String} {plan : List Json} (hplan : (calls i).plan = some plan) :
    ((contract s t calls).rules pg).Triple i (Contract.At pg i [] [] fun _ => True)
      (DTX.begin_turn ⟨i, pg, 0⟩ s' t' plan)
      (fun cid => Contract.At pg i [] [] (Knows s t s' t' cid plan)) fun _ _ => True := by
  refine (Contract.begin_turn (c := ⟨i, pg, 0⟩) (Contract.keeps_const True) (fun cid => Knows.keeps)
    ?_ ?_).conseq (fun _ _ h => h) (fun _ _ _ h => h) fun _ _ _ _ => trivial
  · intro p cid hp _ hcid hnone
    have hbegun := begun_ok ⟨cid, (Json.arr plan).dumps, .open⟩ hp ⟨hcid, rfl⟩ rfl hnone
    refine ⟨hbegun.1, hbegun.2, fun he => ?_⟩
    cases he
    refine ⟨_, [], Function.update_self .., rfl, ?_, fun x hx => absurd hx List.not_mem_nil⟩
    rw [planSteps_dumps, map_ordinalOf_stringKeys]
    rfl
  · intro p cid r hp _ hagrees hcid hr he
    cases he
    -- the plan that is stored has the same text as the one supplied
    obtain ⟨plan₀, ⟨hcid₀, hplan₀⟩, htext⟩ := hagrees rfl r plan hr hplan
    have hsame : some r.commit_id = some cid := by
      rw [← hcid₀, ← hcid, commit_id_of, commit_id_of, htext]
    obtain ⟨text, htext', -⟩ := Option.map_eq_some_iff.mp hcid
    refine ⟨r, [], hr, Option.some.inj hsame, ?_, fun x hx => absurd hx List.not_mem_nil⟩
    have hsteps : planSteps r = Json.stringKeysItems plan₀ := by
      rw [← planSteps_dumps r.commit_id plan₀ r.state, ← hplan₀]
    rw [hsteps, map_ordinalOf_stringKeys, map_ordinalOf_canonical (htext.trans htext') htext']
    rfl

theorem caller_spec : ((contract s t calls).rules pg).Triple i (Contract.Unstarted pg i)
    (turnProcess ⟨i, pg, 0⟩ (calls i).session (calls i).turn (calls i).plan (calls i).epoch
      (calls i).crash_at) (fun _ _ => True) fun _ _ => True := by
  have hacq : ((contract s t calls).rules pg).Triple i (Contract.At pg i [] [] fun p => p.held i = none)
      (DTX.turnEpoch ⟨i, pg, 0⟩ (calls i).session (calls i).turn (calls i).epoch)
      (fun ep => Contract.At pg i [] [] fun _ => True) fun _ _ => True := by
    cases (calls i).epoch with
    | none =>
      refine Contract.acquire (c := ⟨i, pg, 0⟩) (Contract.keeps_held none) fun p ep hp _ _ => ?_
      exact ⟨(acquired_ok hp).1, (acquired_ok hp).2, trivial⟩
    | some ep => exact fun w _ hat => hat.mono (fun l hl => hl) fun _ => trivial
  refine Contract.turnProcess (c := ⟨i, pg, 0⟩) (A := fun _ _ => True)
    (F := fun cid _ => Knows s t (calls i).session (calls i).turn cid) hacq
    (fun _ => Contract.keeps_const True) (fun cid ep steps => Knows.keeps)
    (fun ep plan hplan => begin_turn_spec hplan) ?_ ?_ fun cid ep p => committed_ok
  · intro ep p r plan items hp _ hr hplan hitems he
    cases he
    refine ⟨r, [], hr, rfl, ?_, fun x hx => absurd hx List.not_mem_nil⟩
    rw [planSteps, hplan]
    simp [bind, Except.bind, hitems]
  · intro cid ep step steps o args ho hargs
    constructor
    · intro p afp order amount hp hf hafp horder hamount _ _ hnone
      -- in the turn watched, the step being charged is one of the stored plan's
      have hstep : ((calls i).session, (calls i).turn) = (s, t) → ∃ row, p.db.turns (s, t) = some row ∧
          ∃ step ∈ planSteps row, ∃ o', ordinalOf step = .ok o' ∧
            action_id (calls i).session (calls i).turn cid o = action_id s t row.commit_id o' := by
        intro he
        obtain ⟨row, done, hrow, hcid, hsteps, -⟩ := hf he
        have hmem : ordinalOf step ∈ (planSteps row).map ordinalOf := by
          rw [hsteps]
          simp
        obtain ⟨step', hstep', ho'⟩ := List.mem_map.mp hmem
        cases he
        exact ⟨row, hrow, step', hstep', o, ho'.trans ho, by rw [hcid]⟩
      obtain ⟨hinv, hmay⟩ := charged_ok (DTX.chargeRow (calls i).session (calls i).turn o afp ep) order
        amount hp hstep hnone
      refine ⟨hinv, hmay, hf.next ho hmay ?_⟩
      rw [Contract.charged_action_self]
      rfl
    · -- a deduplicated charge: the row was there
      intro p afp ex v hp hf hafp _ hex hfp hv
      refine hf.next ho (May.same rfl rfl) ?_
      rw [hex]
      rfl

end Programs

/-! ## One caller

For the runs below: which statements a call executes when nobody is in its way, and that they meet the condition. -/

section Caller

variable (x : DTX ι) {T : Stmt → Prop}

/-- Only `begin_turn` inserts a turn. -/
theorem only_do_charge {s t cid : String} {o : Ordinal} {args : Json} {ep : Nat} {mid : Bool}
    (hT : ∀ st, (∀ s t, st ≠ .insert_turn s t) → T st) : (x.do_charge s t cid o args ep mid).Only T := by
  have hexecute : ∀ {α : Type} (st : Stmt) (f : Server ι → Option (α × Server ι)), (∀ s t, st ≠ .insert_turn s t) →
      (DTX.execute st f : DtxProg ι α).Only T := fun st f hst => (Prog.only_step ..).mpr (hT st hst)
  have heffect : ∀ aid, (x.chargeEffect aid args mid).Only T := by
    intro aid
    refine Prog.only_bind (Prog.only_ofExcept _) fun order => Prog.only_bind (Prog.only_ofExcept _) fun amount => ?_
    refine Prog.only_bind (Prog.only_bind (Prog.only_ofExcept _) fun _ => hexecute _ _ nofun) fun _ => ?_
    cases mid with
    | true => trivial
    | false => exact Prog.only_bind (hexecute _ _ nofun) fun _ => trivial
  have hfound : ∀ aid afp, (x.chargeFound aid afp).Only T := by
    intro aid afp
    refine Prog.only_bind (hexecute _ _ nofun) fun ex => ?_
    split
    · trivial
    split
    · trivial
    split
    · trivial
    · exact Prog.only_bind (Prog.only_ofExcept _) fun v => trivial
  refine Prog.only_bind (Prog.only_ofOption ..) fun afp => Prog.only_tryCatch ?_ fun e =>
    Prog.only_bind ((Prog.only_modify ..).mpr (hT _ nofun)) fun _ => trivial
  refine Prog.only_bind ?_ fun r => Prog.only_bind ((Prog.only_modify ..).mpr (hT _ nofun)) fun _ => trivial
  refine Prog.only_bind (hexecute _ _ nofun) fun owner => ?_
  split
  · trivial
  · refine Prog.only_bind (Prog.only_bind (Prog.only_ofExcept _) fun _ => hexecute _ _ nofun) fun inserted => ?_
    cases inserted with
    | true => exact heffect _
    | false => exact hfound _ afp

theorem only_runSteps {s t cid : String} {ep : Nat} {crash_at : Option Int} {steps : List Json}
    (hT : ∀ st, (∀ s t, st ≠ .insert_turn s t) → T st) : (x.runSteps s t cid ep crash_at steps).Only T := by
  induction steps with
  | nil => trivial
  | cons step steps ih =>
    exact Prog.only_bind (Prog.only_ofExcept _) fun o => Prog.only_bind (Prog.only_ofExcept _) fun args =>
      Prog.only_bind (only_do_charge x hT) fun r => Prog.only_bind ih fun rs => trivial

/-- A call that supplies a plan meets the condition when the plan that is stored, if any, has its text. -/
theorem guarded_turnProcess {calls : ι → Call} {i : ι} {db : Db} {fs : FileSys} {held : ι → Option Nat} {s t : String}
    {plan : List Json} {crash_at : Option Int} (hplan : (calls i).plan = some plan)
    (hstored : ∀ row, db.turns (s, t) = some row →
      ∃ plan₀, Stores row plan₀ ∧ canonical_args (.arr plan₀) = canonical_args (.arr plan)) :
    (turnProcess x s t (some plan) none crash_at).Guarded (fun st w => Agrees calls s t i st w.pub)
      ⟨rest db, fs, held⟩ := by
  let T : Stmt → Prop := fun st => ∀ s t, st ≠ .insert_turn s t
  have hother : ∀ st (w : World ι), T st → Agrees calls s t i st w.pub := fun _ _ hst he => absurd he (hst s t)
  have hguard : ∀ {α : Type} {p : DtxProg ι α} (w : World ι), p.Only T →
      p.Guarded (fun st w => Agrees calls s t i st w.pub) w := fun w hp => hp.guarded hother w
  have hacquire : (x.acquire s t).Only T :=
    Prog.only_bind ((Prog.only_step ..).mpr (by simp [T])) fun _ =>
      Prog.only_bind ((Prog.only_modify ..).mpr (by simp [T])) fun _ => trivial
  have hcommit : (x.commit_turn s t).Only T :=
    Prog.only_bind ((Prog.only_step ..).mpr (by simp [T])) fun _ => (Prog.only_modify ..).mpr (by simp [T])
  have hrest : ∀ cid ep items, (x.runSteps s t cid ep crash_at items >>= fun rs => x.commit_turn s t >>= fun _ =>
      pure rs : DtxProg ι _).Only T := fun cid ep items =>
    Prog.only_bind (only_runSteps x fun _ h => h) fun rs => Prog.only_bind hcommit fun _ => trivial
  -- the insert of the turn finds the plan that was there before the call
  have hinsert : ∀ (w : World ι) ep cid, w.pub.db.turns (s, t) = db.turns (s, t) →
      (x.insert_turn s t cid ep).Guarded (fun st w => Agrees calls s t i st w.pub) w := by
    intro w ep cid hturns
    refine (Prog.guarded_step ..).mpr fun _ row plan' hrow hplan' => ?_
    cases hplan.symm.trans hplan'
    exact hstored row (hturns.symm.trans hrow)
  have hrun : (x.run_turn s t (some plan) none crash_at).Guarded (fun st w => Agrees calls s t i st w.pub)
      ⟨rest db, fs, held⟩ := by
    refine (Prog.guarded_bind ..).mpr ⟨hguard _ hacquire, fun ep w' hw' => ?_⟩
    have hturns : w'.pub.db.turns (s, t) = db.turns (s, t) := by
      rw [DTX.turnEpoch, x.run_acquire] at hw'
      cases hw'
      rfl
    refine (Prog.guarded_bind ..).mpr ⟨?_, fun r w'' _ => hguard w'' (hrest r.1 ep r.2)⟩
    refine (Prog.guarded_bind ..).mpr ⟨?_, fun _ _ _ => trivial⟩
    refine (Prog.guarded_bind ..).mpr ⟨Prog.guarded_ofOption .., fun cid w'' hw'' => ?_⟩
    have hstay : w'' = w' := by
      rw [Prog.run_ofOption] at hw''
      exact (Prod.mk.inj (Option.some.inj hw'')).2.symm
    subst hstay
    exact (Prog.guarded_bind ..).mpr ⟨hinsert _ _ _ hturns, fun _ w₁ _ => hguard w₁
      (Prog.only_bind ((Prog.only_modify ..).mpr (by simp [T])) fun _ => trivial)⟩
  refine (Prog.guarded_bind ..).mpr ⟨(Prog.guarded_tryCatch ..).mpr ⟨?_, fun _ _ _ => trivial⟩, fun _ w' _ =>
    hguard w' ((Prog.only_modify ..).mpr (by simp [T]))⟩
  exact (Prog.guarded_bind ..).mpr ⟨hrun, fun _ _ _ => trivial⟩

end Caller

/-! ## Runs

The condition is on single steps, so that the system rule gives the theorem for every run that meets it. -/

/-- Before the run: the turn has no plan, and no action has been taken. -/
structure Start (s t : String) (w : World ι) : Prop where
  quiescent : Quiescent w
  no_plan : w.server.db.turns (s, t) = none
  no_actions : ∀ aid, w.server.db.actions aid = none
  no_charges : w.server.db.charges = []

omit [DecidableEq ι] [Driver] in
theorem Start.inv {s t : String} {w : World ι} (h : Start s t w) : Inv s t w.pub where
  stored row hrow := by
    rw [show w.pub.db.turns (s, t) = none from h.no_plan] at hrow
    cases hrow
  charged aid := by
    have hcharges : w.pub.db.chargesOf aid = [] := by
      show w.server.db.chargesOf aid = []
      rw [Db.chargesOf, h.no_charges]
      rfl
    rw [show w.pub.db.actions aid = none from h.no_actions aid, hcharges]
    simp
  of_plan aid r hr := by
    rw [show w.pub.db.actions aid = none from h.no_actions aid] at hr
    cases hr
  committed row hrow := by
    rw [show w.pub.db.turns (s, t) = none from h.no_plan] at hrow
    cases hrow

/-- **The durable plan is the source of truth** of a turn as long as whoever finds it stored supplies a
    plan with its canonical text, or none. -/
theorem plan_is_source_of_truth (pg : Bool) (calls : ι → Call) (s t : String) (w₀ : World ι)
    (h₀ : Start s t w₀) (c : Config ι Stmt (World ι) Exn Unit)
    (hc : (callers pg calls).ReachableWhen (fun i st w => Agrees calls s t i st w.pub) (· = w₀) c) :
    Holds s t c.shared.server.db := by
  have hverified : RelyGuarantee.Verified (callers pg calls) ((contract s t calls).rules pg)
      (Contract.Unstarted pg) := Contract.verified fun _ => caller_spec
  have hinv := hverified.invWhen (Contract.init_of_quiescent pg h₀.quiescent h₀.inv) hc
  exact hinv.2.holds

end Runs

/-! Two callers, one after the other. -/

section TwoCallers

local instance driver : Driver := .postgres

/-- No plans, no actions. -/
def fresh : World Bool := ⟨rest Db.empty, .empty, fun _ => none⟩

theorem start_fresh : Start "s" "t" fresh := ⟨quiescent_rest _ _, rfl, fun _ => rfl, rfl⟩

def twicePlan : List Json := [twiceStep 0, twiceStep 1]

/-- A step of `twicePlan`, with the keys in another order. -/
def respelt (o : Int) : Json :=
  .obj [(.str "args", .obj [(.str "amount", .int 5), (.str "order", .str "O")]), (.str "ordinal", .int o)]

theorem respelt_ordinal (o : Int) : (subscript (respelt o) "ordinal" >>= asOrdinal) = .ok (.int o) := rfl

theorem respelt_args (o : Int) : subscript (respelt o) "args" =
    .ok (.obj [(.str "amount", .int 5), (.str "order", .str "O")]) := rfl

/-- One plan in two spellings. The first caller is to stop in its second charge. -/
def onePlan : Bool → Call
  | false => ⟨"s", "t", some twicePlan, none, some 1⟩
  | true => ⟨"s", "t", some [respelt 0, respelt 1], none, none⟩

theorem canonical_respelt : canonical_args (.arr twicePlan) = canonical_args (.arr [respelt 0, respelt 1]) := by
  decide +kernel

theorem fingerprint_respelt : args_fingerprint (.obj [(.str "amount", .int 5), (.str "order", .str "O")]) =
    args_fingerprint (.obj [(.str "order", .str "O"), (.str "amount", .int 5)]) := by decide +kernel

/-- The tables when both steps are done: the first caller has charged step 0, the second one step 1. -/
def halfway (cid afp : String) : Db :=
  (Contract.chargeWrites (action_id "s" "t" cid (.int 0)) (DTX.chargeRow "s" "t" (.int 0) afp 1) (.str "O")
    (.int 5)).foldl (fun d w => w.apply d)
    (DTX.begun "s" "t" ⟨cid, (Json.arr twicePlan).dumps, .open⟩ ((Write.setOwner "s" "t" 1).apply Db.empty))

/-- The first caller: its first charge is committed, its second one rolled back. -/
theorem run_stopped {cid afp : String} (hcid : commit_id_of (.arr twicePlan) = some cid)
    (hafp : args_fingerprint (.obj [(.str "order", .str "O"), (.str "amount", .int 5)]) = some afp)
    (hne : action_id "s" "t" cid (.int 1) ≠ action_id "s" "t" cid (.int 0)) :
    (turnProcess ⟨false, true, 0⟩ "s" "t" (some twicePlan) none (some 1)).run fresh =
      some (.ok (), ⟨rest (halfway cid afp), .empty, Function.update (fun _ => none) false (some 1)⟩) := by
  let x : DTX Bool := ⟨false, true, 0⟩
  let held : Bool → Option Nat := Function.update (fun _ => none) false (some 1)
  let begun : Db :=
    DTX.begun "s" "t" ⟨cid, (Json.arr twicePlan).dumps, .open⟩ ((Write.setOwner "s" "t" 1).apply Db.empty)
  have hcharge : (x.do_charge "s" "t" cid (.int 0) _ 1 false).run ⟨rest begun, .empty, held⟩ =
      some (_, ⟨rest (halfway cid afp), .empty, held⟩) :=
    DTX.run_do_charge_new x hafp twice_taken.1 rfl rfl twice_billable rfl rfl
  have hnone : (halfway cid afp).actions (action_id "s" "t" cid (.int 1)) = none := by
    simp [halfway, Contract.chargeWrites, Write.apply, Table.update_of_ne _ hne, Function.update_of_ne hne, Db.empty]
  have hcrash : (x.do_charge "s" "t" cid (.int 1) _ 1 true).run ⟨rest (halfway cid afp), .empty, held⟩ =
      some (_, ⟨rest (halfway cid afp), .empty, held⟩) :=
    DTX.run_do_charge_crash x hafp twice_taken.2 rfl rfl twice_billable rfl hnone
  have hsteps : (x.runSteps "s" "t" cid 1 (some 1) twicePlan).run ⟨rest begun, .empty, held⟩ =
      some (.error .Crash, ⟨rest (halfway cid afp), .empty, held⟩) := by
    show (x.runSteps "s" "t" cid 1 (some 1) [twiceStep 0, twiceStep 1]).run _ = _
    simp [DTX.runSteps, twiceStep_ordinal, twiceStep_args, Ordinal.isInt, hcharge, hcrash]
  have howner : (Db.empty.turn_owner ("s", "t")).elim 1 (· + 1) = 1 := rfl
  simp [turnProcess, DTX.run_turn, DTX.turnEpoch, DTX.turnPlan, fresh, DTX.run_acquire, howner,
    DTX.run_begin_turn x hcid, x, hsteps, begun, held]

/-- The second caller: it is told of the first charge, makes the second one, and commits the turn. -/
theorem run_resumed {cid afp : String} (held : Bool → Option Nat) (hcid : commit_id_of (.arr twicePlan) = some cid)
    (hafp : args_fingerprint (.obj [(.str "order", .str "O"), (.str "amount", .int 5)]) = some afp)
    (hne : action_id "s" "t" cid (.int 1) ≠ action_id "s" "t" cid (.int 0)) :
    ∃ db held', (turnProcess ⟨true, true, 0⟩ "s" "t" (some [respelt 0, respelt 1]) none none).run
        ⟨rest (halfway cid afp), .empty, held⟩ = some (.ok (), ⟨rest db, .empty, held'⟩) ∧
      db.charges = (halfway cid afp).charges ++ [⟨.str "O", .int 5, action_id "s" "t" cid (.int 1)⟩] := by
  let x : DTX Bool := ⟨true, true, 0⟩
  let held' : Bool → Option Nat := Function.update held true (some 2)
  have hcid' : commit_id_of (.arr [respelt 0, respelt 1]) = some cid := by
    rw [← hcid, commit_id_of, commit_id_of, canonical_respelt]
  have hafp' := fingerprint_respelt.trans hafp
  -- the turn is taken over, and its plan stays
  let db : Db := (Write.setOwner "s" "t" 2).apply (halfway cid afp)
  have howner : ((halfway cid afp).turn_owner ("s", "t")).elim 1 (· + 1) = 2 := rfl
  have hbegun : ∀ row, DTX.begun "s" "t" row db = db := fun row => if_pos rfl
  -- step 0 is found, step 1 is new
  obtain ⟨ex, hex, hfp, v, hv⟩ : ∃ ex, db.actions (action_id "s" "t" cid (.int 0)) = some ex ∧ ex.args_fp = afp ∧
      ∃ v, ex.value = .ok v := by
    let res : Json := .obj [(.str "order", .str "O"), (.str "amount", .int 5)]
    refine ⟨{ DTX.chargeRow "s" "t" (.int 0) afp 1 with result := some res.dumps }, ?_, rfl, some res.stringKeys, ?_⟩
    · simp [db, halfway, Contract.chargeWrites, Write.apply, DTX.chargeRow, res]
    · exact ActionRow.value_dumps rfl
  have hfound : (x.do_charge "s" "t" cid (.int 0) _ 2 false).run ⟨rest db, .empty, held'⟩ =
      some (ex.value.map fun v => (.dedup, v), ⟨rest db, .empty, held'⟩) :=
    DTX.run_do_charge_found x hafp' twice_taken.1 rfl hex hfp
  have hnone : db.actions (action_id "s" "t" cid (.int 1)) = none := by
    simp [db, halfway, Contract.chargeWrites, Write.apply, Table.update_of_ne _ hne, Function.update_of_ne hne,
      Db.empty]
  let ws := Contract.chargeWrites (action_id "s" "t" cid (.int 1)) (DTX.chargeRow "s" "t" (.int 1) afp 2) (.str "O")
    (.int 5)
  let db' : Db := ws.foldl (fun d w => w.apply d) db
  have hcharge : (x.do_charge "s" "t" cid (.int 1) _ 2 false).run ⟨rest db, .empty, held'⟩ =
      some (_, ⟨rest db', .empty, held'⟩) :=
    DTX.run_do_charge_new x hafp' twice_taken.2 rfl rfl twice_billable rfl hnone
  refine ⟨(Write.setCommitted "s" "t").apply db', held', ?_, rfl⟩
  have hsteps : (x.runSteps "s" "t" cid 2 none [respelt 0, respelt 1]).run ⟨rest db, .empty, held'⟩ =
      some (.ok [(.dedup, v), (.committed, some (.obj [(.str "order", .str "O"), (.str "amount", .int 5)]))],
        ⟨rest db', .empty, held'⟩) := by
    rw [hv] at hfound
    simp [DTX.runSteps, respelt_ordinal, respelt_args, hfound, hcharge, Except.map]
  simp [turnProcess, DTX.run_turn, DTX.turnEpoch, DTX.turnPlan, DTX.run_acquire, howner, DTX.run_begin_turn x hcid', x,
    db, hbegun, hsteps, DTX.run_commit_turn, held']

/-- **Two callers charge a plan of two steps**, and commit it. -/
theorem plan_is_source_of_truth_twice : ∃ c, (callers true onePlan).ReachableWhen
      (fun i st w => Agrees onePlan "s" "t" i st w.pub) (· = fresh) c ∧
    c.shared.server.db.charges.length = 2 ∧ Holds "s" "t" c.shared.server.db := by
  obtain ⟨cid, hcid⟩ : ∃ cid, commit_id_of (.arr twicePlan) = some cid := exists_commit_id rfl
  obtain ⟨afp, hafp⟩ : ∃ afp, args_fingerprint (.obj [(.str "order", .str "O"), (.str "amount", .int 5)]) =
      some afp := exists_args_fingerprint rfl
  have hids : (commit_id_of (.arr twicePlan)).map (action_id "s" "t" · (.int 1)) ≠
      (commit_id_of (.arr twicePlan)).map (action_id "s" "t" · (.int 0)) := by decide +kernel
  have hne : action_id "s" "t" cid (.int 1) ≠ action_id "s" "t" cid (.int 0) := by
    rw [hcid] at hids
    exact fun he => hids (congrArg some he)
  have hstart : (callers true onePlan).ReachableWhen (fun i st w => Agrees onePlan "s" "t" i st w.pub) (· = fresh)
      ⟨fresh, fun _ => .fresh⟩ := Lts.Reachable.start ⟨rfl, fun _ => rfl⟩
  -- the first caller finds no plan, the second one a plan of the same text
  have hfirst := run_stopped hcid hafp hne
  have hguard₁ : (turnProcess ⟨false, true, 0⟩ "s" "t" (some twicePlan) none (some 1)).Guarded
      (fun st w => Agrees onePlan "s" "t" false st w.pub) fresh := guarded_turnProcess _ rfl nofun
  have hstopped := (hstart.spawn (i := false) rfl).steps (Function.update_self ..) (.of_run hguard₁ hfirst)
  obtain ⟨db, held', hsecond, hcharges⟩ :=
    run_resumed (Function.update (fun _ => none) false (some 1)) hcid hafp hne
  have hguard₂ : (turnProcess ⟨true, true, 0⟩ "s" "t" (some [respelt 0, respelt 1]) none none).Guarded
      (fun st w => Agrees onePlan "s" "t" true st w.pub)
      ⟨rest (halfway cid afp), .empty, Function.update (fun _ => none) false (some 1)⟩ := by
    refine guarded_turnProcess _ rfl fun row hrow => ⟨twicePlan, ?_, canonical_respelt⟩
    cases hrow
    exact ⟨hcid, rfl⟩
  have hdone := (hstopped.spawn (i := true) rfl).steps (Function.update_self ..) (.of_run hguard₂ hsecond)
  refine ⟨_, hdone, ?_, plan_is_source_of_truth true onePlan "s" "t" fresh start_fresh _ hdone⟩
  show db.charges.length = 2
  rw [hcharges]
  rfl

/-! Each with a plan of its own. -/

def planStep (amount : Int) : Json :=
  .obj [(.str "ordinal", .int 0), (.str "args", .obj [(.str "order", .str "O"), (.str "amount", .int amount)])]

def twoPlans : Bool → Call
  | false => ⟨"s", "t", some [planStep 5], none, none⟩
  | true => ⟨"s", "t", some [planStep 7], none, none⟩

/-- The second caller charges an action that no step of the stored plan is. -/
theorem two_plans : Start "s" "t" fresh ∧ ∃ c, (callers true twoPlans).Reachable (· = fresh) c ∧
    ¬ Holds "s" "t" c.shared.server.db := by
  obtain ⟨cid₅, hcid₅⟩ : ∃ cid₅, commit_id_of (.arr [planStep 5]) = some cid₅ := exists_commit_id rfl
  obtain ⟨cid₇, hcid₇⟩ : ∃ cid₇, commit_id_of (.arr [planStep 7]) = some cid₇ := exists_commit_id rfl
  have hids : (commit_id_of (.arr [planStep 7])).map (action_id "s" "t" · (.int 0)) ≠
      (commit_id_of (.arr [planStep 5])).map (action_id "s" "t" · (.int 0)) := by decide +kernel
  have hafp : ∀ n, ∃ afp, args_fingerprint (.obj [(.str "order", .str "O"), (.str "amount", .int n)]) = some afp :=
    fun n => exists_args_fingerprint rfl
  have htaken : (Ordinal.int 0).taken = true := Ordinal.taken_int (by decide) (by decide)
  obtain ⟨afp₅, hafp₅⟩ := hafp 5
  obtain ⟨afp₇, hafp₇⟩ := hafp 7
  have hne : action_id "s" "t" cid₇ (.int 0) ≠ action_id "s" "t" cid₅ (.int 0) := by
    rw [hcid₅, hcid₇] at hids
    exact fun he => hids (congrArg some he)
  let db₅ : Db := DTX.oneCharge "s" "t" cid₅ [planStep 5] (.int 0) afp₅ (.str "O") (.int 5) Db.empty
  let db₇ : Db := DTX.oneCharge "s" "t" cid₇ [planStep 7] (.int 0) afp₇ (.str "O") (.int 7) db₅
  -- the first call, then the second
  have hrun₅ : ∃ held', (turnProcess ⟨false, true, 0⟩ "s" "t" (some [planStep 5]) none none).run fresh =
      some (.ok (), ⟨rest db₅, .empty, held'⟩) :=
    DTX.run_oneCharge _ hcid₅ rfl htaken rfl hafp₅ rfl rfl (billable_plain (by decide) (by decide) (by decide)) rfl
  obtain ⟨held₅, hrun₅⟩ := hrun₅
  have hnone : db₅.actions (action_id "s" "t" cid₇ (.int 0)) = none := by
    simp [db₅, DTX.oneCharge, Contract.chargeWrites, Write.apply, Table.update_of_ne _ hne,
      Function.update_of_ne hne, Db.empty]
  have hrun₇ : ∃ held', (turnProcess ⟨true, true, 0⟩ "s" "t" (some [planStep 7]) none none).run
      ⟨rest db₅, .empty, held₅⟩ = some (.ok (), ⟨rest db₇, .empty, held'⟩) :=
    DTX.run_oneCharge _ hcid₇ rfl htaken rfl hafp₇ rfl rfl (billable_plain (by decide) (by decide) (by decide)) hnone
  obtain ⟨held₇, hrun₇⟩ := hrun₇
  have hstart : (callers true twoPlans).Reachable (· = fresh) ⟨fresh, fun _ => .fresh⟩ :=
    Lts.Reachable.start ⟨rfl, fun _ => rfl⟩
  have hdone₅ := (hstart.spawn (i := false) rfl).run (Function.update_self ..) hrun₅
  have hdone₇ := (hdone₅.spawn (i := true) rfl).run (Function.update_self ..) hrun₇
  refine ⟨start_fresh, _, hdone₇, fun hholds => ?_⟩
  have hch : ⟨.str "O", .int 7, action_id "s" "t" cid₇ (.int 0)⟩ ∈ db₇.charges := by
    rw [DTX.oneCharge_charges]
    exact List.mem_append_right _ List.mem_cons_self
  have hturn : db₇.turns ("s", "t") = some ⟨cid₅, (Json.arr [planStep 5]).dumps, .committed⟩ := by
    rw [DTX.oneCharge_turns, DTX.oneCharge_turns]
    rfl
  obtain ⟨r, hr, hrest⟩ := hholds.charges _ hch
  obtain ⟨r', hr', hturn'⟩ : ∃ r', db₇.actions (action_id "s" "t" cid₇ (.int 0)) = some r' ∧
      (r'.session, r'.turn) = ("s", "t") := DTX.oneCharge_action
  cases hr'.symm.trans hr
  obtain ⟨row, hrow, step, hmem, o, ho, haid⟩ := hrest hturn'
  cases hturn.symm.trans hrow
  rw [planSteps_dumps] at hmem
  cases List.mem_singleton.mp hmem
  cases ho
  exact hne haid

end TwoCallers

end AgentTx.Dtx.SourceOfTruth
