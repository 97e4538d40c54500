import AgentTx.Dtx.Alone
import AgentTx.Dtx.Plan
import AgentTx.Lib.Prog.Serial
import AgentTx.Lib.Replay

/-!
# `Dtx.Transparent` — a turn that was interrupted ends as if it had not been

Attempts at one turn, one after the other, with the plan or without it; each may raise anywhere, or die.
What a turn leaves is a `Ledger`: the actions, but for who took them, and the charges. `play` is what a
step of the plan is for, on ledgers; playing it again changes nothing (`replay`), whatever has been played
since. An attempt only plays steps whose predecessors it found settled, so that playing the whole plan
always leads from where the ledger is to where it led at the start (`Stage.begun`). An attempt that
completes has settled all of it, and leaves what a run that nothing interrupts leaves.

Layout of the proof:
* **String keys** — a recovery reads its plan back from the text in `turns`. `chargeOf`, what a step asks for,
  is the same before and after, if the arguments have string keys.
* **Playing** — `play_again`, `play_extends` and `play_keeps` make a `Replay` of it (`Lib.Replay`): a step that
  is settled stays settled, and does nothing.
* **The contract** — `Stage`, with one lemma for each of the ways in which `run_turn` changes the ledger: a charge
  that is won (`charged_ok`), one that is found (`found_ok`), and the end (`committed_ok`).
* **The attempts** — `verified`: the contract holds at every step of every attempt.
* **A run alone** — `run_run_turn`: a plan that can be played is one that a run gets through.
* **The comparison** — both completed runs left the ledger in which the plan has been played from the start, and
  there is only one (`Completed.unique`).

Main results:
* `recovery_transparent` — the attempt that completes, compared with a run that nothing interrupts.
* `same_of_over` — once the turn is over, no attempt changes anything.
-/

namespace AgentTx.Dtx

/-- The row apart from `owner_epoch`. -/
def ActionRow.unowned (r : ActionRow) : ActionRow := { r with owner_epoch := 0 }

/-- What a turn leaves. -/
@[ext] structure Ledger where
  actions : Table String ActionRow
  charges : List ChargeRow

/-- The actions, whoever took them, and the charges. -/
def Db.ledger (d : Db) : Ledger := ⟨fun aid => (d.actions aid).map ActionRow.unowned, d.charges⟩

namespace Ledger

variable {l l' l'' : Ledger} {aid aid' : String} {row : ActionRow} {order amount : Json}

/-- A charge: the row of its action, with its result, and its own. -/
def charged (l : Ledger) (aid : String) (row : ActionRow) (order amount : Json) : Ledger where
  actions := Function.update l.actions aid (some { row with
    result := some (Json.obj [(.str "order", order), (.str "amount", amount)]).dumps })
  charges := l.charges ++ [⟨order, amount, aid⟩]

theorem charged_self : (l.charged aid row order amount).actions aid = some { row with
    result := some (Json.obj [(.str "order", order), (.str "amount", amount)]).dumps } :=
  Function.update_self ..

theorem charged_of_ne (h : aid' ≠ aid) : (l.charged aid row order amount).actions aid' = l.actions aid' :=
  Function.update_of_ne h _ _

/-- No action is lost. -/
def Extends (l l' : Ledger) : Prop := ∀ aid r, l.actions aid = some r → l'.actions aid = some r

theorem Extends.refl (l : Ledger) : l.Extends l := fun _ _ h => h

theorem Extends.trans (h : l.Extends l') (h' : l'.Extends l'') : l.Extends l'' :=
  fun aid r hr => h' aid r (h aid r hr)

theorem extends_charged (hnone : l.actions aid = none) : l.Extends (l.charged aid row order amount) := by
  intro aid' r hr
  have hne : aid' ≠ aid := by
    rintro rfl
    rw [hnone] at hr
    cases hr
  rwa [charged_of_ne hne]

end Ledger

/-- The writes of a charge, as the ledger sees them. -/
theorem ledger_charged {ι : Type} {p : Public ι} {aid : String} {row : ActionRow} {order amount : Json} :
    (p.commit (Contract.chargeWrites aid row order amount)).db.ledger =
      p.db.ledger.charged aid row.unowned order amount := by
  apply Ledger.ext
  · funext aid'
    show Option.map _ ((p.commit (Contract.chargeWrites aid row order amount)).db.actions aid') = _
    by_cases haid : aid' = aid
    · subst haid
      rw [Contract.charged_action_self, Ledger.charged_self]
      rfl
    · rw [Contract.charged_action_of_ne haid, Ledger.charged_of_ne haid]
      rfl
  · rfl

theorem ledger_none {d : Db} {aid : String} : d.ledger.actions aid = none ↔ d.actions aid = none :=
  Option.map_eq_none_iff

theorem ledger_some {d : Db} {aid : String} {r : ActionRow} (h : d.actions aid = some r) :
    d.ledger.actions aid = some r.unowned := by
  show (d.actions aid).map _ = _
  rw [h, Option.map_some]

theorem of_ledger_some {d : Db} {aid : String} {r : ActionRow} (h : d.ledger.actions aid = some r) :
    ∃ r', d.actions aid = some r' ∧ r'.unowned = r :=
  Option.map_eq_some_iff.mp h

namespace Transparent

/-- `step["ordinal"]` and `step["args"]`. -/
def chargeOf (step : Json) : Except Exn (Ordinal × Json) := do
  let o ← ordinalOf step
  let args ← subscript step "args"
  pure (o, args)

theorem chargeOf_ok {step args : Json} {o : Ordinal} (ho : ordinalOf step = .ok o)
    (hargs : subscript step "args" = .ok args) : chargeOf step = .ok (o, args) := by
  unfold chargeOf
  rw [ho, hargs]
  rfl

theorem args_of_chargeOf {step args : Json} {o : Ordinal} (h : chargeOf step = .ok (o, args)) :
    subscript step "args" = .ok args := by
  unfold chargeOf at h
  cases ho : ordinalOf step with
  | error e =>
    rw [ho] at h
    cases h
  | ok o' =>
    cases hargs : subscript step "args" with
    | error e =>
      rw [ho, hargs] at h
      cases h
    | ok args' =>
      rw [ho, hargs] at h
      cases h
      rfl

theorem ordinal_of_chargeOf {step args : Json} {o : Ordinal} (h : chargeOf step = .ok (o, args)) :
    ordinalOf step = .ok o := by
  cases ho : ordinalOf step with
  | error e =>
    unfold chargeOf at h
    rw [ho] at h
    cases h
  | ok o' =>
    cases h.symm.trans (chargeOf_ok ho (args_of_chargeOf h))
    rfl

/-! ## Arguments with string keys -/

theorem not_numeric_args : ¬ Json.Numeric "args" := by
  have htext : "args".toList = 'a' :: "rgs".toList := rfl
  exact Json.not_numeric htext (by decide)

theorem not_numeric_order : ¬ Json.Numeric "order" := by
  have htext : "order".toList = 'o' :: "rder".toList := rfl
  exact Json.not_numeric htext (by decide)

theorem not_numeric_amount : ¬ Json.Numeric "amount" := by
  have htext : "amount".toList = 'a' :: "mount".toList := rfl
  exact Json.not_numeric htext (by decide)

theorem subscript_ok {v x : Json} {k : String} (h : subscript v k = .ok x) : v.get? k = some x := by
  cases v with
  | obj ms =>
    unfold subscript at h
    cases hget : (Json.obj ms).get? k with
    | none =>
      rw [hget] at h
      cases h
    | some y =>
      rw [hget] at h
      cases h
      rfl
  | _ => cases h

/-- A step as it comes back from the database is the same charge. -/
theorem chargeOf_stringKeys {step : Json}
    (hkeys : ∀ args, subscript step "args" = .ok args → args.StringKeyed) :
    chargeOf step.stringKeys = chargeOf step := by
  have hargs : subscript step.stringKeys "args" = subscript step "args" := by
    cases step with
    | obj ms =>
      have hget : (Json.obj ms).stringKeys.get? "args" = ((Json.obj ms).get? "args").map Json.stringKeys :=
        Json.get?_stringKeys not_numeric_args (.obj ms)
      show Option.elim _ _ _ = subscript (.obj ms) "args"
      rw [hget]
      cases hx : (Json.obj ms).get? "args" with
      | none => simp [subscript, hx]
      | some x =>
        have hsub : subscript (.obj ms) "args" = .ok x := by simp [subscript, hx]
        have hkeyed : x.stringKeys = x := hkeys x hsub
        rw [hsub, Option.map_some, hkeyed]
        rfl
    | arr items => rfl
    | null | bool b | int n | str s => rfl
  unfold chargeOf
  rw [ordinalOf_stringKeys, hargs]

theorem map_chargeOf_stringKeys {plan : List Json}
    (hkeys : ∀ step ∈ plan, ∀ args, subscript step "args" = .ok args → args.StringKeyed) :
    (Json.stringKeysItems plan).map chargeOf = plan.map chargeOf := by
  induction plan with
  | nil => rfl
  | cons step plan ih =>
    rw [Json.stringKeysItems, List.map_cons, List.map_cons, chargeOf_stringKeys (hkeys step List.mem_cons_self),
      ih fun x hx => hkeys x (List.mem_cons_of_mem _ hx)]

/-! ## What a step is for

`play` is not `do_charge`: it is what is left of one that completed, when the epoch, the locks and the transaction are
forgotten. It says nothing of a step that raises, which is why it is partial. -/

section Play

variable [Driver] (s t cid : String)

/-- A step of the plan that is done on a ledger: a new charge, or one that is found done. `none` is a step
    that cannot be done. -/
def play (l : Ledger) (step : Json) : Option Ledger :=
  match chargeOf step with
  | .error _ => none
  | .ok (o, args) =>
      (args_fingerprint args).bind fun afp =>
        if o.taken then
          match l.actions (action_id s t cid o) with
          | some ex => if ex.args_fp = afp ∧ ex.value.isOk then some l else none
          | none =>
              match subscript args "order", subscript args "amount" with
              | .ok order, .ok amount =>
                  if billable order amount then
                    some (l.charged (action_id s t cid o) (DTX.chargeRow s t o afp 0) order amount)
                  else none
              | _, _ => none
        else none

/-- What the step returned, as its action's row says. -/
def valueOf (l : Ledger) (step : Json) : Option (Option Json) :=
  match chargeOf step with
  | .error _ => none
  | .ok (o, _) => (l.actions (action_id s t cid o)).bind fun ex => ex.value.toOption

variable {s t cid} {l l' : Ledger} {step args order amount : Json} {o : Ordinal} {afp : String}

theorem play_found {ex : ActionRow} {v : Option Json} (hch : chargeOf step = .ok (o, args))
    (hafp : args_fingerprint args = some afp) (ho : o.taken = true)
    (hex : l.actions (action_id s t cid o) = some ex) (hfp : ex.args_fp = afp) (hv : ex.value = .ok v) :
    play s t cid l step = some l := by
  simp [play, hch, hafp, ho, hex, hfp, hv, Except.isOk, Except.toBool]

theorem play_new (hch : chargeOf step = .ok (o, args)) (hafp : args_fingerprint args = some afp)
    (ho : o.taken = true) (hnone : l.actions (action_id s t cid o) = none)
    (horder : subscript args "order" = .ok order) (hamount : subscript args "amount" = .ok amount)
    (hbill : billable order amount = true) :
    play s t cid l step =
      some (l.charged (action_id s t cid o) (DTX.chargeRow s t o afp 0) order amount) := by
  simp [play, hch, hafp, ho, hnone, horder, hamount, hbill]

/-- **Inversion.** How a step is done. -/
theorem play_cases (h : play s t cid l step = some l') :
    ∃ o args afp, chargeOf step = .ok (o, args) ∧ args_fingerprint args = some afp ∧ o.taken = true ∧
      ((∃ ex v, l.actions (action_id s t cid o) = some ex ∧ ex.args_fp = afp ∧ ex.value = .ok v ∧ l' = l) ∨
        (l.actions (action_id s t cid o) = none ∧ ∃ order amount, subscript args "order" = .ok order ∧
          subscript args "amount" = .ok amount ∧ billable order amount = true ∧
          l' = l.charged (action_id s t cid o) (DTX.chargeRow s t o afp 0) order amount)) := by
  unfold play at h
  cases hch : chargeOf step with
  | error e =>
    rw [hch] at h
    cases h
  | ok ch =>
    obtain ⟨o, args⟩ := ch
    rw [hch] at h
    obtain ⟨afp, hafp, h⟩ := Option.bind_eq_some_iff.mp h
    obtain ⟨ho, h⟩ := Option.ite_none_right_eq_some.mp h
    refine ⟨o, args, afp, rfl, hafp, ho, ?_⟩
    cases hrow : l.actions (action_id s t cid o) with
    -- the action is there: it is answered, unless its fingerprint differs or its value is unreadable
    | some ex =>
      simp only [hrow] at h
      split_ifs at h with hex
      obtain ⟨hfp, hok⟩ := hex
      cases hv : ex.value with
      | error e =>
        rw [hv] at hok
        cases hok
      | ok v => exact Or.inl ⟨ex, v, rfl, hfp, hv, (Option.some.inj h).symm⟩
    | none =>
      simp only [hrow] at h
      cases horder : subscript args "order" with
      | error e => simp [horder] at h
      | ok order =>
        cases hamount : subscript args "amount" with
        | error e => simp [horder, hamount] at h
        | ok amount =>
          simp only [horder, hamount] at h
          obtain ⟨hbill, h⟩ := Option.ite_none_right_eq_some.mp h
          exact Or.inr ⟨rfl, order, amount, rfl, rfl, hbill, (Option.some.inj h).symm⟩

/-- What is done is found done. -/
theorem play_again (h : play s t cid l step = some l') : play s t cid l' step = some l' := by
  obtain ⟨o, args, afp, hch, hafp, ho, ⟨ex, v, hex, hfp, hv, rfl⟩ | ⟨hnone, order, amount, -, -, -, rfl⟩⟩ :=
    play_cases h
  · exact h
  · exact play_found hch hafp ho Ledger.charged_self rfl (ActionRow.value_dumps rfl)

theorem play_extends (h : play s t cid l step = some l') : l.Extends l' := by
  obtain ⟨o, args, afp, -, -, -, ⟨ex, v, -, -, -, rfl⟩ | ⟨hnone, order, amount, -, -, -, rfl⟩⟩ := play_cases h
  · exact .refl _
  · exact Ledger.extends_charged hnone

/-- A step that is found done has its action. -/
theorem action_of_settled (h : play s t cid l step = some l) :
    ∃ o args afp, chargeOf step = .ok (o, args) ∧ args_fingerprint args = some afp ∧ o.taken = true ∧
      ∃ ex v, l.actions (action_id s t cid o) = some ex ∧ ex.args_fp = afp ∧ ex.value = .ok v := by
  obtain ⟨o, args, afp, hch, hafp, ho, ⟨ex, v, hex, hfp, hv, -⟩ | ⟨hnone, order, amount, -, -, -, hl⟩⟩ :=
    play_cases h
  · exact ⟨o, args, afp, hch, hafp, ho, ex, v, hex, hfp, hv⟩
  · -- a new charge would have changed the ledger
    rw [hl] at hnone
    cases Ledger.charged_self.symm.trans hnone

theorem play_keeps (hl : l.Extends l') (h : play s t cid l step = some l) :
    play s t cid l' step = some l' := by
  obtain ⟨o, args, afp, hch, hafp, ho, ex, v, hex, hfp, hv⟩ := action_of_settled h
  exact play_found hch hafp ho (hl _ _ hex) hfp hv

omit [Driver] in
theorem valueOf_found {ex : ActionRow} {v : Option Json} (hch : chargeOf step = .ok (o, args))
    (hex : l.actions (action_id s t cid o) = some ex) (hv : ex.value = .ok v) :
    valueOf s t cid l step = some v := by
  simp [valueOf, hch, hex, hv, Except.toOption]

/-- What a settled step returned stays what it was. -/
theorem valueOf_keeps (hl : l.Extends l') (h : play s t cid l step = some l) :
    valueOf s t cid l' step = valueOf s t cid l step := by
  obtain ⟨o, args, afp, hch, hafp, -, ex, v, hex, hfp, hv⟩ := action_of_settled h
  rw [valueOf_found hch hex hv, valueOf_found hch (hl _ _ hex) hv]

/-- Only the charge counts. -/
theorem play_congr {step' : Json} (h : chargeOf step = chargeOf step') :
    play s t cid l step = play s t cid l step' := by
  unfold play
  rw [h]

omit [Driver] in
theorem valueOf_congr {step' : Json} (h : chargeOf step = chargeOf step') :
    valueOf s t cid l step = valueOf s t cid l step' := by
  unfold valueOf
  rw [h]

variable (s t cid)

/-- The steps of a plan may be played again. -/
def replay : Replay Ledger Json where
  step := play s t cid
  Extends := Ledger.Extends
  refl := Ledger.Extends.refl
  trans := Ledger.Extends.trans
  step_extends := play_extends
  again := play_again
  keeps := play_keeps

end Play

/-! ## The contract

The invariant cannot say which steps have been played, since an attempt may be stopped between any two. It says instead
that what remains to be played leads to the same ledger as the whole plan did, and this is stable: a step that was
settled does nothing when it is played again. -/

/-- Where the turn stands: it has not begun, or some of its plan has been played, or all of it. -/
inductive Stage [Driver] (s t : String) (plan : List Json) (db₀ d : Db) : Prop where
  | fresh (turns : d.turns = db₀.turns) (ledger : d.ledger = db₀.ledger)
  | begun (cid : String) (hcid : commit_id_of (.arr plan) = some cid)
      (turns : d.turns = Function.update db₀.turns (s, t) (some ⟨cid, (Json.arr plan).dumps, .open⟩))
      (ledger : (replay s t cid).run d.ledger plan = (replay s t cid).run db₀.ledger plan)
  | done (cid : String) (hcid : commit_id_of (.arr plan) = some cid)
      (turns : d.turns = Function.update db₀.turns (s, t) (some ⟨cid, (Json.arr plan).dumps, .committed⟩))
      (ledger : (replay s t cid).run db₀.ledger plan = some d.ledger)

/-- The turn is over. -/
def Over (s t : String) (d : Db) : Prop := ∃ r, d.turns (s, t) = some r ∧ r.state = .committed

/-- Nothing that a turn leaves has changed, not even who took the actions. -/
structure Same (d d' : Db) : Prop where
  turns : d'.turns = d.turns
  actions : d'.actions = d.actions
  charges : d'.charges = d.charges

theorem Same.refl (d : Db) : Same d d := ⟨rfl, rfl, rfl⟩

theorem Same.trans {d d' d'' : Db} (h : Same d d') (h' : Same d' d'') : Same d d'' :=
  ⟨h'.turns.trans h.turns, h'.actions.trans h.actions, h'.charges.trans h.charges⟩

theorem Same.ledger {d d' : Db} (h : Same d d') : d'.ledger = d.ledger := by
  unfold Db.ledger
  rw [h.actions, h.charges]

def contract [Driver] (s t : String) (plan : List Json) (db₀ : Db) : Contract Unit where
  inv p := Stage s t plan db₀ p.db
  may _ p p' := Over s t p.db → Same p.db p'.db
  may_refl _ p _ := .refl p.db

namespace Contract

variable [Driver] {s t cid : String} {plan : List Json} {db₀ : Db} {p p' : Public Unit}

omit [Driver] in
/-- Nobody else is there. -/
theorem keeps {C : Contract Unit} {ls : List Lock} {F : Public Unit → Prop} : C.Keeps () ls F :=
  fun _ _ _ hj => absurd rfl hj

/-- Before the steps `items` of the plan, those before them are settled, and `rs` is what they returned. -/
structure Underway (s t : String) (plan : List Json) (cid : String) (items : List Json)
    (rs : List (Tag × Option Json)) (p : Public Unit) : Prop where
  hcid : commit_id_of (.arr plan) = some cid
  begun : (p.db.turns (s, t)).isSome
  steps : ∃ done rest, plan = done ++ rest ∧ items.map chargeOf = rest.map chargeOf ∧
    (∀ step ∈ done, (replay s t cid).Settled p.db.ledger step) ∧
    done.map (valueOf s t cid p.db.ledger) = rs.map fun r => some r.2

theorem Underway.start (hcid : commit_id_of (.arr plan) = some cid) (hbegun : (p.db.turns (s, t)).isSome)
    {items : List Json} (hitems : items.map chargeOf = plan.map chargeOf) :
    Underway s t plan cid items [] p :=
  ⟨hcid, hbegun, [], plan, rfl, hitems, by simp, rfl⟩

/-- A step is settled, and has returned `v`. -/
theorem Underway.next {item : Json} {items : List Json} {rs : List (Tag × Option Json)} {tag : Tag}
    {v : Option Json} (h : Underway s t plan cid (item :: items) rs p)
    (hturns : p'.db.turns = p.db.turns) (hext : p.db.ledger.Extends p'.db.ledger)
    (hplay : play s t cid p'.db.ledger item = some p'.db.ledger)
    (hvalue : valueOf s t cid p'.db.ledger item = some v) :
    Underway s t plan cid items (rs ++ [(tag, v)]) p' := by
  obtain ⟨done, rest, hplan, hitems, hdone, hvalues⟩ := h.steps
  cases rest with
  | nil => simp at hitems
  | cons step rest =>
    obtain ⟨hstep, hrest⟩ := List.cons.inj hitems
    refine ⟨h.hcid, hturns ▸ h.begun, done ++ [step], rest, ?_, hrest, ?_, ?_⟩
    · rw [hplan, List.append_assoc]
      rfl
    · intro b hb
      rcases List.mem_append.mp hb with hb | hb
      · exact (hdone b hb).mono hext
      · cases List.mem_singleton.mp hb
        exact (play_congr hstep).symm.trans hplay
    · have hold : done.map (valueOf s t cid p'.db.ledger) = done.map (valueOf s t cid p.db.ledger) :=
        List.map_congr_left fun b hb => valueOf_keeps hext (hdone b hb)
      simp [hold, hvalues, ← valueOf_congr hstep, hvalue]

/-- What is stored of the turn is the plan. -/
theorem row_of_stage (hfresh : db₀.turns (s, t) = none) {r : TurnRow} (hp : Stage s t plan db₀ p.db)
    (hr : p.db.turns (s, t) = some r) :
    commit_id_of (.arr plan) = some r.commit_id ∧ r.plan = (Json.arr plan).dumps := by
  cases hp with
  | fresh turns ledger =>
    rw [turns, hfresh] at hr
    cases hr
  | begun cid hcid turns ledger | done cid hcid turns ledger =>
    rw [turns, Function.update_self] at hr
    cases hr
    exact ⟨hcid, rfl⟩

/-- While an action of the plan is unclaimed, the turn is under way. -/
theorem begun_of_unclaimed (hfresh : db₀.turns (s, t) = none) {item args : Json} {items : List Json}
    {rs : List (Tag × Option Json)} {o : Ordinal} (hp : Stage s t plan db₀ p.db)
    (h : Underway s t plan cid (item :: items) rs p) (hch : chargeOf item = .ok (o, args))
    (hnone : p.db.actions (action_id s t cid o) = none) :
    p.db.turns = Function.update db₀.turns (s, t) (some ⟨cid, (Json.arr plan).dumps, .open⟩) ∧
      (replay s t cid).run p.db.ledger plan = (replay s t cid).run db₀.ledger plan := by
  cases hp with
  | fresh turns ledger =>
    have hbegun := h.begun
    rw [turns, hfresh] at hbegun
    cases hbegun
  | begun cid' hcid turns ledger =>
    cases h.hcid.symm.trans hcid
    exact ⟨turns, ledger⟩
  | done cid' hcid turns ledger =>
    -- the whole plan has been played: this step has its action
    cases h.hcid.symm.trans hcid
    obtain ⟨done, rest, hplan, hitems, -⟩ := h.steps
    cases rest with
    | nil => simp at hitems
    | cons step rest =>
      have hmem : step ∈ plan := by simp [hplan]
      obtain ⟨o', args', -, hch', -, -, ex, -, hex, -⟩ :=
        action_of_settled (Replay.settled_run ledger step hmem)
      cases hch.symm.trans ((List.cons.inj hitems).1.trans hch')
      rw [ledger_none.mpr hnone] at hex
      cases hex

/-- A charge whose claim is won. -/
theorem charged_ok (hfresh : db₀.turns (s, t) = none)
    (hkeys : ∀ step ∈ plan, ∀ args, subscript step "args" = .ok args → args.StringKeyed)
    {item args order amount : Json} {items : List Json} {rs : List (Tag × Option Json)} {o : Ordinal} {afp : String}
    {ep : Nat} (hp : Stage s t plan db₀ p.db) (h : Underway s t plan cid (item :: items) rs p)
    (hch : chargeOf item = .ok (o, args)) (hafp : args_fingerprint args = some afp)
    (horder : subscript args "order" = .ok order) (hamount : subscript args "amount" = .ok amount)
    (htaken : o.taken = true ∧ billable order amount = true) (hnone : p.db.actions (action_id s t cid o) = none) :
    let p' := p.commit
      (Contract.chargeWrites (action_id s t cid o) (DTX.chargeRow s t o afp ep) order amount)
    Stage s t plan db₀ p'.db ∧ (Over s t p.db → Same p.db p'.db) ∧
      Underway s t plan cid items
        (rs ++ [(.committed, some (.obj [(.str "order", order), (.str "amount", amount)]))]) p' := by
  intro p'
  have hledger : p'.db.ledger =
      p.db.ledger.charged (action_id s t cid o) (DTX.chargeRow s t o afp 0) order amount := ledger_charged
  have hplay : play s t cid p.db.ledger item = some p'.db.ledger := by
    rw [hledger]
    exact play_new hch hafp htaken.1 (ledger_none.mpr hnone) horder hamount htaken.2
  -- an action of an open plan is unclaimed, so the turn is begun and not over
  obtain ⟨turns, ledger⟩ := begun_of_unclaimed hfresh hp h hch hnone
  obtain ⟨done, rest, hplan, hitems, hdone, -⟩ := h.steps
  cases rest with
  | nil => simp at hitems
  | cons step rest =>
    obtain ⟨hstep, hrest⟩ := List.cons.inj hitems
    refine ⟨?_, ?_, h.next rfl (play_extends hplay) (play_again hplay) ?_⟩
    · -- the replay goes one step further, over what it has done already
      refine .begun cid h.hcid turns ?_
      rw [← ledger, hplan]
      exact Replay.run_resume hdone ((play_congr hstep).symm.trans hplay)
    · rintro ⟨r, hr, hover⟩
      rw [turns, Function.update_self] at hr
      cases hr
      cases hover
    · -- what the action's row says is what is returned now
      have hkeyed : args.StringKeyed :=
        hkeys step (by simp [hplan]) args (args_of_chargeOf (hstep.symm.trans hch))
      have horder' : order.stringKeys = order := hkeyed.get? not_numeric_order (subscript_ok horder)
      have hamount' : amount.stringKeys = amount := hkeyed.get? not_numeric_amount (subscript_ok hamount)
      rw [hledger]
      refine valueOf_found hch Ledger.charged_self ((ActionRow.value_dumps rfl).trans ?_)
      simp [Json.stringKeys, Json.stringKeysMembers, Json.stringKeysMember, Json.Key.text, horder', hamount']

/-- An action that is found done. -/
theorem found_ok {item args : Json} {items : List Json} {rs : List (Tag × Option Json)} {o : Ordinal} {afp : String}
    {ex : ActionRow} {v : Option Json} (h : Underway s t plan cid (item :: items) rs p)
    (hch : chargeOf item = .ok (o, args)) (hafp : args_fingerprint args = some afp) (ho : o.taken = true)
    (hex : p.db.actions (action_id s t cid o) = some ex) (hfp : ex.args_fp = afp) (hv : ex.value = .ok v) :
    Underway s t plan cid items (rs ++ [(.dedup, v)]) p := by
  have hex' : p.db.ledger.actions (action_id s t cid o) = some ex.unowned := ledger_some hex
  exact h.next rfl (.refl _) (play_found hch hafp ho hex' hfp hv) (valueOf_found hch hex' hv)

/-- What an attempt leaves that completes with `rs`. -/
def Completed (s t : String) (plan : List Json) (db₀ : Db) (rs : List (Tag × Option Json)) (p : Public Unit) :
    Prop :=
  ∃ cid, commit_id_of (.arr plan) = some cid ∧
    p.db.turns = Function.update db₀.turns (s, t) (some ⟨cid, (Json.arr plan).dumps, .committed⟩) ∧
    (replay s t cid).run db₀.ledger plan = some p.db.ledger ∧
    plan.map (valueOf s t cid p.db.ledger) = rs.map fun r => some r.2

/-- The end of an attempt: the whole plan is settled. -/
theorem committed_ok (hfresh : db₀.turns (s, t) = none) {rs : List (Tag × Option Json)}
    (hp : Stage s t plan db₀ p.db) (h : Underway s t plan cid [] rs p) :
    let p' := p.commit [.setCommitted s t]
    Stage s t plan db₀ p'.db ∧ (Over s t p.db → Same p.db p'.db) ∧ Completed s t plan db₀ rs p' := by
  intro p'
  obtain ⟨done, rest, hplan, hitems, hdone, hvalues⟩ := h.steps
  have hrest : rest = [] := by
    cases rest with
    | nil => rfl
    | cons step rest => simp at hitems
  rw [hrest, List.append_nil] at hplan
  subst hplan
  have hturns : ∀ st, p.db.turns = Function.update db₀.turns (s, t) (some ⟨cid, (Json.arr plan).dumps, st⟩) →
      p'.db.turns = Function.update db₀.turns (s, t) (some ⟨cid, (Json.arr plan).dumps, .committed⟩) := by
    intro st hst
    show p.db.turns.update (s, t) _ = _
    rw [hst, Table.update, Function.update_self, Function.update_idem]
    rfl
  -- a second commit of the turn leaves the row as it is
  cases hp with
  | fresh turns ledger =>
    have hbegun := h.begun
    rw [turns, hfresh] at hbegun
    cases hbegun
  | begun cid' hcid turns ledger =>
    cases h.hcid.symm.trans hcid
    have hrun : (replay s t cid).run db₀.ledger plan = some p.db.ledger := by
      rw [← ledger]
      exact Replay.run_settled hdone
    refine ⟨.done cid hcid (hturns _ turns) hrun, ?_, cid, hcid, hturns _ turns, hrun, hvalues⟩
    rintro ⟨r, hr, hover⟩
    rw [turns, Function.update_self] at hr
    cases hr
    cases hover
  | done cid' hcid turns ledger =>
    cases h.hcid.symm.trans hcid
    refine ⟨.done cid hcid (hturns _ turns) ledger, ?_, cid, hcid, hturns _ turns, ledger, hvalues⟩
    exact fun _ => ⟨(hturns _ turns).trans turns.symm, rfl, rfl⟩

end Contract

/-! ## The attempts

The plan is given to the first attempt or not at all; one that recovers takes what is stored, and `row_of_stage` says
that it is the plan. -/

/-- An attempt at the turn: with the plan, or in recovery without it. -/
structure Attempt where
  recover : Bool
  epoch : Option Nat
  crash_at : Option Int

/-- Calls of `run_turn` for one turn, one after the other. One that dies loses its connection, and the
    server rolls back. -/
def attempts [Driver] (pg : Bool) (s t : String) (plan : List Json) :
    Serial Attempt Stmt (World Unit) Exn (List (Tag × Option Json)) where
  main k := DTX.run_turn ⟨(), pg, 0⟩ s t (if k.recover then none else some plan) k.epoch k.crash_at
  start _ w := w
  close w := { w with server := w.server.rollback () }

section Programs

variable [Driver] {pg : Bool} {s t : String} {plan : List Json} {db₀ : Db}

/-- No transaction is open. -/
def Idle (pg : Bool) : World Unit → Prop := Contract.At pg () [] [] fun _ => True

theorem begin_turn_spec :
    ((contract s t plan db₀).rules pg).Triple () (Idle pg) (DTX.begin_turn ⟨(), pg, 0⟩ s t plan)
      (fun cid => Contract.At pg () [] [] (Contract.Underway s t plan cid plan [])) fun _ _ => True := by
  refine (Contract.begin_turn (c := ⟨(), pg, 0⟩) Contract.keeps (fun cid => Contract.keeps) ?_ ?_).conseq
    (fun _ _ h => h) (fun _ _ _ h => h) fun _ _ _ _ => trivial
  · intro p cid hp _ hcid hnone
    have hself : (p.commit [.insertTurn s t ⟨cid, (Json.arr plan).dumps, .open⟩]).db.turns (s, t) =
        some ⟨cid, (Json.arr plan).dumps, .open⟩ := Function.update_self ..
    refine ⟨?_, ?_, .start hcid (by rw [hself]; rfl) rfl⟩
    · cases hp with
      | fresh turns ledger =>
        refine .begun cid hcid ?_ ?_
        · show Function.update p.db.turns (s, t) _ = _
          rw [turns]
        · show (replay s t cid).run p.db.ledger plan = _
          rw [ledger]
      | begun cid' hcid' turns ledger | done cid' hcid' turns ledger =>
        rw [turns, Function.update_self] at hnone
        cases hnone
    · rintro ⟨r, hr, -⟩
      rw [hnone] at hr
      cases hr
  · intro p cid r _ _ _ hcid hr
    exact .start hcid (by rw [hr]; rfl) rfl

theorem acquire_spec (epoch : Option Nat) :
    ((contract s t plan db₀).rules pg).Triple () (Idle pg) (DTX.turnEpoch ⟨(), pg, 0⟩ s t epoch)
      (fun _ => Idle pg) fun _ _ => True := by
  cases epoch with
  | none =>
    refine Contract.acquire (c := ⟨(), pg, 0⟩) Contract.keeps fun p ep hp _ _ => ⟨?_, ?_, trivial⟩
    · cases hp with
      | fresh turns ledger => exact .fresh turns ledger
      | begun cid hcid turns ledger => exact .begun cid hcid turns ledger
      | done cid hcid turns ledger => exact .done cid hcid turns ledger
    · exact fun _ => ⟨rfl, rfl, rfl⟩
  | some ep => exact fun _ _ hat => hat

theorem run_turn_spec (pg : Bool) (hfresh : db₀.turns (s, t) = none)
    (hkeys : ∀ step ∈ plan, ∀ args, subscript step "args" = .ok args → args.StringKeyed)
    (recover : Bool) (epoch : Option Nat) (crash_at : Option Int) :
    ((contract s t plan db₀).rules pg).Triple () (Idle pg)
      (DTX.run_turn ⟨(), pg, 0⟩ s t (if recover then none else some plan) epoch crash_at)
      (fun rs => Contract.At pg () [] [] (Contract.Completed s t plan db₀ rs)) fun _ _ => True := by
  refine Contract.run_turn (c := ⟨(), pg, 0⟩) (A := fun _ _ => True)
    (F := fun cid _ => Contract.Underway s t plan cid) (acquire_spec epoch) (fun _ => Contract.keeps)
    (fun _ _ _ _ => Contract.keeps) (fun _ => Contract.keeps) ?_ ?_ ?_ ?_ ?_
  · intro ep items hitems
    cases recover with
    | true => cases hitems
    | false =>
      cases hitems
      exact begin_turn_spec
  · -- a plan that is loaded is the text of this one
    intro ep p r plan' items hp _ hr hplan hitems
    obtain ⟨hcid, htext⟩ := Contract.row_of_stage hfresh hp hr
    rw [htext, json_loads, Json.loads_dumps] at hplan
    cases hplan
    cases hitems
    exact .start hcid (by rw [hr]; rfl) (map_chargeOf_stringKeys hkeys)
  · intro cid ep step steps rs o args ho hargs
    have hch : chargeOf step = .ok (o, args) := chargeOf_ok ho hargs
    constructor
    · intro p afp order amount hp hf hafp horder hamount htaken _ hnone
      exact Contract.charged_ok hfresh hkeys hp hf hch hafp horder hamount htaken hnone
    · intro p afp ex v hp hf hafp ho hex hfp hv
      exact Contract.found_ok hf hch hafp ho hex hfp hv
  · intro cid ep rs p hp hf
    exact Contract.committed_ok hfresh hp hf
  · -- the row of a turn that was begun does not go away
    intro cid ep rs p _ hf hnone
    have hbegun := hf.begun
    rw [hnone] at hbegun
    cases hbegun

/-- **Every attempt keeps the contract.** -/
theorem verified (pg : Bool) (hfresh : db₀.turns (s, t) = none)
    (hkeys : ∀ step ∈ plan, ∀ args, subscript step "args" = .ok args → args.StringKeyed) :
    Serial.Verified (attempts pg s t plan) ((contract s t plan db₀).rules pg) (Idle pg) (fun _ => Idle pg)
      fun rs => Contract.At pg () [] [] (Contract.Completed s t plan db₀ rs) where
  main k := run_turn_spec pg hfresh hkeys k.recover k.epoch k.crash_at
  start _ _ hw hidle := ⟨hw, hidle⟩
  close w hw := by
    refine ⟨⟨TxServer.release_covered hw.1, hw.2⟩, ?_⟩
    exact ⟨TxServer.release_idle.pending, fun l hl => absurd hl List.not_mem_nil, trivial⟩

end Programs

/-! ## A run that nothing interrupts

The other direction: from a plan that can be played to a run of the code that completes. It is needed for the existence
of the run that the attempts are compared with. -/

section Alone

variable [Driver] {pg : Bool} {s t cid : String} {plan : List Json} {fs : FileSys} {held : Unit → Option Nat}

/-- What can be played is what a run gets through. -/
theorem run_runSteps {ep : Nat} {steps : List Json} {db : Db} {l : Ledger}
    (howner : db.turn_owner (s, t) = some ep) (hplay : (replay s t cid).run db.ledger steps = some l) :
    ∃ rs db', (DTX.runSteps ⟨(), pg, 0⟩ s t cid ep none steps).run ⟨rest db, fs, held⟩ =
      some (.ok rs, ⟨rest db', fs, held⟩) := by
  induction steps generalizing db with
  | nil => exact ⟨[], db, rfl⟩
  | cons step steps ih =>
    obtain ⟨l₁, hstep, hrest⟩ := Option.bind_eq_some_iff.mp hplay
    obtain ⟨o, args, afp, hch, hafp, htaken, hcase⟩ := play_cases hstep
    have ho : (subscript step "ordinal" >>= asOrdinal) = .ok o := ordinal_of_chargeOf hch
    have hargs := args_of_chargeOf hch
    rcases hcase with ⟨ex, v, hex, hfp, hv, rfl⟩ | ⟨hnone, order, amount, horder, hamount, hbill, rfl⟩
    · -- the row is there: nothing is written
      obtain ⟨r, hr, rfl⟩ := of_ledger_some hex
      obtain ⟨rs, db', hsteps⟩ := ih howner hrest
      have hrun : (DTX.do_charge ⟨(), pg, 0⟩ s t cid o args ep false).run ⟨rest db, fs, held⟩ =
          some (.ok (.dedup, v), ⟨rest db, fs, held⟩) := by
        rw [DTX.run_do_charge_found _ hafp htaken howner hr hfp, show r.value = .ok v from hv]
        rfl
      exact ⟨_, db', DTX.run_runSteps_cons _ ho hargs hrun hsteps⟩
    · -- nobody has the action: the charge is new
      let charged := Public.commit ⟨db, fs, held⟩
        (Contract.chargeWrites (action_id s t cid o) (DTX.chargeRow s t o afp ep) order amount)
      have hledger : charged.db.ledger = db.ledger.charged _ (DTX.chargeRow s t o afp 0) order amount :=
        ledger_charged
      have howner' : charged.db.turn_owner (s, t) = some ep := howner
      have hrest' : (replay s t cid).run charged.db.ledger steps = some l := hledger ▸ hrest
      obtain ⟨rs, db', hsteps⟩ := ih howner' hrest'
      have hrun : (DTX.do_charge ⟨(), pg, 0⟩ s t cid o args ep false).run ⟨rest db, fs, held⟩ =
          some (.ok (.committed, _), ⟨rest charged.db, fs, held⟩) :=
        DTX.run_do_charge_new _ hafp htaken horder hamount hbill howner (ledger_none.mp hnone)
      exact ⟨_, db', DTX.run_runSteps_cons _ ho hargs hrun hsteps⟩

/-- A plan that can be played is one that `run_turn` completes. -/
theorem run_run_turn {db : Db} {l : Ledger} (hcid : commit_id_of (.arr plan) = some cid)
    (hplay : (replay s t cid).run db.ledger plan = some l) :
    ∃ rs w, (DTX.run_turn ⟨(), pg, 0⟩ s t (some plan) none none).run ⟨rest db, fs, held⟩ = some (.ok rs, w) := by
  let ep := (db.turn_owner (s, t)).elim 1 (· + 1)
  let begun := DTX.begun s t ⟨cid, (Json.arr plan).dumps, .open⟩ ((Write.setOwner s t ep).apply db)
  have howner : begun.turn_owner (s, t) = some ep := by
    rw [DTX.begun_turn_owner]
    exact Function.update_self ..
  have hledger : begun.ledger = db.ledger := by
    unfold Db.ledger
    rw [DTX.begun_actions, DTX.begun_charges]
    rfl
  have hplay' : (replay s t cid).run begun.ledger plan = some l := by
    rw [hledger]
    exact hplay
  have hsteps : ∃ rs db', (DTX.runSteps ⟨(), pg, 0⟩ s t cid ep none plan).run
      ⟨rest begun, fs, Function.update held () (some ep)⟩ =
        some (.ok rs, ⟨rest db', fs, Function.update held () (some ep)⟩) := run_runSteps howner hplay'
  obtain ⟨rs, db', hsteps⟩ := hsteps
  refine ⟨rs, ⟨rest ((Write.setCommitted s t).apply db'), fs, Function.update held () (some ep)⟩, ?_⟩
  simp only [begun, ep] at hsteps
  simp [DTX.run_turn, DTX.turnEpoch, DTX.turnPlan, DTX.run_acquire, DTX.run_begin_turn _ hcid, hsteps,
    DTX.run_commit_turn, ep]

end Alone

/-! ## Recovery is transparent

The values that are returned are compared without their tags: what the interrupted run has committed, the recovery
reports as found. -/

section Runs

variable [Driver] {pg : Bool} {s t : String} {plan : List Json} {w₀ : World Unit}
  {c c' : Serial.State Stmt (World Unit) Exn (List (Tag × Option Json))}

/-- What two attempts leave that complete is the same, but for who took the actions. -/
theorem Contract.Completed.unique {db₀ : Db} {rs rs' : List (Tag × Option Json)} {p p' : Public Unit}
    (h : Contract.Completed s t plan db₀ rs p) (h' : Contract.Completed s t plan db₀ rs' p') :
    p.db.turns = p'.db.turns ∧ p.db.ledger = p'.db.ledger ∧ rs.map (·.2) = rs'.map (·.2) := by
  obtain ⟨cid, hcid, hturns, hplay, hvalues⟩ := h
  obtain ⟨cid', hcid', hturns', hplay', hvalues'⟩ := h'
  cases hcid.symm.trans hcid'
  have hledger : p.db.ledger = p'.db.ledger := Option.some.inj (hplay.symm.trans hplay')
  refine ⟨hturns.trans hturns'.symm, hledger, ?_⟩
  rw [hledger, hvalues'] at hvalues
  have hsome : (rs'.map (·.2)).map some = (rs.map (·.2)).map some := by
    rw [List.map_map, List.map_map]
    exact hvalues
  exact (List.map_injective_iff.mpr (Option.some_injective _) hsome).symm

/-- What holds of a state of the attempts. -/
abbrev Fine (pg : Bool) (s t : String) (plan : List Json) (db₀ : Db) :
    Serial.State Stmt (World Unit) Exn (List (Tag × Option Json)) → Prop :=
  Serial.StateOk ((contract s t plan db₀).rules pg) (Idle pg)
    (fun rs => Contract.At pg () [] [] (Contract.Completed s t plan db₀ rs)) fun _ _ => True

/-- **Once the turn is over nothing changes.** -/
theorem same_of_over (hfresh : w₀.server.db.turns (s, t) = none)
    (hkeys : ∀ step ∈ plan, ∀ args, subscript step "args" = .ok args → args.StringKeyed)
    (hok : Fine pg s t plan w₀.server.db c) (hover : Over s t c.shared.server.db)
    {ls : List (Serial.Label Attempt Stmt)} (hrun : Lts.Exec (Lts.ofFun (attempts pg s t plan).step) c ls c') :
    Same c.shared.server.db c'.shared.server.db := by
  have hverified := verified pg hfresh hkeys
  have hinv : Fine pg s t plan w₀.server.db c' ∧ Same c.shared.server.db c'.shared.server.db := by
    refine hrun.invariant (fun d => Fine pg s t plan w₀.server.db d ∧ Same c.shared.server.db d.shared.server.db)
      (fun d l d' hd hstep => ?_) ⟨hok, .refl _⟩
    have hstep_ok : Serial.okStep (((contract s t plan w₀.server.db).rules pg).Ok ()) d l := by
      cases l <;> trivial
    obtain ⟨hd', hguar⟩ := hverified.step hd.1 hstep_ok hstep
    refine ⟨hd', hd.2.trans ?_⟩
    refine Serial.step_within (fun w w' => Same w.server.db w'.server.db) (fun _ _ => .refl _) (fun st hl => ?_)
      (fun _ => .refl _) hstep
    -- a statement: the turn was over before it
    obtain ⟨r, hr, hcommitted⟩ := hover
    exact (hguar st hl).2 ⟨r, (congrFun hd.2.turns _).trans hr, hcommitted⟩
  exact hinv.2

/-- **Recovery is transparent.** However often the attempts before it raised or died, an attempt that
    completes returns what a run that nothing interrupts returns, but for the tags, and leaves what it
    leaves, but for who took the actions; and no attempt changes anything after that. -/
theorem recovery_transparent (pg : Bool) (s t : String) (plan : List Json)
    (hkeys : ∀ step ∈ plan, ∀ args, subscript step "args" = .ok args → args.StringKeyed)
    (w₀ : World Unit) (h₀ : Quiescent w₀) (hfresh : w₀.server.db.turns (s, t) = none)
    (c : Serial.State Stmt (World Unit) Exn (List (Tag × Option Json)))
    (hc : (attempts pg s t plan).Reachable (fun _ _ => True) (· = w₀) c) (rs : List (Tag × Option Json))
    (hret : c.proc = some (.ret rs)) :
    (∃ rs₁ w₁, (DTX.run_turn ⟨(), pg, 0⟩ s t (some plan) none none).run w₀ = some (.ok rs₁, w₁) ∧
      c.shared.server.db.turns = w₁.server.db.turns ∧ c.shared.server.db.ledger = w₁.server.db.ledger ∧
      rs.map (·.2) = rs₁.map (·.2)) ∧
    ∀ ls c', Lts.Exec (Lts.ofFun (attempts pg s t plan).step) c ls c' →
      Same c.shared.server.db c'.shared.server.db := by
  have hverified := verified pg hfresh hkeys
  have hinv₀ : ((contract s t plan w₀.server.db).rules pg).Inv w₀ :=
    Contract.inv_of_quiescent h₀ (.fresh rfl rfl)
  have hidle₀ : Idle pg w₀ := ⟨h₀.pending (), fun l hl => absurd hl List.not_mem_nil, trivial⟩
  have hstart : ∀ w, w = w₀ → ((contract s t plan w₀.server.db).rules pg).Inv w ∧ Idle pg w := by
    rintro w rfl
    exact ⟨hinv₀, hidle₀⟩
  have hcompleted : Contract.Completed s t plan w₀.server.db rs c.shared.pub :=
    (hverified.post hstart hc hret).fact
  refine ⟨?_, fun ls c' hrun => ?_⟩
  · obtain ⟨cid, hcid, -, hplay, -⟩ := hcompleted
    -- a run without a crash gets through: `play` has no error on this plan, since the attempts had none
    have halone : ∃ rs₁ w₁, (DTX.run_turn ⟨(), pg, 0⟩ s t (some plan) none none).run w₀ =
        some (.ok rs₁, w₁) := by
      rw [h₀.eq_rest]
      exact run_run_turn hcid hplay
    obtain ⟨rs₁, w₁, hrun⟩ := halone
    -- it satisfies the same triple, and a completed turn has one set of tables and one list of answers
    have hspec := run_turn_spec pg hfresh hkeys false none none
    have hcompleted₁ : Contract.Completed s t plan w₀.server.db rs₁ w₁.pub :=
      ((hspec.run (fun _ _ => trivial) hinv₀ hidle₀ hrun).2.1 rs₁ rfl).fact
    exact ⟨rs₁, w₁, hrun, (hverified.post hstart hc hret).fact.unique hcompleted₁⟩
  · obtain ⟨cid, -, hturns, -⟩ := hcompleted
    refine same_of_over hfresh hkeys (hverified.stateOk hstart hc) ⟨⟨cid, (Json.arr plan).dumps, .committed⟩, ?_, rfl⟩
      hrun
    rw [show c.shared.server.db.turns = _ from hturns, Function.update_self]

end Runs

/-! ## An attempt that raises inside its transaction, and one that recovers -/

section Recovered

local instance driver : Driver := .postgres

def fresh : World Unit := ⟨rest Db.empty, .empty, fun _ => none⟩

theorem twiceStep_keys : ∀ step ∈ [twiceStep 0], ∀ args, subscript step "args" = .ok args → args.StringKeyed := by
  intro step hstep args hargs
  cases List.mem_singleton.mp hstep
  cases hargs
  rfl

theorem reachable_recovered : ∃ c rs,
    (attempts true "s" "t" [twiceStep 0]).Reachable (fun _ _ => True) (· = fresh) c ∧ c.proc = some (.ret rs) := by
  obtain ⟨cid, hcid⟩ : ∃ cid, commit_id_of (.arr [twiceStep 0]) = some cid := exists_commit_id rfl
  obtain ⟨afp, hafp⟩ : ∃ afp, args_fingerprint (.obj [(.str "order", .str "O"), (.str "amount", .int 5)]) = some afp :=
    exists_args_fingerprint rfl
  -- the first attempt leaves the plan, and no charge
  let row : TurnRow := ⟨cid, (Json.arr [twiceStep 0]).dumps, .open⟩
  let db₁ := DTX.begun "s" "t" row ((Write.setOwner "s" "t" 1).apply .empty)
  have hcrash : ∃ held, (DTX.run_turn ⟨(), true, 0⟩ "s" "t" (some [twiceStep 0]) none (some 0)).run fresh =
      some (.error .Crash, ⟨rest db₁, .empty, held⟩) := by
    have hcharge : ∀ held, (DTX.do_charge ⟨(), true, 0⟩ "s" "t" cid (.int 0)
        (.obj [(.str "order", .str "O"), (.str "amount", .int 5)]) 1 true).run ⟨rest db₁, .empty, held⟩ =
          some (.error .Crash, ⟨rest db₁, .empty, held⟩) :=
      fun held => DTX.run_do_charge_crash _ hafp twice_taken.1 rfl rfl twice_billable rfl rfl
    have howner : Db.empty.turn_owner ("s", "t") = none := rfl
    simp only [db₁, row] at hcharge ⊢
    simp [fresh, DTX.run_turn, DTX.turnEpoch, DTX.turnPlan, DTX.run_acquire, DTX.run_begin_turn _ hcid,
      DTX.runSteps, twiceStep_ordinal, twiceStep_args, Ordinal.isInt, howner, hcharge]
  obtain ⟨held₁, hcrash⟩ := hcrash
  -- the second one finds the plan, and charges
  let db₂ := (Write.setOwner "s" "t" 2).apply db₁
  have hload : (DTX.load_plan ⟨(), true, 0⟩ "s" "t").run ⟨rest db₂, .empty, Function.update held₁ () (some 2)⟩ =
      some (.ok (some (cid, .arr [twiceStep 0])), ⟨rest db₂, .empty, Function.update held₁ () (some 2)⟩) := by
    refine DTX.run_load_plan _ (r := row) rfl ?_
    rw [json_loads, Json.loads_dumps]
    rfl
  have hrecover : ∃ rs w, (DTX.run_turn ⟨(), true, 0⟩ "s" "t" none none none).run ⟨rest db₁, .empty, held₁⟩ =
      some (.ok rs, w) := by
    have hcharge : ∀ held, (DTX.do_charge ⟨(), true, 0⟩ "s" "t" cid (.int 0)
        (.obj [(.str "order", .str "O"), (.str "amount", .int 5)]) 2 false).run ⟨rest db₂, .empty, held⟩ = _ :=
      fun held => DTX.run_do_charge_new _ hafp twice_taken.1 rfl rfl twice_billable rfl rfl
    have howner : db₁.turn_owner ("s", "t") = some 1 := rfl
    simp only [db₂] at hcharge hload
    simp [DTX.run_turn, DTX.turnEpoch, DTX.turnPlan, DTX.run_acquire, howner, hload, DTX.runSteps,
      twiceStep_ordinal, twiceStep_args, iterate, hcharge, DTX.run_commit_turn]
  obtain ⟨rs, w, hrecover⟩ := hrecover
  have hstart : (attempts true "s" "t" [twiceStep 0]).Reachable (fun _ _ => True) (· = fresh) ⟨fresh, none⟩ :=
    Lts.Reachable.start ⟨rfl, rfl⟩
  have hfirst := (hstart.begin rfl ⟨false, none, some 0⟩).run rfl
    (Prog.guarded_of_forall (fun _ _ => trivial) _ _) hcrash
  have hsecond := ((hfirst.halt rfl).begin rfl ⟨true, none, none⟩).run rfl
    (Prog.guarded_of_forall (fun _ _ => trivial) _ _) hrecover
  exact ⟨_, rs, hsecond, rfl⟩

theorem recovery_transparent_recovered : ∃ c rs,
    (attempts true "s" "t" [twiceStep 0]).Reachable (fun _ _ => True) (· = fresh) c ∧ c.proc = some (.ret rs) ∧
      ∃ rs₁ w₁, (DTX.run_turn ⟨(), true, 0⟩ "s" "t" (some [twiceStep 0]) none none).run fresh = some (.ok rs₁, w₁) ∧
        c.shared.server.db.turns = w₁.server.db.turns ∧ c.shared.server.db.ledger = w₁.server.db.ledger ∧
        rs.map (·.2) = rs₁.map (·.2) := by
  obtain ⟨c, rs, hc, hret⟩ := reachable_recovered
  exact ⟨c, rs, hc, hret, (recovery_transparent true "s" "t" [twiceStep 0] twiceStep_keys fresh
    (quiescent_rest _ _) rfl c hc rs hret).1⟩

end Recovered

end Transparent

end AgentTx.Dtx
