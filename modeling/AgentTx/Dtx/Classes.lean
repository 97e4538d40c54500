import AgentTx.Dtx.Content
import AgentTx.Dtx.Plan

/-!
# `Dtx.Classes` — recovery does not look at the class of a step

The durable plan says of each step whether it is transactional or an overlay, and `run_turn` charges them all
(`dtx.py`, the loop calls `do_charge` whatever `step["klass"]` is). So a step that is declared an overlay is charged
when the turn gets to it and its action has no row yet.

What the turn gets to, and what it inserts, is told by the plan and the tables it starts from, before any of it
runs:

* `fpAfter pre aid` is the fingerprint that an action has once the steps `pre` are done;
* after `pre` a step finds its action done (`Dedups`), inserts a charge (`Inserts`), or `Raises`: its ordinal is
  refused by its column, its action was done with other arguments, or it has none and the arguments are not those
  of a charge, or are refused by the columns of `charges`.

The argument. `Ledger` holds after any calls, whatever was stopped (`ledger_ok`): the class of a row says how its
action was done. `Tracks` is the invariant of the loop; `Tracks.do_charge` reads the three cases off the run of one
`do_charge`, `Tracks.run` follows the loop up to the step that raises, and `run_turn_outcome` is the turn: what it got
through is the longest prefix that does not raise. Against that, `Respects` says what a recovery does to the two
classes and `Fits` what the plan and the state before it must be, and `run_turn_respects` is that the one holds
exactly if the other does.
-/

namespace AgentTx.Dtx.Classes

variable {ι : Type}

/-! ## Steps

What is in a step, as `run_turn` reads it, and what the step will come to: this depends on the fingerprints that the
actions have when the loop gets to it, so it is defined over the steps before. -/

/-- `step["klass"] == k`. -/
def Declared (k : String) (step : Json) : Prop := subscript step "klass" = .ok (.str k)

/-- The fingerprint of a step's arguments. -/
def stepFp (step : Json) : Option String := (subscript step "args").toOption.bind args_fingerprint

section Columns

variable [Driver]

/-- The step has an ordinal, and its column takes it. -/
def Bound (step : Json) : Prop := ∃ o, ordinalOf step = .ok o ∧ o.taken = true

/-- The arguments are those of a charge, and its columns take them. -/
def Chargeable (args : Json) : Prop :=
  ∃ order amount, subscript args "order" = .ok order ∧ subscript args "amount" = .ok amount ∧
    billable order amount = true

end Columns

section Plan

variable [Driver] (s t cid : String) (db : Db)

/-- The action of a step. -/
def idOf (step : Json) : Option String := (ordinalOf step).toOption.map (action_id s t cid)

/-- The fingerprint that an action has once the steps `pre` are done: its row's or, if it has none, that of the
    first of them with its id. -/
def fpAfter (pre : List Json) (aid : String) : Option String :=
  ((db.actions aid).map (·.args_fp)).or
    (pre.findSome? fun step => if idOf s t cid step = some aid then stepFp step else none)

/-- After `pre` the step finds its action done. -/
def Dedups (pre : List Json) (step : Json) : Prop :=
  Bound step ∧ ∃ aid afp, idOf s t cid step = some aid ∧ stepFp step = some afp ∧ fpAfter s t cid db pre aid = some afp

/-- After `pre` the step inserts a charge, of the action `aid`. -/
def Inserts (pre : List Json) (step : Json) (aid : String) : Prop :=
  Bound step ∧ idOf s t cid step = some aid ∧ fpAfter s t cid db pre aid = none ∧
    ∃ args afp, subscript step "args" = .ok args ∧ args_fingerprint args = some afp ∧ Chargeable args

/-- After `pre` the step raises. -/
def Raises (pre : List Json) (step : Json) : Prop :=
  ¬ Dedups s t cid db pre step ∧ ∀ aid, ¬ Inserts s t cid db pre step aid

/-- No step of `pre` raises. -/
def Clear (pre : List Json) : Prop :=
  ∀ done step later, pre = done ++ step :: later → ¬ Raises s t cid db done step

variable {s t cid db} {pre : List Json} {step : Json} {aid : String}

omit [Driver] in
theorem fpAfter_concat (pre : List Json) (step : Json) (aid : String) :
    fpAfter s t cid db (pre ++ [step]) aid =
      (fpAfter s t cid db pre aid).or (if idOf s t cid step = some aid then stepFp step else none) := by
  unfold fpAfter
  rw [List.findSome?_append, List.findSome?_singleton, Option.or_assoc]

omit [Driver] in
/-- What an action has, it keeps. -/
theorem fpAfter_mono {later : List Json} {fp : String} (h : fpAfter s t cid db pre aid = some fp) :
    fpAfter s t cid db (pre ++ later) aid = some fp := by
  unfold fpAfter at h ⊢
  rw [List.findSome?_append, ← Option.or_assoc, h]
  rfl

theorem Dedups.fpAfter_concat (h : Dedups s t cid db pre step) :
    fpAfter s t cid db (pre ++ [step]) aid = fpAfter s t cid db pre aid := by
  obtain ⟨-, aid', afp, hid, -, hfp⟩ := h
  rw [Classes.fpAfter_concat]
  by_cases haid : aid = aid'
  · subst haid
    rw [hfp]
    rfl
  · rw [if_neg, Option.or_none]
    rw [hid]
    exact fun he => haid (Option.some.inj he).symm

theorem Raises.of_no_id (h : idOf s t cid step = none) : Raises s t cid db pre step := by
  constructor
  · rintro ⟨-, aid, afp, hid, -⟩
    cases h.symm.trans hid
  · rintro aid ⟨-, hid, -⟩
    cases h.symm.trans hid

/-- The column refuses the ordinal. -/
theorem Raises.of_unbound {o : Ordinal} (ho : ordinalOf step = .ok o) (htaken : o.taken = false) :
    Raises s t cid db pre step := by
  have hno : ¬ Bound step := by
    rintro ⟨o', ho', htaken'⟩
    cases ho.symm.trans ho'
    rw [htaken] at htaken'
    cases htaken'
  exact ⟨fun h => hno h.1, fun _ h => hno h.1⟩

theorem Raises.of_no_fp (h : stepFp step = none) : Raises s t cid db pre step := by
  constructor
  · rintro ⟨-, aid, afp, -, hfp, -⟩
    cases h.symm.trans hfp
  · rintro aid ⟨-, -, -, args, afp, hargs, hafp, -⟩
    rw [stepFp, hargs] at h
    cases h.symm.trans hafp

/-- The action is done with other arguments. -/
theorem Raises.of_other {fp afp : String} (hid : idOf s t cid step = some aid)
    (hhas : fpAfter s t cid db pre aid = some fp) (hfp : stepFp step = some afp) (hne : fp ≠ afp) :
    Raises s t cid db pre step := by
  constructor
  · rintro ⟨-, aid', afp', hid', hfp', hhas'⟩
    cases hid.symm.trans hid'
    cases hfp.symm.trans hfp'
    exact hne (Option.some.inj (hhas.symm.trans hhas'))
  · rintro aid' ⟨-, hid', hnone, -⟩
    cases hid.symm.trans hid'
    cases hhas.symm.trans hnone

/-- The action is not done, and the arguments are not those of a charge, or not for its columns. -/
theorem Raises.of_not_chargeable {args : Json} (hid : idOf s t cid step = some aid)
    (hnone : fpAfter s t cid db pre aid = none) (hargs : subscript step "args" = .ok args)
    (hno : ¬ Chargeable args) : Raises s t cid db pre step := by
  constructor
  · rintro ⟨-, aid', afp, hid', -, hhas⟩
    cases hid.symm.trans hid'
    cases hnone.symm.trans hhas
  · rintro aid' ⟨-, -, -, args', afp, hargs', -, hcharge⟩
    cases hargs.symm.trans hargs'
    exact hno hcharge

theorem Clear.nil : Clear s t cid db [] := by
  intro done step later h
  cases done <;> cases h

theorem Clear.concat (h : Clear s t cid db pre) (hstep : ¬ Raises s t cid db pre step) :
    Clear s t cid db (pre ++ [step]) := by
  intro done step' later heq
  rcases List.eq_nil_or_concat later with rfl | ⟨later', last, rfl⟩
  · obtain ⟨rfl, hlast⟩ := List.append_inj' heq rfl
    cases hlast
    exact hstep
  · rw [List.concat_eq_append, ← List.cons_append, ← List.append_assoc] at heq
    obtain ⟨hpre, -⟩ := List.append_inj' heq rfl
    exact h done step' later' hpre

theorem Clear.left {later : List Json} (h : Clear s t cid db (pre ++ later)) : Clear s t cid db pre := by
  intro done step rest heq
  refine h done step (rest ++ later) ?_
  rw [heq, List.append_assoc, List.cons_append]

/-- A step that was got through has left its mark. -/
theorem Clear.marked (h : Clear s t cid db pre) (hmem : step ∈ pre) (hid : idOf s t cid step = some aid) :
    fpAfter s t cid db pre aid ≠ none := by
  obtain ⟨done, later, rfl⟩ := List.append_of_mem hmem
  have hgone : ¬ Raises s t cid db done step := h done step later rfl
  have hmark : ∃ fp, fpAfter s t cid db (done ++ [step]) aid = some fp := by
    rw [fpAfter_concat, if_pos hid]
    -- a step that does not raise finds a fingerprint there, or leaves its own
    by_contra hnone
    apply hgone
    constructor
    · rintro ⟨-, aid', afp, hid', -, hfp⟩
      rw [hid] at hid'
      cases hid'
      exact hnone ⟨afp, by rw [hfp]; rfl⟩
    · rintro aid' ⟨-, -, -, args, afp, hargs, hafp, -⟩
      apply hnone
      have hstep : stepFp step = some afp := by
        rw [stepFp, hargs]
        exact hafp
      cases hpre : fpAfter s t cid db done aid with
      | none => exact ⟨afp, hstep⟩
      | some fp => exact ⟨fp, rfl⟩
  obtain ⟨fp, hfp⟩ := hmark
  rw [List.append_cons, fpAfter_mono hfp]
  exact nofun

end Plan

/-! ## The ledger

What can be told from the tables of how an action was done. It holds of tables that earlier calls left behind, stopped
or not, because row and charge are one commit. -/

/-- A row says how its action was done: one that a charge wrote has its charge, one that a receipt wrote has
    none, and without a row there is no charge. The result of a row can be loaded. -/
structure Ledger (db : Db) : Prop where
  no_row : ∀ aid, db.actions aid = none → db.chargesOf aid = []
  row : ∀ aid row, db.actions aid = some row →
    (∃ v, row.value = .ok v) ∧ (db.chargesOf aid).length = if row.klass = .transactional then 1 else 0

section Ledger

variable [Driver] {p : Public ι} {aid : String} {row : ActionRow}

omit [Driver] in
/-- Tables with the same actions and charges. -/
theorem Ledger.congr {db db' : Db} (h : Ledger db) (hactions : db'.actions = db.actions)
    (hcharges : db'.charges = db.charges) : Ledger db' := by
  constructor
  · intro aid hnone
    rw [hactions] at hnone
    rw [Db.chargesOf_congr hcharges]
    exact h.no_row aid hnone
  · intro aid row hrow
    rw [hactions] at hrow
    rw [Db.chargesOf_congr hcharges]
    exact h.row aid row hrow

omit [Driver] in
theorem Ledger.charge {order amount : Json} (h : Ledger p.db) (hklass : row.klass = .transactional)
    (hnone : p.db.actions aid = none) : Ledger (p.commit (Contract.chargeWrites aid row order amount)).db := by
  constructor
  · intro aid' hrow
    by_cases haid : aid' = aid
    · subst haid
      rw [Contract.charged_action_self] at hrow
      cases hrow
    · rw [Contract.charged_action_of_ne haid] at hrow
      rw [Contract.charged_chargesOf_of_ne haid]
      exact h.no_row aid' hrow
  · intro aid' row' hrow
    by_cases haid : aid' = aid
    · subst haid
      rw [Contract.charged_action_self] at hrow
      cases hrow
      refine ⟨⟨_, ActionRow.value_dumps rfl⟩, ?_⟩
      rw [Contract.charged_chargesOf_self, h.no_row aid' hnone, if_pos hklass]
      rfl
    · rw [Contract.charged_action_of_ne haid] at hrow
      rw [Contract.charged_chargesOf_of_ne haid]
      exact h.row aid' row' hrow

omit [Driver] in
theorem Ledger.receipt (h : Ledger p.db) (hklass : row.klass = .overlay) (hres : row.result = none)
    (hnone : p.db.actions aid = none) : Ledger (p.commit [.insertAction aid row]).db := by
  have hself : (p.commit [.insertAction aid row]).db.actions aid = some row := Function.update_self ..
  have hother : ∀ aid', aid' ≠ aid →
      (p.commit [.insertAction aid row]).db.actions aid' = p.db.actions aid' :=
    fun aid' hne => Function.update_of_ne hne _ _
  constructor
  · intro aid' hrow
    by_cases haid : aid' = aid
    · rw [haid, hself] at hrow
      cases hrow
    · rw [hother aid' haid] at hrow
      exact h.no_row aid' hrow
  · intro aid' row' hrow
    by_cases haid : aid' = aid
    · rw [haid, hself] at hrow
      cases hrow
      refine ⟨⟨none, ?_⟩, ?_⟩
      · rw [ActionRow.value, hres]
      · -- a receipt comes without a charge, and the action had none
        rw [hklass, if_neg (by decide), haid]
        show (p.db.chargesOf aid).length = 0
        rw [h.no_row aid hnone]
        rfl
    · rw [hother aid' haid] at hrow
      exact h.row aid' row' hrow

/-- The contract of any callers: they keep the ledger. -/
def contract (ι : Type) : Contract ι where
  inv p := Ledger p.db
  may _ _ _ := True
  may_refl _ _ := trivial

omit [Driver] in
theorem allows [DecidableEq ι] (i : ι) : (contract ι).Allows i where
  acquire _ _ _ _ hp _ := ⟨hp.congr rfl rfl, trivial⟩
  begin_turn _ _ _ _ hp _ := ⟨hp.congr rfl rfl, trivial⟩
  commit_turn _ _ _ hp := ⟨hp.congr rfl rfl, trivial⟩
  charge _ _ _ _ _ hp hklass hnone := ⟨hp.charge hklass hnone, trivial⟩

/-- Nothing is asked of the files. -/
def phases (ι : Type) : Contract.Phases ι :=
  ⟨fun _ => True, fun _ _ _ => True, fun _ => True, fun _ => True, fun _ => True, fun _ => True⟩

omit [Driver] in
theorem overlayOk {x : DTX ι} {s t cid store : String} {o : Ordinal} {args : Json} {ep : Nat} :
    Contract.OverlayOk (contract ι) x s t cid o args ep store (phases ι) where
  before := Contract.keeps_const True
  writing _ _ := Contract.keeps_const True
  written := Contract.keeps_const True
  published := Contract.keeps_const True
  ready := Contract.keeps_const True
  after := Contract.keeps_const True
  exists_ _ _ _ _ _ := trivial
  open_ _ _ _ hp _ := ⟨hp, trivial, trivial⟩
  write _ _ _ _ _ _ _ hp _ := ⟨hp, trivial, trivial⟩
  fsync _ _ _ _ hp _ := ⟨hp, trivial, trivial⟩
  replace _ _ hp _ _ := ⟨hp, trivial, trivial⟩
  fsyncDir _ hp _ := ⟨hp, trivial, trivial⟩
  record _ _ hp _ _ hnone := ⟨hp.receipt rfl rfl hnone, trivial, trivial⟩
  recorded _ _ _ _ := trivial

/-- Before any call: no action is taken, and nothing is charged. -/
structure Start (w : World ι) : Prop where
  quiescent : Quiescent w
  no_rows : ∀ aid, w.server.db.actions aid = none
  no_charges : w.server.db.charges = []

/-- **The ledger is right after any calls**, whatever was stopped. -/
theorem ledger_ok [DecidableEq ι] (clients : Content.Clients ι) (pg : Bool) {w₀ : World ι} (h₀ : Start w₀)
    {c : Config ι Stmt (World ι) Exn Unit} (hc : (clients.system pg).Reachable (· = w₀) c) :
    Ledger c.shared.server.db := by
  have hclient : ∀ i, ((contract ι).rules pg).Triple i (Contract.Unstarted pg i)
      (client ⟨i, pg, clients.pid i⟩ (clients.calls i)) (fun _ _ => True) fun _ _ => True := by
    intro i
    have hcalls : ((contract ι).rules pg).Triple i (Contract.Between pg i)
        (client ⟨i, pg, clients.pid i⟩ (clients.calls i)) (fun _ _ => True) fun _ _ => True := by
      refine Contract.Allows.client (x := ⟨i, pg, clients.pid i⟩) (allows i) ?_
      intro s t cid o args ep store _
      exact ⟨phases ι, fun _ => trivial, overlayOk⟩
    exact hcalls.pre fun w _ hat => hat.mono (fun l hl => hl) fun _ => trivial
  have hverified : RelyGuarantee.Verified (clients.system pg) ((contract ι).rules pg) (Contract.Unstarted pg) :=
    Contract.verified hclient
  have hstart : Ledger w₀.pub.db := by
    have hcharges : ∀ aid, w₀.pub.db.chargesOf aid = [] := by
      intro aid
      rw [Db.chargesOf, show w₀.pub.db.charges = [] from h₀.no_charges]
      rfl
    refine ⟨fun aid _ => hcharges aid, fun aid row hrow => ?_⟩
    rw [show w₀.pub.db.actions aid = none from h₀.no_rows aid] at hrow
    cases hrow
  have hinit := Contract.init_of_quiescent (C := contract ι) pg h₀.quiescent hstart
  exact (hverified.inv (fun _ _ _ => trivial) hinit hc).2

end Ledger

/-! ## The loop

A recovery alone, from its first step to the one that raises. Each step is one `do_charge`, whose run is known from
`Dtx.Alone`; the tables after it are computed from the plan, not from the run. -/

/-- The tables when the steps `ran` are done, from the tables `db₀`. The new rows are those of the charges that
    the plan tells. -/
structure Tracks [Driver] (s t cid : String) (ep : Nat) (db₀ : Db) (ran : List Json) (db : Db) : Prop where
  clear : Clear s t cid db₀ ran
  turns : db.turns = db₀.turns
  owner : db.turn_owner (s, t) = some ep
  ledger : Ledger db
  old : ∀ aid row, db₀.actions aid = some row → db.actions aid = some row ∧ db.chargesOf aid = db₀.chargesOf aid
  new : ∀ aid, db₀.actions aid = none → (db.actions aid).map (·.args_fp) = fpAfter s t cid db₀ ran aid ∧
    ∀ row, db.actions aid = some row → row.klass = .transactional ∧
      ∃ done step later, ran = done ++ step :: later ∧ Inserts s t cid db₀ done step aid

section Tracks

variable [Driver] {s t cid aid : String} {ep : Nat} {db₀ db : Db} {ran : List Json} {step : Json}

/-- Nothing has run yet. -/
theorem Tracks.start (hledger : Ledger db₀) :
    Tracks s t cid ep db₀ [] ((Write.setOwner s t ep).apply db₀) where
  clear := .nil
  turns := rfl
  owner := Function.update_self ..
  ledger := hledger.congr rfl rfl
  old _ _ hrow := ⟨hrow, rfl⟩
  new aid hnone := by
    have hrow : ((Write.setOwner s t ep).apply db₀).actions aid = none := hnone
    rw [hrow, fpAfter, hnone]
    exact ⟨rfl, nofun⟩

theorem Tracks.fp (h : Tracks s t cid ep db₀ ran db) :
    (db.actions aid).map (·.args_fp) = fpAfter s t cid db₀ ran aid := by
  cases hrow : db₀.actions aid with
  | none => exact (h.new aid hrow).1
  | some row =>
    rw [(h.old aid row hrow).1, fpAfter, hrow]
    rfl

/-- A step that finds its action done. -/
theorem Tracks.dedup (h : Tracks s t cid ep db₀ ran db) (hd : Dedups s t cid db₀ ran step) :
    Tracks s t cid ep db₀ (ran ++ [step]) db where
  clear := h.clear.concat fun hraise => hraise.1 hd
  turns := h.turns
  owner := h.owner
  ledger := h.ledger
  old := h.old
  new aid hnone := by
    obtain ⟨hfp, hrow⟩ := h.new aid hnone
    refine ⟨hfp.trans hd.fpAfter_concat.symm, fun row hr => ?_⟩
    obtain ⟨hklass, done, step', later, rfl, hins⟩ := hrow row hr
    exact ⟨hklass, done, step', later ++ [step], by rw [List.append_assoc, List.cons_append], hins⟩

/-- A step that is charged. -/
theorem Tracks.charge {o : Ordinal} {args order amount : Json} {afp : String} (h : Tracks s t cid ep db₀ ran db)
    (ho : ordinalOf step = .ok o) (htaken : o.taken = true) (hargs : subscript step "args" = .ok args)
    (hafp : args_fingerprint args = some afp) (horder : subscript args "order" = .ok order)
    (hamount : subscript args "amount" = .ok amount) (hbill : billable order amount = true)
    (hnone : db.actions (action_id s t cid o) = none) :
    Tracks s t cid ep db₀ (ran ++ [step]) ((Contract.chargeWrites (action_id s t cid o)
      (DTX.chargeRow s t o afp ep) order amount).foldl (fun d w => w.apply d) db) := by
  have hid : idOf s t cid step = some (action_id s t cid o) := by
    rw [idOf, ho]
    rfl
  generalize action_id s t cid o = aid at hnone hid ⊢
  have hfresh : fpAfter s t cid db₀ ran aid = none := by
    rw [← h.fp, hnone]
    rfl
  have hins : Inserts s t cid db₀ ran step aid :=
    ⟨⟨o, ho, htaken⟩, hid, hfresh, args, afp, hargs, hafp, order, amount, horder, hamount, hbill⟩
  have hstep : stepFp step = some afp := by
    rw [stepFp, hargs]
    exact hafp
  -- the writes, as those of a commit
  let p : Public Unit := ⟨db, .empty, fun _ => none⟩
  let row : ActionRow := DTX.chargeRow s t o afp ep
  have hself : (p.commit (Contract.chargeWrites aid row order amount)).db.actions aid =
      some { row with result := some (Json.obj [(.str "order", order), (.str "amount", amount)]).dumps } :=
    Contract.charged_action_self
  have hother : ∀ aid', aid' ≠ aid →
      (p.commit (Contract.chargeWrites aid row order amount)).db.actions aid' = db.actions aid' ∧
        (p.commit (Contract.chargeWrites aid row order amount)).db.chargesOf aid' = db.chargesOf aid' :=
    fun aid' hne => ⟨Contract.charged_action_of_ne hne, Contract.charged_chargesOf_of_ne hne⟩
  have hledger : Ledger (p.commit (Contract.chargeWrites aid row order amount)).db :=
    Ledger.charge (p := p) h.ledger rfl hnone
  refine ⟨h.clear.concat fun hraise => hraise.2 aid hins, h.turns, h.owner, hledger, ?_, ?_⟩
  · intro aid' row' hrow'
    obtain ⟨hrow, hcharges⟩ := h.old aid' row' hrow'
    have hne : aid' ≠ aid := by
      rintro rfl
      rw [hnone] at hrow
      cases hrow
    exact ⟨(hother aid' hne).1.trans hrow, (hother aid' hne).2.trans hcharges⟩
  · intro aid' hnone'
    rw [fpAfter_concat, ← h.fp]
    by_cases haid : aid' = aid
    · subst haid
      rw [hnone, if_pos hid, hstep]
      refine ⟨congrArg (Option.map _) hself, fun row' hrow' => ?_⟩
      obtain rfl : _ = row' := Option.some.inj (hself.symm.trans hrow')
      exact ⟨rfl, ran, step, [], rfl, hins⟩
    · have hsame := (hother aid' haid).1
      rw [if_neg (by rw [hid]; exact fun he => haid (Option.some.inj he).symm), Option.or_none]
      refine ⟨congrArg (Option.map _) hsame, fun row' hrow' => ?_⟩
      obtain ⟨hklass, done, step', later, rfl, hins'⟩ := (h.new aid' hnone').2 row' (hsame.symm.trans hrow')
      exact ⟨hklass, done, step', later ++ [step], by rw [List.append_assoc, List.cons_append], hins'⟩

end Tracks

section Loop

variable [DecidableEq ι] [Driver] (x : DTX ι) (fs : FileSys) (held : ι → Option Nat) {s t cid : String} {ep : Nat}
  {db₀ db : Db} {ran : List Json}

/-- The charge of a step raises, and leaves the tables, or it is done. -/
theorem Tracks.do_charge {step args : Json} {o : Ordinal} (h : Tracks s t cid ep db₀ ran db)
    (ho : ordinalOf step = .ok o) (hargs : subscript step "args" = .ok args) :
    (Raises s t cid db₀ ran step ∧ ∃ e, (x.do_charge s t cid o args ep false).run ⟨rest db, fs, held⟩ =
      some (.error e, ⟨rest db, fs, held⟩)) ∨
    ∃ r db', (x.do_charge s t cid o args ep false).run ⟨rest db, fs, held⟩ = some (.ok r, ⟨rest db', fs, held⟩) ∧
      Tracks s t cid ep db₀ (ran ++ [step]) db' := by
  have hid : idOf s t cid step = some (action_id s t cid o) := by
    rw [idOf, ho]
    rfl
  have hstep : stepFp step = args_fingerprint args := by
    rw [stepFp, hargs]
    rfl
  have hhas : (db.actions (action_id s t cid o)).map (·.args_fp) =
      fpAfter s t cid db₀ ran (action_id s t cid o) := h.fp
  cases hafp : args_fingerprint args with
  | none =>
    -- arguments without a fingerprint: it raises before its transaction
    refine Or.inl ⟨.of_no_fp (hstep.trans hafp), .TypeError, ?_⟩
    simp [DTX.do_charge, hafp]
  | some afp =>
    cases htaken : o.taken with
    | false =>
      -- the column refuses the ordinal, whether there is a row or not
      exact Or.inl ⟨.of_unbound ho htaken, .DataError, x.run_do_charge_unbound hafp htaken h.owner⟩
    | true =>
      cases hrow : db.actions (action_id s t cid o) with
      | some ex =>
        rw [hrow] at hhas
        by_cases hsame : ex.args_fp = afp
        · -- it is done, and its result can be loaded
          obtain ⟨⟨v, hv⟩, -⟩ := h.ledger.row _ ex hrow
          have hrun : (x.do_charge s t cid o args ep false).run ⟨rest db, fs, held⟩ =
              some (ex.value.map fun v => (.dedup, v), ⟨rest db, fs, held⟩) :=
            x.run_do_charge_found hafp htaken h.owner hrow hsame
          rw [hv] at hrun
          refine Or.inr ⟨(.dedup, v), db, hrun,
            h.dedup ⟨⟨o, ho, htaken⟩, _, afp, hid, hstep.trans hafp, ?_⟩⟩
          rw [← hhas, ← hsame]
          rfl
        · exact Or.inl ⟨.of_other hid hhas.symm (hstep.trans hafp) hsame, .ContentMismatch,
            x.run_do_charge_mismatch hafp htaken h.owner hrow hsame⟩
      | none =>
        rw [hrow] at hhas
        -- the claim is won: it is charged, if there are an order and an amount that the columns take
        cases horder : subscript args "order" with
        | error e =>
          refine Or.inl ⟨.of_not_chargeable hid hhas.symm hargs ?_, e,
            x.run_do_charge_failed hafp htaken h.owner hrow (Or.inl horder)⟩
          rintro ⟨order, amount, horder', -⟩
          cases horder.symm.trans horder'
        | ok order =>
          cases hamount : subscript args "amount" with
          | error e =>
            refine Or.inl ⟨.of_not_chargeable hid hhas.symm hargs ?_, e,
              x.run_do_charge_failed hafp htaken h.owner hrow (Or.inr ⟨order, horder, hamount⟩)⟩
            rintro ⟨order', amount, -, hamount', -⟩
            cases hamount.symm.trans hamount'
          | ok amount =>
            cases hbill : billable order amount with
            | false =>
              refine Or.inl ⟨.of_not_chargeable hid hhas.symm hargs ?_, .DataError,
                x.run_do_charge_refused hafp htaken horder hamount hbill h.owner hrow⟩
              rintro ⟨order', amount', horder', hamount', hbill'⟩
              cases horder.symm.trans horder'
              cases hamount.symm.trans hamount'
              rw [hbill] at hbill'
              cases hbill'
            | true =>
              exact Or.inr ⟨_, _, x.run_do_charge_new hafp htaken horder hamount hbill h.owner hrow,
                h.charge ho htaken hargs hafp horder hamount hbill hrow⟩

/-- **One step** of the loop: it raises there, or goes on. -/
theorem Tracks.step (h : Tracks s t cid ep db₀ ran db) (step : Json) (steps : List Json) :
    (Raises s t cid db₀ ran step ∧ ∃ e, (x.runSteps s t cid ep none (step :: steps)).run ⟨rest db, fs, held⟩ =
      some (.error e, ⟨rest db, fs, held⟩)) ∨
    ∃ o args r db', (subscript step "ordinal" >>= asOrdinal) = .ok o ∧ subscript step "args" = .ok args ∧
      (x.do_charge s t cid o args ep false).run ⟨rest db, fs, held⟩ = some (.ok r, ⟨rest db', fs, held⟩) ∧
      Tracks s t cid ep db₀ (ran ++ [step]) db' := by
  cases ho : ordinalOf step with
  | error e =>
    refine Or.inl ⟨.of_no_id (by rw [idOf, ho]; rfl), e, ?_⟩
    unfold ordinalOf at ho
    simp [DTX.runSteps, ho]
  | ok o =>
    have hord : (subscript step "ordinal" >>= asOrdinal) = .ok o := ho
    cases hargs : subscript step "args" with
    | error e =>
      refine Or.inl ⟨.of_no_fp (by rw [stepFp, hargs]; rfl), e, ?_⟩
      simp [DTX.runSteps, hord, hargs]
    | ok args =>
      rcases h.do_charge x fs held ho hargs with ⟨hraise, e, hrun⟩ | ⟨r, db', hrun, h'⟩
      · exact Or.inl ⟨hraise, e, by simp [DTX.runSteps, hord, hargs, hrun]⟩
      · exact Or.inr ⟨o, args, r, db', hord, rfl, hrun, h'⟩

/-- **The whole loop.** It gets to the end, or up to the step that raises. -/
theorem Tracks.run (h : Tracks s t cid ep db₀ ran db) (steps : List Json) :
    ∃ r ran' db', (x.runSteps s t cid ep none steps).run ⟨rest db, fs, held⟩ = some (r, ⟨rest db', fs, held⟩) ∧
      Tracks s t cid ep db₀ ran' db' ∧
      ((∃ rs, r = .ok rs) ∧ ran' = ran ++ steps ∨
        ∃ e done step later, r = .error e ∧ steps = done ++ step :: later ∧ ran' = ran ++ done ∧
          Raises s t cid db₀ (ran ++ done) step) := by
  induction steps generalizing ran db with
  | nil => exact ⟨.ok [], ran, db, rfl, h, Or.inl ⟨⟨_, rfl⟩, (List.append_nil ran).symm⟩⟩
  | cons step steps ih =>
    rcases h.step x fs held step steps with ⟨hraise, e, hrun⟩ | ⟨o, args, r, db₁, ho, hargs, hrun, h₁⟩
    · -- the first step raises, and the loop ends there
      refine ⟨.error e, ran, db, hrun, h, Or.inr ⟨e, [], step, steps, rfl, rfl, ?_, ?_⟩⟩
      · rw [List.append_nil]
      · rwa [List.append_nil]
    · obtain ⟨r', ran', db', hsteps, h', hend⟩ := ih h₁
      rcases hend with ⟨⟨rs, rfl⟩, hran⟩ | ⟨e, done, step', later, rfl, rfl, hran, hraise⟩
      · -- the others get through too
        refine ⟨.ok (r :: rs), ran', db', ?_, h', Or.inl ⟨⟨_, rfl⟩, ?_⟩⟩
        · simp [DTX.runSteps, ho, hargs, hrun, hsteps]
        · rw [hran, List.append_assoc]
          rfl
      · -- one of the others raises
        refine ⟨.error e, ran', db', ?_, h', Or.inr ⟨e, step :: done, step', later, rfl, rfl, ?_, ?_⟩⟩
        · simp [DTX.runSteps, ho, hargs, hrun, hsteps]
        · rw [hran, List.append_assoc]
          rfl
        · rw [List.append_assoc] at hraise
          exact hraise

/-- **The whole turn**, recovered from its durable plan: what it got through is the longest prefix that does
    not raise. -/
theorem run_turn_outcome {row : TurnRow} {plan : Json} {steps : List Json} (hledger : Ledger db)
    (hrow : db.turns (s, t) = some row) (hplan : json_loads row.plan = .ok plan)
    (hitems : iterate plan = .ok steps) :
    ∃ res w' ran ep db', (x.run_turn s t none none none).run ⟨rest db, fs, held⟩ = some (res, w') ∧
      w'.files = fs ∧ w'.server.db.charges = db'.charges ∧ Tracks s t row.commit_id ep db ran db' ∧
      ran <+: steps ∧ (∀ done, done <+: steps → Clear s t row.commit_id db done → done <+: ran) ∧
      ((∃ rs, res = .ok rs) ↔ Clear s t row.commit_id db steps) ∧
      ((∃ rs, res = .ok rs) → w'.server.db.turns (s, t) = some { row with state := .committed }) := by
  -- the recovery takes the turn: its token is the new epoch
  let ep : Nat := (db.turn_owner (s, t)).elim 1 (· + 1)
  have hstart : Tracks s t row.commit_id ep db [] ((Write.setOwner s t ep).apply db) := .start hledger
  have hrow' : ((Write.setOwner s t ep).apply db).turns (s, t) = some row := hrow
  obtain ⟨r, ran, db', hrun, htracks, hend⟩ :=
    hstart.run x fs (Function.update held x.conn (some ep)) steps
  rcases hend with ⟨⟨rs, rfl⟩, rfl⟩ | ⟨e, ran, step, later, rfl, rfl, rfl, hraise⟩
  · -- the loop gets through, and the turn is committed
    refine ⟨.ok rs, ⟨rest ((Write.setCommitted s t).apply db'), fs, Function.update held x.conn (some ep)⟩, _, ep,
      db', ?_, rfl, rfl, htracks, List.prefix_rfl, fun _ h _ => h, ?_, fun _ => ?_⟩
    · simp [DTX.run_turn, DTX.turnEpoch, DTX.turnPlan, DTX.run_acquire, DTX.run_load_plan x hrow' hplan, hitems,
        hrun, DTX.run_commit_turn, ep]
    · exact ⟨fun _ => htracks.clear, fun _ => ⟨rs, rfl⟩⟩
    · show db'.turns.update (s, t) _ (s, t) = _
      rw [Table.update_self, htracks.turns, hrow]
      rfl
  · -- a step raises, and the turn stays open
    refine ⟨.error e, ⟨rest db', fs, Function.update held x.conn (some ep)⟩, _, ep, db', ?_, rfl, rfl, htracks,
      ⟨step :: later, rfl⟩, fun p hp hclear => ?_, ?_, ?_⟩
    · simp [DTX.run_turn, DTX.turnEpoch, DTX.turnPlan, DTX.run_acquire, DTX.run_load_plan x hrow' hplan, hitems,
        hrun, ep]
    · -- a prefix that is clear does not get past the step
      have hstep : ran ++ [step] <+: ran ++ step :: later := ⟨later, by rw [List.append_assoc]; rfl⟩
      rcases List.prefix_or_prefix_of_prefix hp hstep with hle | ⟨more, rfl⟩
      · rcases List.prefix_concat_iff.mp hle with rfl | hlt
        · exact absurd hraise (hclear ran step [] rfl)
        · exact hlt
      · refine absurd hraise (hclear ran step more ?_)
        rw [List.append_assoc]
        rfl
    · constructor
      · rintro ⟨rs, hrs⟩
        cases hrs
      · intro hclear
        exact absurd hraise (hclear ran step later rfl)
    · rintro ⟨rs, hrs⟩
      cases hrs

end Loop

/-! ## Recovery

The two sides of the equivalence. `Respects` looks at what the recovery did, `Fits` only at the plan and the state
before it. -/

section Respects

variable [Driver] (s t cid store : String) (steps : List Json)

/-- What the recovery of a turn does to its steps, from `db` and `fs`: it charges no overlay, and if it
    completes, each transactional step has its charge and each overlay its receipt. -/
structure Respects (db : Db) {α : Type} (r : Except Exn α) (w' : World ι) : Prop where
  never : ∀ step ∈ steps, Declared "overlay" step → ∀ aid, idOf s t cid step = some aid →
    w'.server.db.chargesOf aid = db.chargesOf aid
  done : (∃ a, r = .ok a) → ∀ step ∈ steps, ∀ aid, idOf s t cid step = some aid →
    (Declared "transactional" step → (w'.server.db.chargesOf aid).length = 1) ∧
      (Declared "overlay" step → (w'.files.dir (DTX.receipt store aid)).isSome)

/-- The plan fits what was done before: no step that the turn gets to inserts a charge of an overlay; and if
    none raises, the rows of the transactional steps are those of charges, and the receipts of the overlays
    are there. -/
structure Fits (db : Db) (fs : FileSys) : Prop where
  never : ∀ done step later aid, steps = done ++ step :: later → Clear s t cid db done →
    Inserts s t cid db done step aid → ∀ step' ∈ steps, Declared "overlay" step' → idOf s t cid step' ≠ some aid
  done : Clear s t cid db steps → ∀ step ∈ steps, ∀ aid, idOf s t cid step = some aid →
    (Declared "transactional" step → ∀ row, db.actions aid = some row → row.klass = .transactional) ∧
      (Declared "overlay" step → (fs.dir (DTX.receipt store aid)).isSome)

end Respects

section Recovery

variable [Driver] {s t cid store aid : String} {ep : Nat} {db₀ db : Db} {ran steps : List Json}

/-- What the steps have inserted is one charge of an action that had none. -/
theorem Tracks.inserted {done later : List Json} {step : Json} (h : Tracks s t cid ep db₀ ran db)
    (hledger : Ledger db₀) (hran : ran = done ++ step :: later) (hins : Inserts s t cid db₀ done step aid) :
    db₀.chargesOf aid = [] ∧ (db.chargesOf aid).length = 1 := by
  obtain ⟨-, hid, hfresh, args, afp, hargs, hafp, -⟩ := hins
  have hnone : db₀.actions aid = none := by
    unfold fpAfter at hfresh
    exact Option.map_eq_none_iff.mp (Option.or_eq_none_iff.mp hfresh).1
  refine ⟨hledger.no_row aid hnone, ?_⟩
  have hmem : step ∈ ran := by
    rw [hran]
    exact List.mem_append_right _ List.mem_cons_self
  have hsome := h.clear.marked hmem hid
  rw [← h.fp] at hsome
  obtain ⟨fp, hfp⟩ := Option.ne_none_iff_exists'.mp hsome
  obtain ⟨row, hrow, -⟩ := Option.map_eq_some_iff.mp hfp
  obtain ⟨-, hlen⟩ := h.ledger.row aid row hrow
  rw [hlen, if_pos ((h.new aid hnone).2 row hrow).1]

section Respected

variable {α : Type} {r : Except Exn α} {w' : World ι} {fs : FileSys}

/-- A recovery that respects the classes got to a plan that fits: what would not is charged by it. -/
theorem fits_of_respects (hledger : Ledger db₀) (h : Tracks s t cid ep db₀ ran db)
    (hcharges : w'.server.db.charges = db.charges) (hfiles : w'.files = fs)
    (hlongest : ∀ done, done <+: steps → Clear s t cid db₀ done → done <+: ran)
    (hok : (∃ a, r = .ok a) ↔ Clear s t cid db₀ steps) (hresp : Respects s t cid store steps db₀ r w') :
    Fits s t cid store steps db₀ fs := by
  constructor
  · intro done step later aid hsteps hclear hins step' hmem' hdecl hid'
    -- the step was got through, so its charge is there
    have hthrough : done ++ [step] <+: ran := by
      refine hlongest _ ⟨later, ?_⟩ (hclear.concat fun hraise => hraise.2 aid hins)
      rw [hsteps, List.append_assoc]
      rfl
    obtain ⟨more, hmore⟩ := hthrough
    have hsplit : ran = done ++ step :: more := by
      rw [← hmore, List.append_assoc]
      rfl
    obtain ⟨hbefore, hafter⟩ := h.inserted hledger hsplit hins
    have hsame := hresp.never step' hmem' hdecl aid hid'
    rw [Db.chargesOf_congr hcharges, hbefore] at hsame
    rw [hsame] at hafter
    cases hafter
  · intro hclear step hmem aid hid
    obtain ⟨htx, hov⟩ := hresp.done (hok.mpr hclear) step hmem aid hid
    refine ⟨fun hdecl row hrow => ?_, fun hdecl => hfiles ▸ hov hdecl⟩
    have hone := htx hdecl
    rw [Db.chargesOf_congr hcharges, (h.old aid row hrow).2, (hledger.row aid row hrow).2] at hone
    by_contra hne
    rw [if_neg hne] at hone
    cases hone

/-- When the recovery completes, the row of a transactional step is that of a charge. -/
theorem Tracks.transactional {step : Json} (h : Tracks s t cid ep db₀ ran db) (hmem : step ∈ ran)
    (hid : idOf s t cid step = some aid)
    (hold : ∀ row, db₀.actions aid = some row → row.klass = .transactional) :
    ∃ row, db.actions aid = some row ∧ row.klass = .transactional := by
  have hsome : fpAfter s t cid db₀ ran aid ≠ none := h.clear.marked hmem hid
  rw [← h.fp] at hsome
  obtain ⟨fp, hfp⟩ := Option.ne_none_iff_exists'.mp hsome
  obtain ⟨row, hrow, -⟩ := Option.map_eq_some_iff.mp hfp
  refine ⟨row, hrow, ?_⟩
  cases hrow₀ : db₀.actions aid with
  | none => exact ((h.new aid hrow₀).2 row hrow).1
  | some row₀ =>
    obtain rfl : row₀ = row := Option.some.inj ((h.old aid row₀ hrow₀).1.symm.trans hrow)
    exact hold row₀ hrow₀

/-- The recovery of a plan that fits respects the classes. -/
theorem respects_of_fits (hledger : Ledger db₀) (h : Tracks s t cid ep db₀ ran db)
    (hcharges : w'.server.db.charges = db.charges) (hfiles : w'.files = fs) (hran : ran <+: steps)
    (hlongest : ∀ done, done <+: steps → Clear s t cid db₀ done → done <+: ran)
    (hok : (∃ a, r = .ok a) ↔ Clear s t cid db₀ steps) (hfits : Fits s t cid store steps db₀ fs) :
    Respects s t cid store steps db₀ r w' := by
  constructor
  · intro step hmem hdecl aid hid
    rw [Db.chargesOf_congr hcharges]
    cases hrow₀ : db₀.actions aid with
    | some row => exact (h.old aid row hrow₀).2
    | none =>
      rw [hledger.no_row aid hrow₀]
      cases hrow : db.actions aid with
      | none => exact h.ledger.no_row aid hrow
      | some row =>
        -- a row that is new is that of a step which inserts a charge
        obtain ⟨-, done, step', later, rfl, hins⟩ := (h.new aid hrow₀).2 row hrow
        obtain ⟨more, hmore⟩ := hran
        rw [List.append_assoc, List.cons_append] at hmore
        exact absurd hid (hfits.never done step' _ aid hmore.symm h.clear.left hins step hmem hdecl)
  · intro hret step hmem aid hid
    have hclear := hok.mp hret
    obtain ⟨htx, hov⟩ := hfits.done hclear step hmem aid hid
    refine ⟨fun hdecl => ?_, fun hdecl => hfiles.symm ▸ hov hdecl⟩
    have hall : ran = steps :=
      hran.eq_of_length_le (hlongest steps List.prefix_rfl hclear).length_le
    obtain ⟨row, hrow, hklass⟩ := h.transactional (hall ▸ hmem) hid (htx hdecl)
    rw [Db.chargesOf_congr hcharges, (h.ledger.row aid row hrow).2, if_pos hklass]

end Respected

end Recovery

/-- **Recovery and the classes.** From whatever calls have left of a turn, the recovery charges no overlay, and
    completes with a charge for each transactional step and a receipt for each overlay, exactly if the plan
    fits what they left. -/
theorem run_turn_respects [DecidableEq ι] [Driver] (x : DTX ι) (clients : Content.Clients ι) (pg : Bool) (w₀ : World ι)
    (h₀ : Start w₀) (c : Config ι Stmt (World ι) Exn Unit) (hc : (clients.system pg).Reachable (· = w₀) c)
    (s t store : String) (row : TurnRow) (plan : Json) (steps : List Json)
    (hrow : c.shared.server.db.turns (s, t) = some row) (hplan : json_loads row.plan = .ok plan)
    (hitems : iterate plan = .ok steps) :
    ∃ r w', (x.run_turn s t none none none).run ⟨rest c.shared.server.db, c.shared.files, fun _ => none⟩ =
        some (r, w') ∧
      ((∃ rs, r = .ok rs) → ∃ row', w'.server.db.turns (s, t) = some row' ∧ row'.state = .committed) ∧
      (Respects s t row.commit_id store steps c.shared.server.db r w' ↔
        Fits s t row.commit_id store steps c.shared.server.db c.shared.files) := by
  have hledger : Ledger c.shared.server.db := ledger_ok clients pg h₀ hc
  obtain ⟨r, w', ran, ep, db', hrun, hfiles, hcharges, htracks, hran, hlongest, hok, hturn⟩ :=
    run_turn_outcome x c.shared.files (fun _ => none) hledger hrow hplan hitems
  refine ⟨r, w', hrun, fun hret => ⟨_, hturn hret, rfl⟩, ?_⟩
  exact ⟨fits_of_respects hledger htracks hcharges hfiles hlongest hok,
    respects_of_fits hledger htracks hcharges hfiles hran hlongest hok⟩

/-! A turn of one step, whose arguments are those of a charge, before any call. -/

open Interrupt (clerk orderArgs first_taken order_billable)

section Example

local instance driver : Driver := .sqlite

def classStep (klass : String) : Json :=
  .obj [(.str "ordinal", .int 0), (.str "klass", .str klass), (.str "args", orderArgs)]

def classRow (klass : String) : TurnRow := ⟨"c", (Json.arr [classStep klass]).dumps, .open⟩

def classWorld (klass : String) : World Unit :=
  ⟨rest { Db.empty with turns := Function.update (fun _ => none) ("s", "t") (some (classRow klass)) }, .empty,
    fun _ => none⟩

/-- Nobody calls. -/
def idle : Content.Clients Unit := ⟨fun _ => [], fun _ => 0⟩

variable (klass : String)

theorem classWorld_start : Start (classWorld klass) where
  quiescent := quiescent_rest _ _
  no_rows _ := rfl
  no_charges := rfl

theorem classWorld_reachable :
    (idle.system false).Reachable (· = classWorld klass) ⟨classWorld klass, fun _ => .fresh⟩ :=
  Lts.Reachable.start ⟨rfl, fun _ => rfl⟩

theorem classWorld_turn : (classWorld klass).server.db.turns ("s", "t") = some (classRow klass) := by
  show Function.update (fun _ => none) ("s", "t") (some (classRow klass)) ("s", "t") = _
  exact Function.update_self ..

theorem classRow_plan : json_loads (classRow klass).plan = .ok (.arr [classStep klass]) := by
  rw [classRow, json_loads, Json.loads_dumps]
  rfl

theorem declared_classStep {k : String} (h : Declared k (classStep klass)) : k = klass := by
  cases (show Except.ok (Json.str klass) = .ok (Json.str k) from h)
  rfl

/-- It would be charged. -/
theorem classStep_inserts : Inserts "s" "t" "c" (classWorld klass).server.db [] (classStep klass)
    (action_id "s" "t" "c" (.int 0)) := by
  obtain ⟨afp, hafp, -⟩ := Content.orderArgs_fingerprint
  exact ⟨⟨_, rfl, first_taken⟩, rfl, rfl, orderArgs, afp, rfl, hafp, _, _, rfl, rfl, order_billable⟩

/-- A transactional step is charged. -/
theorem run_turn_respects_transactional : ∃ r w',
    (clerk.run_turn "s" "t" none none none).run (classWorld "transactional") = some (r, w') ∧
      Respects "s" "t" "c" "/x" [classStep "transactional"] (classWorld "transactional").server.db r w' := by
  obtain ⟨r, w', hrun, -, hiff⟩ := run_turn_respects clerk idle false _ (classWorld_start "transactional") _
    (classWorld_reachable "transactional") "s" "t" "/x" _ _ _ (classWorld_turn "transactional")
    (classRow_plan "transactional") rfl
  refine ⟨r, w', hrun, hiff.mpr ⟨?_, ?_⟩⟩
  · intro done step later aid _ _ _ step' hmem hdecl
    rw [List.mem_singleton.mp hmem] at hdecl
    exact absurd (declared_classStep _ hdecl) (by decide)
  · intro _ step hmem aid _
    rw [List.mem_singleton.mp hmem]
    exact ⟨fun _ row hrow => (nomatch hrow), fun hdecl => absurd (declared_classStep _ hdecl) (by decide)⟩

/-- So is an overlay. -/
theorem not_run_turn_respects : ¬ ∀ (x : DTX Unit) (clients : Content.Clients Unit) (pg : Bool) (w₀ : World Unit),
    Start w₀ → ∀ c, (clients.system pg).Reachable (· = w₀) c → ∀ s t store row plan steps,
      c.shared.server.db.turns (s, t) = some row → json_loads row.plan = .ok plan → iterate plan = .ok steps →
      (∀ step ∈ steps, Declared "transactional" step ∨ Declared "overlay" step) → ∀ r w',
        (x.run_turn s t none none none).run ⟨rest c.shared.server.db, c.shared.files, fun _ => none⟩ = some (r, w') →
          Respects s t row.commit_id store steps c.shared.server.db r w' := by
  intro h
  have hledger : Ledger (classWorld "overlay").server.db :=
    ledger_ok idle false (classWorld_start "overlay") (classWorld_reachable "overlay")
  obtain ⟨r, w', ran, ep, db', hrun, hfiles, hcharges, htracks, hran, hlongest, hok, -⟩ :=
    run_turn_outcome clerk .empty (fun _ => none) hledger (classWorld_turn "overlay")
      (classRow_plan "overlay") rfl
  have hdecl : ∀ step ∈ [classStep "overlay"], Declared "transactional" step ∨ Declared "overlay" step := by
    intro step hmem
    rw [List.mem_singleton.mp hmem]
    exact Or.inr rfl
  have hresp := h clerk idle false _ (classWorld_start "overlay") _ (classWorld_reachable "overlay") "s" "t" "/x" _ _ _
    (classWorld_turn "overlay") (classRow_plan "overlay") rfl hdecl r w' hrun
  have hfits := fits_of_respects hledger htracks hcharges hfiles hlongest hok hresp
  exact hfits.never [] (classStep "overlay") [] _ rfl .nil (classStep_inserts "overlay") _
    List.mem_cons_self rfl rfl

end Example

end AgentTx.Dtx.Classes
