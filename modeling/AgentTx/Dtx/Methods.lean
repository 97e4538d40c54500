import AgentTx.Dtx.Contract

/-!
# `Dtx.Methods` — what each method of `DTX` does, under any contract

One triple per method. A method that publishes something asks the contract for that step, on the public
state at that moment; between its statements the others may do what the contract allows them.

A contract that is about one kind of step only still has to answer for all methods. So each triple asks for what its
method publishes and for nothing else: `acquire` for the new epoch, `begin_turn` for the row of the turn, `do_charge`
for the commit of its three writes (`ChargeOk`), and the end of a turn for its state.

Layout:
* **Acquire, load, begin, commit** — methods of one transaction each.
* **`do_charge`** — the claim decides (`claim`): won, the writes stay pending up to the commit; lost, the row that was
  found answers. The row of the claim is locked, so what is known of it is stable (`keeps_action`).
* **Turns** — the loop over the plan with an assertion for the steps to come (`runSteps`), the two workers of the
  gates (`gateWorker`), and `run_turn`.

The rules that end in `_owner` say in addition that on PostgreSQL the token was the epoch when the call returned.
-/

namespace AgentTx.Dtx

/-- What the row of an action that is found done says that the action returned. -/
def ActionRow.value (ex : ActionRow) : Except Exn (Option Json) :=
  match ex.result with
  | none => .ok none
  | some text => some <$> json_loads text

theorem ActionRow.value_dumps {r : ActionRow} {v : Json} (h : r.result = some v.dumps) :
    r.value = .ok (some v.stringKeys) := by
  simp only [ActionRow.value, h, json_loads, Json.loads_dumps]
  rfl

namespace Contract

variable {ι : Type} [DecidableEq ι] [Driver] {C : Contract ι} {c : DTX ι} {F G : Public ι → Prop}

/-- The public state after an `acquire`. -/
def acquired (i : ι) (session turn : String) (ep : Nat) (p : Public ι) : Public ι :=
  { p.commit [.setOwner session turn ep] with held := Function.update p.held i (some ep) }

section Acquired

variable {i j : ι} {s t : String} {ep : Nat} {p : Public ι}

omit [Driver] in
theorem acquired_held : (acquired i s t ep p).held i = some ep := Function.update_self ..

omit [Driver] in
theorem acquired_held_of_ne (hji : j ≠ i) : (acquired i s t ep p).held j = p.held j :=
  Function.update_of_ne hji _ _

omit [Driver] in
theorem acquired_owner : (acquired i s t ep p).db.turn_owner (s, t) = some ep := Function.update_self ..

omit [DecidableEq ι] [Driver] in
/-- The new epoch is above the old one. -/
theorem lt_of_acquire (hep : (p.db.turn_owner (s, t)).elim 1 (· + 1) = ep) {e : Nat}
    (he : p.db.turn_owner (s, t) = some e) : e < ep := by
  rw [he] at hep
  exact hep ▸ Nat.lt_succ_self e

omit [Driver] in
/-- No epoch goes down. -/
theorem acquired_epoch (hep : (p.db.turn_owner (s, t)).elim 1 (· + 1) = ep) {k : String × String} {e : Nat}
    (he : p.db.turn_owner k = some e) :
    ∃ e', (acquired i s t ep p).db.turn_owner k = some e' ∧ e ≤ e' := by
  by_cases hk : k = (s, t)
  · subst hk
    exact ⟨ep, acquired_owner, Nat.le_of_lt (lt_of_acquire hep he)⟩
  · refine ⟨e, ?_, Nat.le_refl e⟩
    show Function.update p.db.turn_owner (s, t) (some ep) k = some e
    rw [Function.update_of_ne hk]
    exact he

end Acquired

omit [Driver] in
/-- **`acquire`.** The token is one more than the turn's epoch, under the lock of its row. -/
theorem acquire {s t : String} {E : Exn → World ι → Prop} {Q : Nat → Public ι → Prop}
    (hF : C.Keeps c.conn [] F)
    (h : ∀ p ep, C.inv p → F p → (p.db.turn_owner (s, t)).elim 1 (· + 1) = ep →
      C.inv (acquired c.conn s t ep p) ∧ C.may c.conn p (acquired c.conn s t ep p) ∧
        Q ep (acquired c.conn s t ep p)) :
    (C.rules c.pg).Triple c.conn (At c.pg c.conn [] [] F) (c.acquire s t)
      (fun ep => At c.pg c.conn [] [] (Q ep)) E := by
  -- the epoch read stays the turn's until the commit, under the lock of its row
  have hupsert : (C.rules c.pg).Triple c.conn (At c.pg c.conn [] [] F)
      (c.upsert_owner s t)
      (fun ep => At c.pg c.conn [.setOwner s t ep] [.owner s t] fun p =>
        F p ∧ (p.db.turn_owner (s, t)).elim 1 (· + 1) = ep) E := by
    refine triple_execute (stable_at hF) fun w ep srv hw hat _ hf => ?_
    obtain ⟨srv', hsrv, hr⟩ := Option.map_eq_some_iff.mp hf
    cases hr
    have hat' := hat.lock hsrv
    have hview : c.view srv' = srv'.db := TxServer.view_of_pending_nil hat'.pending
    refine ⟨(Quiet.lock hsrv).trans (Quiet.write (hat'.locks _ List.mem_cons_self)), ?_⟩
    refine (hat'.write (v := .setOwner s t _)).mono (fun l hl => hl) fun hF => ⟨hF, ?_⟩
    rw [hview]
    rfl
  refine hupsert.bind fun ep => RelyGuarantee.Triple.bind
    (Q := fun _ => At c.pg c.conn [] [] (Q ep)) ?_ fun _ => fun _ _ hq => hq
  have hkeeps : C.Keeps c.conn [.owner s t] fun p =>
      F p ∧ (p.db.turn_owner (s, t)).elim 1 (· + 1) = ep := by
    refine (hF.mono fun l hl => absurd hl List.not_mem_nil).and ?_
    refine keeps_row (l := .owner s t) List.mem_cons_self nofun fun p p' hrow hep => ?_
    rw [← show p.db.turn_owner (s, t) = p'.db.turn_owner (s, t) from hrow]
    exact hep
  refine RelyGuarantee.Triple.modify (stable_at hkeeps) fun w hw hat _ => ?_
  obtain ⟨hinv, hmay, hQ⟩ := h w.pub ep hw.2 hat.fact.1 hat.fact.2
  have hview : w.server.view (scheme c.pg) c.conn =
      (Write.setOwner s t ep).apply w.server.db := by
    rw [TxServer.view, hat.pending]
    rfl
  have hpub : World.pub { w with
      server := w.server.commit (scheme c.pg) c.conn
      held := Function.update w.held c.conn (some ep) } = acquired c.conn s t ep w.pub := by
    rw [World.pub]
    simp only [TxServer.commit_db, hview]
    rfl
  rw [← hpub] at hinv hmay hQ
  refine ⟨⟨fun j hij => ⟨TxServer.commit_frame hw.1 hij, Function.update_of_ne (Ne.symm hij) _ _⟩, hmay⟩,
    ⟨TxServer.commit_covered hw.1, hinv⟩, ⟨TxServer.commit_idle.pending, ?_, hQ⟩⟩
  exact fun l hl => absurd hl List.not_mem_nil

omit [DecidableEq ι] [Driver] in
/-- **`load_plan`.** -/
theorem load_plan {s t : String} {Q : Option (String × Json) → Public ι → Prop}
    (hF : C.Keeps c.conn [] F) (hnone : ∀ p, C.inv p → F p → p.db.turns (s, t) = none → Q none p)
    (hsome : ∀ p r plan, C.inv p → F p → p.db.turns (s, t) = some r → json_loads r.plan = .ok plan →
      Q (some (r.commit_id, plan)) p) :
    (C.rules c.pg).Triple c.conn (At c.pg c.conn [] [] F) (c.load_plan s t)
      (fun o => At c.pg c.conn [] [] (Q o)) fun _ w => F w.pub := by
  have hsel : (C.rules c.pg).Triple c.conn (At c.pg c.conn [] [] F) (c.select_turn s t)
      (fun r => At c.pg c.conn [] [] fun p => F p ∧ C.inv p ∧ p.db.turns (s, t) = r)
      fun _ w => F w.pub :=
    select_turn hF fun p hp hf => ⟨hf, hp, rfl⟩
  refine hsel.bind fun r => ?_
  cases r with
  | none => exact fun w _ hat => hat.mono (fun l hl => hl) fun hf => hnone w.pub hf.2.1 hf.1 hf.2.2
  | some r =>
    refine RelyGuarantee.Triple.bind
      (Q := fun plan w => At c.pg c.conn [] [] (Q (some (r.commit_id, plan))) w) ?_
      fun plan => fun _ _ hq => hq
    refine RelyGuarantee.Triple.ofExcept (fun plan hplan w _ hat => ?_) fun e _ w _ hat => hat.fact.1
    exact hat.mono (fun l hl => hl) fun hf => hsome w.pub r plan hf.2.1 hf.1 hf.2.2 hplan

omit [DecidableEq ι] [Driver] in
/-- `load_plan`, for a caller that goes on to run the steps. -/
theorem load_steps {s t : String} {F : String → List Json → Public ι → Prop} (hG : C.Keeps c.conn [] G)
    (hload : ∀ p r plan items, C.inv p → G p → p.db.turns (s, t) = some r → json_loads r.plan = .ok plan →
      iterate plan = .ok items → F r.commit_id items p) :
    (C.rules c.pg).Triple c.conn (At c.pg c.conn [] [] G) (c.load_plan s t)
      (fun o => At c.pg c.conn [] [] fun p =>
        ∀ cid plan, o = some (cid, plan) → ∀ items, iterate plan = .ok items → F cid items p)
      fun _ _ => True := by
  refine (load_plan hG (fun p hp hg _ => nofun) ?_).conseq (fun _ _ h => h) (fun _ _ _ h => h)
    fun _ _ _ _ => trivial
  rintro p r plan hp hg hr hplan cid _ ⟨⟩ items hitems
  exact hload p r plan items hp hg hr hplan hitems

omit [Driver] in
/-- **`begin_turn`.** The turn has a plan then, this one or another; the commit id returned is this
    plan's. -/
theorem begin_turn {s t : String} {plan : List Json} {Q : String → Public ι → Prop}
    (hF : C.Keeps c.conn [] F) (hQ : ∀ cid, C.Keeps c.conn [] (Q cid))
    (hnew : ∀ p cid, C.inv p → F p → commit_id_of (.arr plan) = some cid → p.db.turns (s, t) = none →
      let p' := p.commit [.insertTurn s t ⟨cid, (Json.arr plan).dumps, .open⟩]
      C.inv p' ∧ C.may c.conn p p' ∧ Q cid p')
    (hold : ∀ p cid r, C.inv p → F p → C.ok c.conn (.insert_turn s t) p →
      commit_id_of (.arr plan) = some cid → p.db.turns (s, t) = some r → Q cid p) :
    (C.rules c.pg).Triple c.conn (At c.pg c.conn [] [] F) (c.begin_turn s t plan)
      (fun cid => At c.pg c.conn [] [] (Q cid)) fun _ w => F w.pub := by
  refine RelyGuarantee.Triple.bind (Q := fun cid w => commit_id_of (.arr plan) = some cid ∧
    At c.pg c.conn [] [] F w) ?_ fun cid => ?_
  · exact .ofOption (fun cid hcid w _ hat => ⟨hcid, hat⟩) fun _ w _ hat => hat.fact
  intro w hw hpre
  obtain ⟨hcid, hat⟩ := hpre
  have hins : (C.rules c.pg).Triple c.conn (At c.pg c.conn [] [] F)
      (c.insert_turn s t cid (Json.arr plan).dumps) _ fun _ w => F w.pub :=
    insertUnless (H := fun p => F p ∧ (p.db.turns (s, t)).isSome = false) (l := .turn s t) rfl hF
      (fun p _ hf _ hnone => ⟨hf, hnone⟩) fun p hp hf hok hold' => by
        obtain ⟨r, hr⟩ := Option.isSome_iff_exists.mp hold'
        exact hold p cid r hp hf hok hcid hr
  refine RelyGuarantee.Triple.bind hins (fun b => ?_) w hw hat
  refine RelyGuarantee.Triple.bind (Q := fun _ => At c.pg c.conn [] [] (Q cid)) ?_
    fun _ => fun _ _ hq => hq
  cases b with
  | true =>
    have hrow : C.Keeps c.conn [.turn s t] fun p => (p.db.turns (s, t)).isSome = false :=
      keeps_row (l := .turn s t) List.mem_cons_self nofun fun p p' hrow hx => by
        rw [← show p.db.turns (s, t) = p'.db.turns (s, t) from hrow]
        exact hx
    have hkeeps := (hF.mono fun l (hl : l ∈ []) => absurd hl List.not_mem_nil).and hrow
    exact commit hkeeps fun p hp hf => hnew p cid hp hf.1 hcid (by simpa using hf.2)
  | false =>
    -- the row is there for good: the transaction has nothing to commit
    have hdone : (C.rules c.pg).Triple c.conn (At c.pg c.conn [] [] (Q cid)) c.commit
        (fun _ => At c.pg c.conn [] [] (Q cid)) fun _ w => F w.pub :=
      commit (hQ cid) fun p hp hq => ⟨hp, C.may_refl _ _, hq⟩
    exact hdone

omit [Driver] in
/-- **The end of a turn.** A turn without a plan has nothing to be set. -/
theorem commit_turn {s t : String} {Q : Public ι → Prop} (hF : C.Keeps c.conn [] F) (hQ : C.Keeps c.conn [] Q)
    (h : ∀ p, C.inv p → F p → C.inv (p.commit [.setCommitted s t]) ∧
      C.may c.conn p (p.commit [.setCommitted s t]) ∧ Q (p.commit [.setCommitted s t]))
    (hnone : ∀ p, C.inv p → F p → p.db.turns (s, t) = none → Q p) :
    (C.rules c.pg).Triple c.conn (At c.pg c.conn [] [] F) (c.commit_turn s t)
      (fun _ => At c.pg c.conn [] [] Q) fun _ _ => True := by
  have hset : (C.rules c.pg).Triple c.conn (At c.pg c.conn [] [] F) (c.set_committed s t)
      (fun _ w => At c.pg c.conn [] [] Q w ∨ At c.pg c.conn [.setCommitted s t] [] F w)
      fun _ _ => True := by
    refine triple_execute (stable_at hF) fun w b srv hw hat _ hf => ?_
    split_ifs at hf with hrow
    · -- on PostgreSQL an UPDATE that matches no row locks and writes nothing
      cases hf
      rw [view_eq hat.pending, Bool.and_eq_true, Option.isNone_iff_eq_none] at hrow
      exact ⟨.refl, Or.inl (hat.mono (fun l hl => hl) fun hf => hnone w.pub hw hf hrow.2)⟩
    · obtain ⟨srv', hsrv, hr⟩ := Option.map_eq_some_iff.mp hf
      cases hr
      have hat' := hat.lock hsrv
      refine ⟨(Quiet.lock hsrv).trans (Quiet.write (hat'.locks _ List.mem_cons_self)), Or.inr ?_⟩
      exact hat'.write.mono (fun l hl => absurd hl List.not_mem_nil) id
  refine hset.bind fun _ => ?_
  -- the transaction's commit, empty or of the one write
  rintro w hw (hat | hat)
  · have hdone : (C.rules c.pg).Triple c.conn (At c.pg c.conn [] [] Q) c.commit
        (fun _ => At c.pg c.conn [] [] Q) fun _ _ => True :=
      commit hQ fun p hp hq => ⟨hp, C.may_refl _ _, hq⟩
    exact hdone w hw hat
  · exact commit hF h w hw hat

/-! ## `do_charge` -/

/-- The writes of a charge. -/
def chargeWrites (aid : String) (row : ActionRow) (order amount : Json) : List Write :=
  [.insertAction aid row, .insertCharge ⟨order, amount, aid⟩,
    .setResult aid (Json.obj [(.str "order", order), (.str "amount", amount)]).dumps]

section Charged

variable {p : Public ι} {aid aid' : String} {row : ActionRow} {order amount : Json}

omit [DecidableEq ι]

omit [Driver] in
theorem charged_action_self : (p.commit (chargeWrites aid row order amount)).db.actions aid =
    some { row with result := some (Json.obj [(.str "order", order), (.str "amount", amount)]).dumps } := by
  show (Table.update (Function.update p.db.actions aid (some row)) aid _) aid = _
  rw [Table.update_self, Function.update_self]
  rfl

omit [Driver] in
theorem charged_action_of_ne (h : aid' ≠ aid) :
    (p.commit (chargeWrites aid row order amount)).db.actions aid' = p.db.actions aid' := by
  show (Table.update (Function.update p.db.actions aid (some row)) aid _) aid' = _
  rw [Table.update_of_ne _ h, Function.update_of_ne h]

omit [Driver] in
theorem charged_chargesOf_self : (p.commit (chargeWrites aid row order amount)).db.chargesOf aid =
    p.db.chargesOf aid ++ [⟨order, amount, aid⟩] := by
  show (p.db.charges ++ [_]).filter _ = _
  rw [List.filter_append, List.filter_singleton]
  simp [Db.chargesOf]

omit [Driver] in
theorem charged_chargesOf_of_ne (h : aid' ≠ aid) :
    (p.commit (chargeWrites aid row order amount)).db.chargesOf aid' = p.db.chargesOf aid' := by
  show (p.db.charges ++ [_]).filter _ = _
  rw [List.filter_append, List.filter_singleton]
  simp [Db.chargesOf, Ne.symm h]

end Charged

/-- What the contract has to allow for a charge: to commit a claim that is won, while — on PostgreSQL —
    the token is the turn's; and to go on when the action is found done. -/
structure ChargeOk (C : Contract ι) (dtx : DTX ι) (s t cid : String) (o : Ordinal) (args : Json) (ep : Nat)
    (F : Public ι → Prop) (G : Tag × Option Json → Public ι → Prop) : Prop where
  win : ∀ p afp order amount, C.inv p → F p → args_fingerprint args = some afp →
    subscript args "order" = .ok order → subscript args "amount" = .ok amount →
    o.taken = true ∧ billable order amount = true →
    (dtx.pg = true → p.db.turn_owner (s, t) = some ep) → p.db.actions (action_id s t cid o) = none →
    let p' := p.commit
      (chargeWrites (action_id s t cid o) (DTX.chargeRow s t o afp ep) order amount)
    C.inv p' ∧ C.may dtx.conn p p' ∧ G (.committed, some (.obj [(.str "order", order), (.str "amount", amount)])) p'
  found : ∀ p afp ex v, C.inv p → F p → args_fingerprint args = some afp → o.taken = true →
    p.db.actions (action_id s t cid o) = some ex → ex.args_fp = afp → ex.value = .ok v → G (.dedup, v) p

/-- What a coordinator knows after it has locked the turn's owner row. -/
def Fenced (c : DTX ι) (s t : String) (ep : Nat) (p : Public ι) : Prop :=
  c.pg = true → p.db.turn_owner (s, t) = some ep

/-- The lock that goes with it. -/
def fenceLocks (c : DTX ι) (s t : String) : List Lock := if c.pg then [.owner s t] else []

omit [DecidableEq ι] [Driver] in
theorem keeps_fenced {s t : String} {ep : Nat} {ls : List Lock} (hls : ∀ l ∈ fenceLocks c s t, l ∈ ls) :
    C.Keeps c.conn ls (Fenced c s t ep) := by
  intro j p p' _ _ _ _ _ hrows hf hpg
  have hl : Lock.owner s t ∈ ls := hls _ (by simp [fenceLocks, hpg])
  have hrow : p.db.turn_owner (s, t) = p'.db.turn_owner (s, t) := hrows _ hl nofun
  rw [← hrow]
  exact hf hpg

omit [DecidableEq ι] [Driver] in
theorem keeps_action {aid : String} {ls : List Lock} (hl : .action aid ∈ ls) (x : Option ActionRow) :
    C.Keeps c.conn ls fun p => p.db.actions aid = x :=
  keeps_row hl nofun fun p p' hrow hx => by
    rw [← show p.db.actions aid = p'.db.actions aid from hrow.1]
    exact hx

/-- The transaction of a charge whose claim is won: its three writes are pending. -/
theorem chargeEffect {aid : String} {args : Json} {row : ActionRow} {mid : Bool} {ls : List Lock}
    {H : Public ι → Prop} (hl : .action aid ∈ ls) (hH : C.Keeps c.conn ls H) :
    (C.rules c.pg).Triple c.conn (At c.pg c.conn [.insertAction aid row] ls H)
      (c.chargeEffect aid args mid)
      (fun r w => ∃ order amount, subscript args "order" = .ok order ∧
        subscript args "amount" = .ok amount ∧ billable order amount = true ∧
        r = (.committed, some (.obj [(.str "order", order), (.str "amount", amount)])) ∧
        At c.pg c.conn (chargeWrites aid row order amount) ls H w)
      fun _ w => H w.pub := by
  -- the arguments are read before anything is written
  refine RelyGuarantee.Triple.bind (Q := fun order w => subscript args "order" = .ok order ∧
    At c.pg c.conn [.insertAction aid row] ls H w) ?_ fun order => ?_
  · exact .ofExcept (fun a ha w _ hat => ⟨ha, hat⟩) fun _ _ w _ hat => hat.fact
  refine RelyGuarantee.Triple.bind (Q := fun amount w => (subscript args "order" = .ok order ∧
    subscript args "amount" = .ok amount) ∧ At c.pg c.conn [.insertAction aid row] ls H w)
    ?_ fun amount => ?_
  · exact .ofExcept (fun a ha w _ hat => ⟨⟨hat.1, ha⟩, hat.2⟩) fun _ _ w _ hat => hat.2.fact
  intro w hw hpre
  obtain ⟨hargs, hat⟩ := hpre
  refine RelyGuarantee.Triple.bind (insert_charge hl hH fun _ _ hf => hf) (fun _ w hw hat => ?_) w hw hat
  obtain ⟨hbill, hat⟩ := hat
  -- where the charge may be made to crash
  cases mid with
  | true => exact hat.fact
  | false =>
    have hset : (C.rules c.pg).Triple c.conn
        (At c.pg c.conn [.insertAction aid row, .insertCharge ⟨order, amount, aid⟩] ls H)
        (c.set_result aid (Json.obj [(.str "order", order), (.str "amount", amount)]).dumps)
        (fun _ => At c.pg c.conn (chargeWrites aid row order amount) (.action aid :: ls) H)
        fun _ w => H w.pub :=
      lock_write hH fun _ => rfl
    refine RelyGuarantee.Triple.bind hset (fun _ => ?_) w hw hat
    refine fun w _ hat => ⟨order, amount, hargs.1, hargs.2, hbill, rfl, ?_⟩
    exact hat.mono (fun l hl => List.mem_cons_of_mem _ hl) id

omit [DecidableEq ι] [Driver] in
/-- The transaction of a charge found done: nothing is pending. -/
theorem chargeFound {aid afp : String} {ls : List Lock} {G : Tag × Option Json → Public ι → Prop}
    (hF : C.Keeps c.conn ls F)
    (hG : ∀ p ex v, C.inv p → F p → p.db.actions aid = some ex → ex.args_fp = afp → ex.value = .ok v →
      G (.dedup, v) p) :
    (C.rules c.pg).Triple c.conn (At c.pg c.conn [] ls F) (c.chargeFound aid afp)
      (fun r => At c.pg c.conn [] ls (G r)) fun _ w => F w.pub := by
  have hsel : (C.rules c.pg).Triple c.conn (At c.pg c.conn [] ls F) (c.select_action aid)
      (fun r => At c.pg c.conn [] ls fun p => F p ∧ ∀ ex v, r = some ex → ex.args_fp = afp →
        ex.value = .ok v → G (.dedup, v) p)
      fun _ w => F w.pub :=
    select_action hF fun p hp hf => ⟨hf, fun ex v hex hfp hv => hG p ex v hp hf hex hfp hv⟩
  refine hsel.bind fun r => ?_
  cases r with
  -- no row to subscript: `ex[0]` raises
  | none => exact fun w _ hat => hat.fact.1
  | some ex =>
    -- the same id with other arguments is a content mismatch
    by_cases hfp : ex.args_fp = afp
    · simp only [ne_eq, hfp, not_true_eq_false, if_false]
      have hpost : ∀ v, ex.value = .ok v → ∀ w, At c.pg c.conn [] ls (fun p => F p ∧ ∀ ex' v,
          some ex = some ex' → ex'.args_fp = afp → ex'.value = .ok v → G (.dedup, v) p) w →
            At c.pg c.conn [] ls (G (.dedup, v)) w :=
        fun v hv w hat => hat.mono (fun l hl => hl) fun h => h.2 ex v rfl hfp hv
      cases hres : ex.result with
      | none =>
        refine fun w _ hat => hpost none ?_ w hat
        rw [ActionRow.value, hres]
      | some text =>
        refine RelyGuarantee.Triple.bind (Q := fun v => At c.pg c.conn [] ls (G (.dedup, some v))) ?_
          fun _ => fun _ _ hq => hq
        refine .ofExcept (fun v hv w _ hat => hpost (some v) ?_ w hat) fun _ _ w _ hat => hat.fact.1
        simp only [ActionRow.value, hres, hv]
        rfl
    · simp only [ne_eq, hfp, not_false_eq_true, if_true]
      exact fun w _ hat => hat.fact.1

/-- Where a charge that is to return `r` stands before its commit: won, with its writes pending, or found
    done. -/
def Claimed (c : DTX ι) (aid : String) (row : ActionRow) (args : Json) (ls : List Lock)
    (W : Public ι → Prop) (G : Tag × Option Json → Public ι → Prop) (r : Tag × Option Json) (w : World ι) :
    Prop :=
  (∃ order amount, subscript args "order" = .ok order ∧ subscript args "amount" = .ok amount ∧
    (row.taken = true ∧ billable order amount = true) ∧
    r = (.committed, some (.obj [(.str "order", order), (.str "amount", amount)])) ∧
    At c.pg c.conn (chargeWrites aid row order amount) ls W w) ∨
  At c.pg c.conn [] [] (G r) w

/-- **The claim**, made under the locks `ls`. `W` is what is known once it is won; it is kept under `ls'`,
    locks that are held by then. -/
theorem claim {aid afp : String} (row : ActionRow) {args : Json} {mid : Bool} {ls ls' : List Lock}
    {H W : Public ι → Prop} {G : Tag × Option Json → Public ι → Prop} (hH : C.Keeps c.conn ls H)
    (hW : C.Keeps c.conn ls' W)
    (hls' : ∀ l ∈ ls', ∃ l₀ ∈ .action aid :: ls, lockFor c.pg l = lockFor c.pg l₀)
    (haid : .action aid ∈ ls')
    (hwon : ∀ p, C.inv p → H p → C.ok c.conn (.insert_action aid) p → p.db.actions aid = none → W p)
    (hfound : ∀ p ex v, C.inv p → H p → row.taken = true → p.db.actions aid = some ex → ex.args_fp = afp →
      ex.value = .ok v → G (.dedup, v) p)
    (hHF : ∀ p, H p → F p) (hWF : ∀ p, W p → F p) :
    (C.rules c.pg).Triple c.conn (At c.pg c.conn [] ls H)
      (do
        if ← c.insert_action aid row then c.chargeEffect aid args mid else c.chargeFound aid afp)
      (Claimed c aid row args ls' W G) fun _ w => F w.pub := by
  have hins : (C.rules c.pg).Triple c.conn (At c.pg c.conn [] ls H) (c.insert_action aid row)
      (fun b => if b then At c.pg c.conn [.insertAction aid row] (.action aid :: ls) (fun p => row.taken = true ∧ W p)
        else At c.pg c.conn [] ls fun p => row.taken = true ∧ H p) fun _ w => F w.pub :=
    insert_action hH (fun _ w hh => hHF w.pub hh) (fun p hp hh hok htaken hnone => ⟨htaken, hwon p hp hh hok hnone⟩)
      fun _ _ hh _ htaken _ => ⟨htaken, hh⟩
  refine hins.bind fun b => ?_
  cases b with
  -- won: the effect runs under the action's lock
  | true =>
    refine (chargeEffect haid ((keeps_const _).and hW)).conseq (fun w _ hat => hat.sameLocks hls')
      (fun _ w _ hq => Or.inl ?_) fun _ w _ he => hWF w.pub he.2
    obtain ⟨order, amount, horder, hamount, hbill, hr, hat⟩ := hq
    exact ⟨order, amount, horder, hamount, ⟨hat.fact.1, hbill⟩, hr, hat.mono (fun _ hl => hl) And.right⟩
  | false =>
    refine (chargeFound ((keeps_const _).and hH) fun p ex v hp hh => hfound p ex v hp hh.2 hh.1).conseq
      (fun w _ hat => hat) (fun _ w _ hq => Or.inr ?_) fun _ w _ he => hHF w.pub he.2
    exact hq.mono (fun l hl => absurd hl List.not_mem_nil) id

/-- `do_charge`, from its body: the claim that is won is committed. -/
theorem charge {s t cid : String} {o : Ordinal} {args : Json} {ep : Nat} {mid : Bool} {ls : List Lock}
    {W : Public ι → Prop} {G : Tag × Option Json → Public ι → Prop} (hF : C.Keeps c.conn [] F)
    (hG : ∀ r, C.Keeps c.conn [] (G r)) (hW : C.Keeps c.conn ls W)
    (hbody : ∀ afp, args_fingerprint args = some afp →
      (C.rules c.pg).Triple c.conn (At c.pg c.conn [] [] F)
        (c.chargeBody s t (action_id s t cid o) afp o args ep mid)
        (Claimed c (action_id s t cid o) (DTX.chargeRow s t o afp ep) args ls W G)
        fun _ w => F w.pub)
    (hwin : ∀ p afp order amount, C.inv p → W p → args_fingerprint args = some afp →
      subscript args "order" = .ok order → subscript args "amount" = .ok amount →
      o.taken = true ∧ billable order amount = true →
      let p' := p.commit
        (chargeWrites (action_id s t cid o) (DTX.chargeRow s t o afp ep) order amount)
      C.inv p' ∧ C.may c.conn p p' ∧
        G (.committed, some (.obj [(.str "order", order), (.str "amount", amount)])) p') :
    (C.rules c.pg).Triple c.conn (At c.pg c.conn [] [] F)
      (c.do_charge s t cid o args ep mid) (fun r => At c.pg c.conn [] [] (G r))
      fun _ => At c.pg c.conn [] [] F := by
  refine RelyGuarantee.Triple.bind (Q := fun afp w => args_fingerprint args = some afp ∧
    At c.pg c.conn [] [] F w) ?_ fun afp => ?_
  · exact .ofOption (fun afp hafp w _ hat => ⟨hafp, hat⟩) fun _ w _ hat => hat
  intro w hw hpre
  obtain ⟨hafp, hat⟩ := hpre
  -- the commit: of the three writes, or of nothing
  refine transaction (hbody afp hafp) (fun r => ?_) hF w hw hat
  rintro w hw (⟨order, amount, horder, hamount, htaken, rfl, hat⟩ | hat)
  · exact commit hW (fun p hp hwon => hwin p afp order amount hp hwon hafp horder hamount htaken) w hw hat
  · have hdone : (C.rules c.pg).Triple c.conn (At c.pg c.conn [] [] (G r)) c.commit
        (fun _ => At c.pg c.conn [] [] (G r)) fun _ w => F w.pub :=
      commit (hG r) fun p hp hg => ⟨hp, C.may_refl _ _, hg⟩
    exact hdone w hw hat

/-- **`do_charge`.** It ends with what the contract promises for a charge that is done, or raises and
    leaves nothing. -/
theorem do_charge {s t cid : String} {o : Ordinal} {args : Json} {ep : Nat} {mid : Bool}
    {G : Tag × Option Json → Public ι → Prop} (hF : C.Keeps c.conn [] F) (hG : ∀ r, C.Keeps c.conn [] (G r))
    (hok : ChargeOk C c s t cid o args ep F G) :
    (C.rules c.pg).Triple c.conn (At c.pg c.conn [] [] F)
      (c.do_charge s t cid o args ep mid) (fun r => At c.pg c.conn [] [] (G r))
      fun _ => At c.pg c.conn [] [] F := by
  have hfence : C.Keeps c.conn (fenceLocks c s t) fun p => F p ∧ Fenced c s t ep p :=
    (hF.mono fun l hl => absurd hl List.not_mem_nil).and (keeps_fenced fun l hl => hl)
  have hwon : C.Keeps c.conn (.action (action_id s t cid o) :: fenceLocks c s t) fun p =>
      (F p ∧ Fenced c s t ep p) ∧ p.db.actions (action_id s t cid o) = none :=
    (hfence.mono fun l hl => List.mem_cons_of_mem _ hl).and (keeps_action List.mem_cons_self none)
  refine charge hF hG hwon (fun afp hafp => (select_owner hF).bind fun r => ?_)
    fun p afp order amount hp hw hafp horder hamount htaken =>
      hok.win p afp order amount hp hw.1.1 hafp horder hamount htaken hw.1.2 hw.2
  by_cases hr : r = some ep
  · subst hr
    simp only [ne_eq, not_true_eq_false, if_false]
    -- the fence has been passed: the owner row is locked from here to the commit
    refine (claim (DTX.chargeRow s t o afp ep) hfence hwon (fun l hl => ⟨l, hl, rfl⟩) List.mem_cons_self
      (fun _ _ hh _ hn => ⟨hh, hn⟩)
      (fun p ex v hp hf htaken hex hfp hv => hok.found p afp ex v hp hf.1 hafp htaken hex hfp hv) (fun _ hh => hh.1)
      fun _ hw => hw.1.1).pre fun w _ hat => ?_
    refine At.mono hat (fun l hl => ?_) fun hf => ⟨hf.1, fun hpg => hf.2 (by simp [hpg])⟩
    simpa [fenceLocks] using hl
  · simp only [ne_eq, hr, not_false_eq_true, if_true]
    exact fun w _ hat => hat.fact.1

omit [DecidableEq ι] [Driver] in
/-- Under the lock of the owner row the token is the turn's. -/
theorem keeps_owner {s t : String} {ep : Nat} (hF : C.Keeps c.conn [] F) :
    C.Keeps c.conn [.owner s t] fun p => F p ∧ p.db.turn_owner (s, t) = some ep := by
  refine (hF.mono fun l hl => absurd hl List.not_mem_nil).and ?_
  refine keeps_row (l := .owner s t) List.mem_cons_self nofun fun p p' hrow hep => ?_
  rw [← show p.db.turn_owner (s, t) = p'.db.turn_owner (s, t) from hrow]
  exact hep

/-- The body of `do_charge` on PostgreSQL: whether the claim is won or the action is found done, the owner row is
    still locked when it ends. -/
theorem chargeBody_owner {s t aid afp : String} {o : Ordinal} {args : Json} {ep : Nat} {mid : Bool} (hpg : c.pg = true)
    (hF : C.Keeps c.conn [] F) :
    (C.rules c.pg).Triple c.conn (At c.pg c.conn [] [] F) (c.chargeBody s t aid afp o args ep mid)
      (fun _ w => (∃ order amount, At c.pg c.conn (chargeWrites aid (DTX.chargeRow s t o afp ep) order amount)
          [.action aid, .owner s t]
          (fun p => (F p ∧ p.db.turn_owner (s, t) = some ep) ∧ p.db.actions aid = none) w) ∨
        At c.pg c.conn [] [.owner s t] (fun p => F p ∧ p.db.turn_owner (s, t) = some ep) w)
      fun _ w => F w.pub := by
  have howner : C.Keeps c.conn [.owner s t] fun p => F p ∧ p.db.turn_owner (s, t) = some ep := keeps_owner hF
  have hwon : C.Keeps c.conn [.action aid, .owner s t] fun p =>
      (F p ∧ p.db.turn_owner (s, t) = some ep) ∧ p.db.actions aid = none :=
    (howner.mono fun l hl => List.mem_cons_of_mem _ hl).and (keeps_action List.mem_cons_self none)
  -- the fence: the owner row is locked from here on
  refine (select_owner hF).bind fun r => ?_
  by_cases hr : r = some ep
  · subst hr
    simp only [ne_eq, not_true_eq_false, if_false]
    -- the claim, under that lock
    have hins : (C.rules c.pg).Triple c.conn
        (At c.pg c.conn [] [.owner s t] fun p => F p ∧ p.db.turn_owner (s, t) = some ep)
        (c.insert_action aid (DTX.chargeRow s t o afp ep)) _ fun _ w => F w.pub :=
      insert_action (H := fun p => (F p ∧ p.db.turn_owner (s, t) = some ep) ∧ p.db.actions aid = none) howner
        (fun _ _ hf => hf.1) (fun _ _ hf _ _ hnone => ⟨hf, hnone⟩) fun _ _ hf _ _ _ => hf
    refine (hins.bind fun b => ?_).pre fun w _ hat => ?_
    · cases b with
      | true =>
        refine (chargeEffect List.mem_cons_self hwon).conseq (fun _ _ hat => hat) ?_ fun _ _ _ he => he.1.1
        rintro _ w - ⟨order, amount, -, -, -, -, hat⟩
        exact Or.inl ⟨order, amount, hat⟩
      | false =>
        exact (chargeFound howner fun _ _ _ _ hf _ _ _ => hf).conseq (fun _ _ hat => hat)
          (fun _ _ _ hat => Or.inr hat) fun _ _ _ he => he.1
    · simpa [hpg] using hat
  · simp only [ne_eq, hr, not_false_eq_true, if_true]
    exact fun w _ hat => hat.fact.1

/-- **`do_charge` on PostgreSQL, at the moment it returns**: the token is the turn's then, and may be overtaken
    afterwards. -/
theorem do_charge_owner {s t cid : String} {o : Ordinal} {args : Json} {ep : Nat} {mid : Bool} (hpg : c.pg = true)
    (hF : C.Keeps c.conn [] F)
    (hwin : ∀ p afp order amount, C.inv p → F p → p.db.turn_owner (s, t) = some ep →
      p.db.actions (action_id s t cid o) = none →
      let p' := p.commit (chargeWrites (action_id s t cid o) (DTX.chargeRow s t o afp ep) order amount)
      C.inv p' ∧ C.may c.conn p p' ∧ F p') :
    (C.rules c.pg).Triple c.conn (At c.pg c.conn [] [] F) (c.do_charge s t cid o args ep mid)
      (fun _ => At c.pg c.conn [] [] fun p => F p ∧ p.db.turn_owner (s, t) = some ep)
      fun _ => At c.pg c.conn [] [] F := by
  have howner : C.Keeps c.conn [.owner s t] fun p => F p ∧ p.db.turn_owner (s, t) = some ep := keeps_owner hF
  refine RelyGuarantee.Triple.bind (Q := fun _ => At c.pg c.conn [] [] F) ?_ fun afp => ?_
  · exact .ofOption (fun _ _ _ _ hat => hat) fun _ _ _ hat => hat
  refine transaction (chargeBody_owner hpg hF) (fun r => ?_) hF
  rintro w hw (⟨order, amount, hat⟩ | hat)
  · -- won: its writes are committed under both locks
    refine commit ((howner.mono fun l hl => List.mem_cons_of_mem _ hl).and
      (keeps_action List.mem_cons_self none)) (fun p hp hf => ?_) w hw hat
    obtain ⟨hinv, hmay, hF'⟩ := hwin p afp order amount hp hf.1.1 hf.1.2 hf.2
    exact ⟨hinv, hmay, hF', hf.1.2⟩
  · have hdone : (C.rules c.pg).Triple c.conn
        (At c.pg c.conn [] [.owner s t] fun p => F p ∧ p.db.turn_owner (s, t) = some ep) c.commit
        (fun _ => At c.pg c.conn [] [] fun p => F p ∧ p.db.turn_owner (s, t) = some ep) fun _ w => F w.pub :=
      commit howner fun p hp hf => ⟨hp, C.may_refl _ _, hf⟩
    exact hdone w hw hat

/-! ## Turns -/

/-- **The loop of `run_turn`.** `F steps rs` is what is known when `steps` are still to come and `rs` is
    what those before them returned. -/
theorem runSteps {s t cid : String} {ep : Nat} {crash_at : Option Int}
    {F : List Json → List (Tag × Option Json) → Public ι → Prop} (hF : ∀ steps rs, C.Keeps c.conn [] (F steps rs))
    (hok : ∀ step steps rs o args, (subscript step "ordinal" >>= asOrdinal) = .ok o →
      subscript step "args" = .ok args →
      ChargeOk C c s t cid o args ep (F (step :: steps) rs) fun r => F steps (rs ++ [r])) :
    ∀ steps rs₀, (C.rules c.pg).Triple c.conn (At c.pg c.conn [] [] (F steps rs₀))
      (c.runSteps s t cid ep crash_at steps) (fun rs => At c.pg c.conn [] [] (F [] (rs₀ ++ rs)))
      fun _ _ => True
  | [], rs₀ => fun w _ hat => by
      show At c.pg c.conn [] [] (F [] (rs₀ ++ [])) w
      rw [List.append_nil]
      exact hat
  | step :: steps, rs₀ => by
      refine RelyGuarantee.Triple.bind (Q := fun o w => (subscript step "ordinal" >>= asOrdinal) = .ok o ∧
        At c.pg c.conn [] [] (F (step :: steps) rs₀) w) ?_ fun o => ?_
      · exact .ofExcept (fun o ho w _ hat => ⟨ho, hat⟩) fun _ _ _ _ _ => trivial
      refine RelyGuarantee.Triple.bind (Q := fun args w => ((subscript step "ordinal" >>= asOrdinal) = .ok o ∧
        subscript step "args" = .ok args) ∧ At c.pg c.conn [] [] (F (step :: steps) rs₀) w) ?_
        fun args => ?_
      · exact .ofExcept (fun args hargs w _ hat => ⟨⟨hat.1, hargs⟩, hat.2⟩) fun _ _ _ _ _ => trivial
      intro w hw hpre
      obtain ⟨⟨ho, hargs⟩, hat⟩ := hpre
      -- one step is charged, and the others follow
      have hcharge : (C.rules c.pg).Triple c.conn (At c.pg c.conn [] [] (F (step :: steps) rs₀))
          (c.do_charge s t cid o args ep (crash_at.any o.isInt))
          (fun r => At c.pg c.conn [] [] (F steps (rs₀ ++ [r]))) fun _ _ => True :=
        (do_charge (hF (step :: steps) rs₀) (fun r => hF steps _) (hok step steps rs₀ o args ho hargs)).conseq
          (fun _ _ h => h) (fun _ _ _ h => h) fun _ _ _ _ => trivial
      refine RelyGuarantee.Triple.bind hcharge (fun r => ?_) w hw hat
      refine (runSteps hF hok steps (rs₀ ++ [r])).bind fun rs => fun w _ hat => ?_
      show At c.pg c.conn [] [] (F [] (rs₀ ++ r :: rs)) w
      rw [List.append_cons]
      exact hat

/-- **The loop, at the moment it ends**: the last charge, if there is one, has just checked the token. -/
theorem runSteps_owner {s t cid : String} {ep : Nat} {crash_at : Option Int} (hpg : c.pg = true)
    (hF : C.Keeps c.conn [] F)
    (hwin : ∀ p o afp order amount, C.inv p → F p → p.db.turn_owner (s, t) = some ep →
      p.db.actions (action_id s t cid o) = none →
      let p' := p.commit (chargeWrites (action_id s t cid o) (DTX.chargeRow s t o afp ep) order amount)
      C.inv p' ∧ C.may c.conn p p' ∧ F p') (steps : List Json) :
    (C.rules c.pg).Triple c.conn (At c.pg c.conn [] [] F) (c.runSteps s t cid ep crash_at steps)
      (fun _ => At c.pg c.conn [] [] fun p => F p ∧ (steps ≠ [] → p.db.turn_owner (s, t) = some ep))
      fun _ _ => True := by
  induction steps with
  | nil => exact fun _ _ hat => hat.mono (fun _ hl => hl) fun hf => ⟨hf, fun h => absurd rfl h⟩
  | cons step steps ih =>
    refine RelyGuarantee.Triple.bind (Q := fun _ => At c.pg c.conn [] [] F) ?_ fun o => ?_
    · exact .ofExcept (fun _ _ _ _ hat => hat) fun _ _ _ _ _ => trivial
    refine RelyGuarantee.Triple.bind (Q := fun _ => At c.pg c.conn [] [] F) ?_ fun args => ?_
    · exact .ofExcept (fun _ _ _ _ hat => hat) fun _ _ _ _ _ => trivial
    have hcharge : (C.rules c.pg).Triple c.conn (At c.pg c.conn [] [] F)
        (c.do_charge s t cid o args ep (crash_at.any o.isInt))
        (fun _ => At c.pg c.conn [] [] fun p => F p ∧ p.db.turn_owner (s, t) = some ep) fun _ _ => True :=
      (do_charge_owner hpg hF fun p => hwin p o).conseq (fun _ _ h => h) (fun _ _ _ h => h) fun _ _ _ _ => trivial
    refine hcharge.bind fun r => ?_
    -- the charge just made is the last one, or the rest of the loop ends with another
    cases steps with
    | nil => exact fun w _ hat => hat.mono (fun _ hl => hl) fun hf => ⟨hf.1, fun _ => hf.2⟩
    | cons step' steps' =>
      refine (ih.pre fun w _ hat => ?_).bind fun rs => ?_
      · exact hat.mono (fun _ hl => hl) fun hf => hf.1
      · exact fun w _ hat => hat.mono (fun _ hl => hl) fun hf => ⟨hf.1, fun _ => hf.2 (by simp)⟩

omit [Driver] in
/-- A process ends by closing its connection, whatever happened. -/
theorem process {body : DtxProg ι Unit} {P : World ι → Prop}
    (h : (C.rules c.pg).Triple c.conn P body (fun _ _ => True) fun _ _ => True) :
    (C.rules c.pg).Triple c.conn P
      (do
        Prog.tryCatch body fun _ => pure ()
        c.rollback)
      (fun _ _ => True) fun _ _ => True := by
  refine RelyGuarantee.Triple.bind (h.tryCatch fun _ => fun _ _ _ => trivial) fun _ => ?_
  have hclose : (C.rules c.pg).Triple c.conn (fun _ => True) c.rollback
      (fun _ => At c.pg c.conn [] [] fun _ => True) fun _ _ => True :=
    rollback (keeps_const True)
  exact hclose.post fun _ _ _ _ => trivial

omit [Driver] in
/-- **A gate's worker.** `A ep` is what is known once the token is held, and `F cid ep steps` when `steps`
    of the durable plan are still to come. -/
theorem gateWorker {s t : String} {action : String → Ordinal → Json → Nat → DtxProg ι Bool}
    {P : Public ι → Prop} {A : Nat → Public ι → Prop} {F : String → Nat → List Json → Public ι → Prop}
    (hacq : (C.rules c.pg).Triple c.conn (At c.pg c.conn [] [] P) (c.acquire s t)
      (fun ep => At c.pg c.conn [] [] (A ep)) fun _ _ => True)
    (hA : ∀ ep, C.Keeps c.conn [] (A ep)) (hF : ∀ cid ep, C.Keeps c.conn [] (F cid ep []))
    (hload : ∀ ep p r plan items, C.inv p → A ep p → p.db.turns (s, t) = some r →
      json_loads r.plan = .ok plan → iterate plan = .ok items → F r.commit_id ep items p)
    (hstep : ∀ cid ep step steps o args, (subscript step "ordinal" >>= asOrdinal) = .ok o →
      subscript step "args" = .ok args →
      (C.rules c.pg).Triple c.conn (At c.pg c.conn [] [] (F cid ep (step :: steps)))
        (action cid o args ep) (fun b w => b = true → At c.pg c.conn [] [] (F cid ep steps) w)
        fun _ _ => True)
    (hcommit : ∀ cid ep p, C.inv p → F cid ep [] p → C.inv (p.commit [.setCommitted s t]) ∧
      C.may c.conn p (p.commit [.setCommitted s t])) :
    (C.rules c.pg).Triple c.conn (At c.pg c.conn [] [] P) (Dtx.gateWorker c s t action)
      (fun _ _ => True) fun _ _ => True := by
  -- by induction on the steps left, with `F` of these steps as the invariant
  have hsteps : ∀ cid ep steps, (C.rules c.pg).Triple c.conn
      (At c.pg c.conn [] [] (F cid ep steps)) (gateWorker.steps c s t action cid ep steps)
      (fun _ _ => True) fun _ _ => True := by
    intro cid ep steps
    induction steps with
    | nil =>
      have hend : (C.rules c.pg).Triple c.conn (At c.pg c.conn [] [] (F cid ep [])) (c.commit_turn s t)
          (fun _ => At c.pg c.conn [] [] fun _ => True) fun _ _ => True :=
        commit_turn (hF cid ep) (keeps_const True)
          (fun p hp hf => ⟨(hcommit cid ep p hp hf).1, (hcommit cid ep p hp hf).2, trivial⟩)
          fun _ _ _ _ => trivial
      exact hend.post fun _ _ _ _ => trivial
    | cons step steps ih =>
      refine RelyGuarantee.Triple.bind (Q := fun o w => (subscript step "ordinal" >>= asOrdinal) = .ok o ∧
        At c.pg c.conn [] [] (F cid ep (step :: steps)) w) ?_ fun o => ?_
      · exact .ofExcept (fun o ho w _ hat => ⟨ho, hat⟩) fun _ _ _ _ _ => trivial
      refine RelyGuarantee.Triple.bind (Q := fun args w => ((subscript step "ordinal" >>= asOrdinal) = .ok o ∧
        subscript step "args" = .ok args) ∧ At c.pg c.conn [] [] (F cid ep (step :: steps)) w) ?_
        fun args => ?_
      · exact .ofExcept (fun args hargs w _ hat => ⟨⟨hat.1, hargs⟩, hat.2⟩) fun _ _ _ _ _ => trivial
      intro w hw hpre
      obtain ⟨⟨ho, hargs⟩, hat⟩ := hpre
      refine RelyGuarantee.Triple.bind (hstep cid ep step steps o args ho hargs) (fun b => ?_) w hw hat
      cases b with
      | true => exact ih.pre fun w _ hat => hat rfl
      -- the action was refused: the worker stops without a commit
      | false => exact fun _ _ _ => trivial
  suffices hbody : (C.rules c.pg).Triple c.conn (At c.pg c.conn [] [] P) _
      (fun _ _ => True) fun _ _ => True from process hbody
  refine hacq.bind fun ep => ?_
  refine (load_steps (F := fun cid => F cid ep) (hA ep) (hload ep)).bind fun o => ?_
  match o with
  | none => exact fun _ _ _ => trivial
  | some (cid, plan) =>
    refine RelyGuarantee.Triple.bind (Q := fun items => At c.pg c.conn [] [] (F cid ep items)) ?_
      fun items => hsteps cid ep items
    refine .ofExcept (fun items hitems w _ hat => ?_) fun _ _ _ _ _ => trivial
    exact hat.mono (fun l hl => hl) fun h => h cid plan rfl items hitems

/-- **`run_turn`.** `F cid ep steps rs` is what is known when `steps` are still to come and `rs` is what
    those before them returned. -/
theorem run_turn {s t : String} {plan : Option (List Json)} {epoch : Option Nat} {crash_at : Option Int}
    {P : Public ι → Prop} {A : Nat → Public ι → Prop}
    {F : String → Nat → List Json → List (Tag × Option Json) → Public ι → Prop}
    {Q : List (Tag × Option Json) → Public ι → Prop}
    (hacq : (C.rules c.pg).Triple c.conn (At c.pg c.conn [] [] P) (c.turnEpoch s t epoch)
      (fun ep => At c.pg c.conn [] [] (A ep)) fun _ _ => True)
    (hA : ∀ ep, C.Keeps c.conn [] (A ep)) (hF : ∀ cid ep steps rs, C.Keeps c.conn [] (F cid ep steps rs))
    (hQ : ∀ rs, C.Keeps c.conn [] (Q rs))
    (hgiven : ∀ ep items, plan = some items → (C.rules c.pg).Triple c.conn
      (At c.pg c.conn [] [] (A ep)) (c.begin_turn s t items)
      (fun cid => At c.pg c.conn [] [] (F cid ep items [])) fun _ _ => True)
    (hload : ∀ ep p r plan items, C.inv p → A ep p → p.db.turns (s, t) = some r →
      json_loads r.plan = .ok plan → iterate plan = .ok items → F r.commit_id ep items [] p)
    (hok : ∀ cid ep step steps rs o args, (subscript step "ordinal" >>= asOrdinal) = .ok o →
      subscript step "args" = .ok args →
      ChargeOk C c s t cid o args ep (F cid ep (step :: steps) rs) fun r => F cid ep steps (rs ++ [r]))
    (hcommit : ∀ cid ep rs p, C.inv p → F cid ep [] rs p → C.inv (p.commit [.setCommitted s t]) ∧
      C.may c.conn p (p.commit [.setCommitted s t]) ∧ Q rs (p.commit [.setCommitted s t]))
    (hnone : ∀ cid ep rs p, C.inv p → F cid ep [] rs p → p.db.turns (s, t) = none → Q rs p) :
    (C.rules c.pg).Triple c.conn (At c.pg c.conn [] [] P) (c.run_turn s t plan epoch crash_at)
      (fun rs => At c.pg c.conn [] [] (Q rs)) fun _ _ => True := by
  refine hacq.bind fun ep => ?_
  -- whichever way the plan comes, its steps are all still to come
  refine RelyGuarantee.Triple.bind
    (Q := fun r : String × List Json => At c.pg c.conn [] [] (F r.1 ep r.2 [])) ?_ fun r => ?_
  · cases plan with
    | some items =>
      refine (hgiven ep items rfl).bind fun cid => ?_
      exact fun _ _ hat => hat
    | none =>
      refine (load_steps (F := fun cid items => F cid ep items []) (hA ep) (hload ep)).bind fun o => ?_
      match o with
      | none => exact fun _ _ _ => trivial
      | some (cid, plan) =>
        refine RelyGuarantee.Triple.bind (Q := fun items => At c.pg c.conn [] [] (F cid ep items [])) ?_
          fun items => fun _ _ hat => hat
        refine .ofExcept (fun items hitems w _ hat => ?_) fun _ _ _ _ _ => trivial
        exact hat.mono (fun l hl => hl) fun h => h cid plan rfl items hitems
  · obtain ⟨cid, items⟩ := r
    refine RelyGuarantee.Triple.bind (runSteps (hF cid ep) (hok cid ep) items []) fun rs => ?_
    refine RelyGuarantee.Triple.bind (commit_turn (hF cid ep [] rs) (hQ rs) (hcommit cid ep rs) (hnone cid ep rs))
      fun _ => ?_
    exact fun _ _ hat => hat

/-- **`run_turn`**, in a process of its own. -/
theorem turnProcess {s t : String} {plan : Option (List Json)} {epoch : Option Nat} {crash_at : Option Int}
    {P : Public ι → Prop} {A : Nat → Public ι → Prop} {F : String → Nat → List Json → Public ι → Prop}
    (hacq : (C.rules c.pg).Triple c.conn (At c.pg c.conn [] [] P) (c.turnEpoch s t epoch)
      (fun ep => At c.pg c.conn [] [] (A ep)) fun _ _ => True)
    (hA : ∀ ep, C.Keeps c.conn [] (A ep)) (hF : ∀ cid ep steps, C.Keeps c.conn [] (F cid ep steps))
    (hgiven : ∀ ep items, plan = some items → (C.rules c.pg).Triple c.conn
      (At c.pg c.conn [] [] (A ep)) (c.begin_turn s t items)
      (fun cid => At c.pg c.conn [] [] (F cid ep items)) fun _ _ => True)
    (hload : ∀ ep p r plan items, C.inv p → A ep p → p.db.turns (s, t) = some r →
      json_loads r.plan = .ok plan → iterate plan = .ok items → F r.commit_id ep items p)
    (hok : ∀ cid ep step steps o args, (subscript step "ordinal" >>= asOrdinal) = .ok o →
      subscript step "args" = .ok args →
      ChargeOk C c s t cid o args ep (F cid ep (step :: steps)) fun _ => F cid ep steps)
    (hcommit : ∀ cid ep p, C.inv p → F cid ep [] p → C.inv (p.commit [.setCommitted s t]) ∧
      C.may c.conn p (p.commit [.setCommitted s t])) :
    (C.rules c.pg).Triple c.conn (At c.pg c.conn [] [] P)
      (Dtx.turnProcess c s t plan epoch crash_at) (fun _ _ => True) fun _ _ => True := by
  have hbody : (C.rules c.pg).Triple c.conn (At c.pg c.conn [] [] P)
      (c.run_turn s t plan epoch crash_at) (fun _ => At c.pg c.conn [] [] fun _ => True) fun _ _ => True :=
    run_turn (F := fun cid ep steps _ => F cid ep steps) hacq hA (fun cid ep steps _ => hF cid ep steps)
      (fun _ => keeps_const True) hgiven hload (fun cid ep step steps _ => hok cid ep step steps)
      (fun cid ep _ p hp hf => ⟨(hcommit cid ep p hp hf).1, (hcommit cid ep p hp hf).2, trivial⟩)
      fun _ _ _ _ _ _ _ => trivial
  exact process (hbody.bind fun _ => fun _ _ _ => trivial)

end Contract

end AgentTx.Dtx
