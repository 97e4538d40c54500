import AgentTx.Dtx.Contract

/-!
# `Dtx.Commits` — only commits change the tables

Whatever the others do: a statement of `run_turn` leaves the committed tables as they are, unless it is a commit,
which applies what its own connection has pending. Nothing is asked of the coordinators here, so the triples
(`Plain`) compose without a look at the states between.

Layout of the proof:
* **Statements** — each one that is no commit leaves `Db` alone: it reads, takes a lock or adds to what is pending.
* **Methods** — by the rules for sequencing and for handlers, up to `plain_turnProcess`.
* **Systems** — `db_of_step`: a step that changes the tables is a commit, and what it applies is what its own
  connection has pending; `turn_owner_view` says of which commits the epoch of a turn is not affected.
-/

namespace AgentTx.Dtx

variable {ι α β : Type} [DecidableEq ι]

/-- A commit applies what is pending; other statements leave the tables. -/
def atCommits (ι : Type) (pg : Bool) : RelyGuarantee ι Stmt (World ι) where
  Inv _ := True
  Rely _ _ _ := True
  Guar i st w w' := w'.server.db = if st = .commit then w.server.view (scheme pg) i else w.server.db

/-- Every statement of the program is so. -/
abbrev Plain (pg : Bool) (i : ι) (p : DtxProg ι α) : Prop :=
  (atCommits ι pg).Triple i (fun _ => True) p (fun _ _ => True) fun _ _ => True

variable {pg : Bool} {i : ι} {p : DtxProg ι α}

omit [DecidableEq ι] in
theorem plain_pure (a : α) : Plain pg i (pure a) := fun _ _ _ => trivial

omit [DecidableEq ι] in
theorem plain_raise (e : Exn) : Plain pg i (.raise e : DtxProg ι α) := fun _ _ _ => trivial

omit [DecidableEq ι] in
theorem plain_ofExcept (r : Except Exn α) : Plain pg i (.ofExcept r) :=
  .ofExcept (fun _ _ _ _ _ => trivial) fun _ _ _ _ _ => trivial

omit [DecidableEq ι] in
theorem Plain.bind {f : α → DtxProg ι β} (hp : Plain pg i p) (hf : ∀ a, Plain pg i (f a)) : Plain pg i (p >>= f) :=
  RelyGuarantee.Triple.bind hp hf

omit [DecidableEq ι] in
theorem Plain.tryCatch {g : Exn → DtxProg ι α} (hp : Plain pg i p) (hg : ∀ e, Plain pg i (g e)) :
    Plain pg i (p.tryCatch g) :=
  RelyGuarantee.Triple.tryCatch hp hg

omit [DecidableEq ι] in
theorem plain_step {st : Stmt} {act : World ι → Option (α × World ι)}
    (h : ∀ w a w', act w = some (a, w') →
      w'.server.db = if st = .commit then w.server.view (scheme pg) i else w.server.db) :
    Plain pg i (.step st act) :=
  .step (fun _ _ _ _ _ _ => trivial) fun w a w' _ _ _ hact => ⟨h w a w' hact, trivial, trivial⟩

omit [DecidableEq ι] in
/-- A statement sent to the server. -/
theorem plain_execute {st : Stmt} {f : Server ι → Option (α × Server ι)} (hst : st ≠ .commit)
    (h : ∀ srv r, f srv = some r → r.2.db = srv.db) : Plain pg i (DTX.execute st f) := by
  refine plain_step fun w a w' hact => ?_
  obtain ⟨r, hr, hw'⟩ := Option.map_eq_some_iff.mp hact
  cases hw'
  rw [if_neg hst]
  exact h _ _ hr

/-! ## Statements -/

variable [Driver] {x : DTX ι} {s t cid : String}

omit [Driver] in
/-- A lock that is taken, and what is done under it. -/
theorem db_of_lock {srv : Server ι} {l : Lock} {f : Server ι → α × Server ι} {r : α × Server ι}
    (hf : ∀ srv, (f srv).2.db = srv.db) (h : (x.lock srv l).map f = some r) : r.2.db = srv.db := by
  obtain ⟨srv', hsrv, rfl⟩ := Option.map_eq_some_iff.mp h
  rw [hf srv']
  exact TxServer.lock_db hsrv

omit [Driver] in
theorem db_of_insertUnless {srv : Server ι} {l : Lock} {conflict : Db → Bool} {v : Write} {r : Bool × Server ι}
    (h : x.insertUnless l conflict v srv = some r) : r.2.db = srv.db := by
  unfold DTX.insertUnless at h
  split_ifs at h
  · cases h
    rfl
  · refine db_of_lock (fun srv => ?_) h
    split_ifs
    · rfl
    · rfl

omit [Driver] in
theorem plain_commit : Plain x.pg x.conn x.commit := by
  refine plain_step fun w a w' hact => ?_
  cases hact
  rfl

omit [Driver] in
theorem plain_rollback : Plain pg i x.rollback := by
  refine plain_step fun w a w' hact => ?_
  cases hact
  rfl

omit [Driver] in
theorem plain_transaction {p : DtxProg ι α} (hp : Plain x.pg x.conn p) : Plain x.pg x.conn (x.transaction p) :=
  (hp.bind fun _ => plain_commit.bind fun _ => plain_pure _).tryCatch fun _ =>
    plain_rollback.bind fun _ => plain_raise _

theorem plain_insert_action {aid : String} {row : ActionRow} : Plain pg i (x.insert_action aid row) :=
  (plain_ofExcept _).bind fun _ => plain_execute (by simp) fun _ _ => db_of_insertUnless

omit [Driver] in
theorem plain_select_owner : Plain pg i (x.select_owner s t) := by
  refine plain_execute (by simp) fun srv r h => ?_
  simp only at h
  split_ifs at h
  · exact db_of_lock (fun _ => rfl) h
  · cases h
    rfl

theorem plain_insert_charge {row : ChargeRow} : Plain pg i (x.insert_charge row) := by
  refine (plain_ofExcept _).bind fun _ => plain_execute (by simp) fun srv r h => ?_
  split_ifs at h
  · cases h
    rfl
  · exact db_of_lock (fun _ => rfl) h

omit [Driver] in
theorem plain_set_result {aid result : String} : Plain pg i (x.set_result aid result) :=
  plain_execute (by simp) fun _ _ => db_of_lock fun _ => rfl

omit [DecidableEq ι] [Driver] in
theorem plain_select_action {aid : String} : Plain pg i (x.select_action aid) := by
  refine plain_execute (by simp) fun srv r h => ?_
  cases h
  rfl

/-! ## Methods -/

omit [Driver] in
theorem plain_acquire : Plain x.pg x.conn (x.acquire s t) := by
  have hupsert : Plain x.pg x.conn (x.upsert_owner s t) := plain_execute (by simp) fun _ _ => db_of_lock fun _ => rfl
  refine hupsert.bind fun ep => Plain.bind (plain_step fun w a w' hact => ?_) fun _ => plain_pure _
  cases hact
  rfl

omit [Driver] in
theorem plain_begin_turn {plan : List Json} : Plain x.pg x.conn (x.begin_turn s t plan) := by
  refine (plain_ofExcept _).bind fun cid => Plain.bind ?_ fun _ => plain_commit.bind fun _ => plain_pure _
  exact plain_execute (by simp) fun _ _ => db_of_insertUnless

omit [DecidableEq ι] [Driver] in
theorem plain_load_plan : Plain pg i (x.load_plan s t) := by
  have hselect : Plain pg i (x.select_turn s t) := by
    refine plain_execute (by simp) fun srv r h => ?_
    cases h
    rfl
  refine hselect.bind fun r => ?_
  cases r with
  | none => exact plain_pure _
  | some r => exact (plain_ofExcept _).bind fun _ => plain_pure _

theorem plain_chargeEffect {aid : String} {args : Json} {mid : Bool} : Plain pg i (x.chargeEffect aid args mid) := by
  refine (plain_ofExcept _).bind fun _ => (plain_ofExcept _).bind fun _ => plain_insert_charge.bind fun _ => ?_
  cases mid with
  | true => exact plain_raise _
  | false => exact plain_set_result.bind fun _ => plain_pure _

omit [DecidableEq ι] [Driver] in
theorem plain_chargeFound {aid afp : String} : Plain pg i (x.chargeFound aid afp) := by
  refine plain_select_action.bind fun r => ?_
  cases r with
  | none => exact plain_raise _
  | some ex =>
    by_cases hfp : ex.args_fp = afp
    · simp only [ne_eq, hfp, not_true_eq_false, if_false]
      cases ex.result with
      | none => exact plain_pure _
      | some text => exact (plain_ofExcept _).bind fun _ => plain_pure _
    · simp only [ne_eq, hfp, not_false_eq_true, if_true]
      exact plain_raise _

theorem plain_do_charge {o : Ordinal} {args : Json} {ep : Nat} {mid : Bool} :
    Plain x.pg x.conn (x.do_charge s t cid o args ep mid) := by
  refine (plain_ofExcept _).bind fun afp => plain_transaction (plain_select_owner.bind fun r => ?_)
  by_cases hr : r = some ep
  · simp only [ne_eq, hr, not_true_eq_false, if_false]
    refine plain_insert_action.bind fun b => ?_
    cases b with
    | true => exact plain_chargeEffect
    | false => exact plain_chargeFound
  · simp only [ne_eq, hr, not_false_eq_true, if_true]
    exact plain_raise _

theorem plain_runSteps {ep : Nat} {crash_at : Option Int} (steps : List Json) :
    Plain x.pg x.conn (x.runSteps s t cid ep crash_at steps) := by
  induction steps with
  | nil => exact plain_pure _
  | cons step steps ih =>
    refine (plain_ofExcept _).bind fun o => (plain_ofExcept _).bind fun args => ?_
    exact plain_do_charge.bind fun r => ih.bind fun rs => plain_pure _

omit [Driver] in
theorem plain_commit_turn : Plain x.pg x.conn (x.commit_turn s t) := by
  refine Plain.bind (plain_execute (by simp) fun srv r h => ?_) fun _ => plain_commit
  split_ifs at h
  · cases h
    rfl
  · exact db_of_lock (fun _ => rfl) h

theorem plain_run_turn {plan : Option (List Json)} {epoch : Option Nat} {crash_at : Option Int} :
    Plain x.pg x.conn (x.run_turn s t plan epoch crash_at) := by
  refine Plain.bind ?_ fun ep => Plain.bind ?_ fun r => ?_
  · cases epoch with
    | none => exact plain_acquire
    | some ep => exact plain_pure _
  · cases plan with
    | some plan => exact plain_begin_turn.bind fun _ => plain_pure _
    | none =>
      refine plain_load_plan.bind fun o => ?_
      cases o with
      | none => exact plain_raise _
      | some r => exact (plain_ofExcept _).bind fun _ => plain_pure _
  · exact (plain_runSteps r.2).bind fun _ => plain_commit_turn.bind fun _ => plain_pure _

theorem plain_turnProcess {plan : Option (List Json)} {epoch : Option Nat} {crash_at : Option Int} :
    Plain x.pg x.conn (turnProcess x s t plan epoch crash_at) :=
  ((plain_run_turn.bind fun _ => plain_pure _).tryCatch fun _ => plain_pure _).bind fun _ => plain_rollback

/-! ## Systems -/

omit [Driver] in
/-- **Only commits change the tables**, in every reachable state of coordinators whose programs are plain. -/
theorem db_of_step {main : ι → DtxProg ι Unit} (hmain : ∀ i, Plain pg i (main i)) {init : World ι → Prop}
    {c c' : Config ι Stmt (World ι) Exn Unit} {l : Label ι Empty Stmt} (hc : (system main).Reachable init c)
    (hstep : (system main).step c l = some c') :
    c'.shared.server.db = c.shared.server.db ∨
      ∃ i, l = .next i .commit ∧ c'.shared.server.db = c.shared.server.view (scheme pg) i := by
  have hverified : RelyGuarantee.Verified (system main) (atCommits ι pg) fun _ _ => True :=
    ⟨hmain, fun _ _ _ _ _ _ _ => trivial, fun _ _ _ _ _ _ _ _ _ => trivial, fun _ _ _ => ⟨trivial, fun _ _ => trivial⟩,
      fun e => e.elim⟩
  -- a process starts, takes a step, or dies
  rcases System.step_cases hstep with ⟨i, rfl, -, rfl⟩ | ⟨i, st, _, _, _, _, _, rfl, -, -, -⟩ |
    ⟨i, _, rfl, -, rfl⟩ | ⟨e, -⟩
  · exact Or.inl rfl
  · -- only a commit changes the tables, to what its connection sees
    have hguar : c'.shared.server.db = if st = .commit then c.shared.server.view (scheme pg) i else _ :=
      hverified.guar (fun _ _ _ => trivial) (fun _ _ => ⟨trivial, fun _ => trivial⟩) hc hstep
    by_cases hst : st = .commit
    · subst hst
      exact Or.inr ⟨i, rfl, hguar⟩
    · rw [if_neg hst] at hguar
      exact Or.inl hguar
  · exact Or.inl rfl
  · exact e.elim

omit [DecidableEq ι] [Driver] in
/-- A commit that acquires nothing of the turn leaves its owner. -/
theorem turn_owner_view {srv : Server ι} {s t : String} (h : ∀ ep, .setOwner s t ep ∉ srv.pending i) :
    (srv.view (scheme true) i).turn_owner (s, t) = srv.db.turn_owner (s, t) := by
  have hsame : (scheme true).Same (lockFor true (.owner s t)) srv.db (srv.view (scheme true) i) := by
    refine TxServer.applyAll_same (fun v hv hl => ?_) srv.db
    cases v with
    | setOwner s' t' ep =>
      cases hl
      exact h ep hv
    | insertTurn => cases hl
    | setCommitted => cases hl
    | insertAction => cases hl
    | insertCharge => cases hl
    | setResult => cases hl
  have hrow : SameRow (.owner s t) srv.db (srv.view (scheme true) i) := sameRow_of_same (by simp) hsame
  exact hrow.symm

end AgentTx.Dtx
