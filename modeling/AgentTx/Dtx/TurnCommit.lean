import AgentTx.Dtx.Commits
import AgentTx.Dtx.SourceOfTruth
import AgentTx.Lib.Prog.Standing

/-!
# `Dtx.TurnCommit` — the fence and the end of a turn, on PostgreSQL

Each charge of `run_turn` checks the epoch under a lock that it holds to its commit; the `UPDATE` that ends the
turn is a transaction of its own, and checks nothing. A coordinator that is overtaken after its last charge sets
the turn committed all the same (`stale_turn_commit`). Between the last check and that commit the coordinator
stands at its `UPDATE`, or has it pending (`Ending`): when nobody's `acquire` of the turn is committed while it is
there, only the owner ends a turn (`turn_commit_fenced`). A plan without steps has no check at all.
-/

namespace AgentTx.Dtx.TurnCommit

open SourceOfTruth (Call callers planStep)

variable {ι : Type} (calls : ι → Call)

def turnOf (i : ι) : String × String := ((calls i).session, (calls i).turn)

/-- The coordinator owns its turn: the epoch it was given, or has acquired, is the turn's. -/
def Owner (i : ι) (p : Public ι) : Prop :=
  ∃ ep, (calls i).epoch.or (p.held i) = some ep ∧ p.db.turn_owner (turnOf calls i) = some ep

def Uncommitted (k : String × String) (db : Db) : Prop := ∀ row, db.turns k = some row → row.state ≠ .committed

/-- The plan that the coordinator is given, or the stored one that it loads, has no steps. -/
def NoSteps (i : ι) (p : Public ι) : Prop :=
  match (calls i).plan with
  | some plan => plan = []
  | none => ∃ row, p.db.turns (turnOf calls i) = some row ∧ planSteps row = []

/-! ## The contract

Who may set a turn committed: its owner, or anybody if it is committed already. The first is what fails for a
coordinator that is overtaken, and the condition on the run is what excludes it. -/

/-- What coordinator `i` may do to `turns`: add an open row, or, as the owner, set its own turn committed. -/
structure May (i : ι) (p p' : Public ι) : Prop where
  kept : ∀ k row, p.db.turns k = some row → ∃ row', p'.db.turns k = some row' ∧ row'.plan = row.plan ∧
    (row'.state = row.state ∨ row'.state = .committed ∧ turnOf calls i = k ∧ Owner calls i p)
  appeared : ∀ k row', p.db.turns k = none → p'.db.turns k = some row' → row'.state = .open

/-- A coordinator that has checked nothing, because there was no charge, is the owner at its `UPDATE`. -/
def CheckedAtUpdate (i : ι) (st : Stmt) (p : Public ι) : Prop :=
  st = .set_committed (calls i).session (calls i).turn → NoSteps calls i p →
    Uncommitted (turnOf calls i) p.db → Owner calls i p

variable {calls} {i j : ι} {p p' : Public ι}

/-- A step that does not touch the table. -/
theorem May.same (h : p'.db.turns = p.db.turns) : May calls i p p' := by
  refine ⟨fun k row hrow => ⟨row, ?_, rfl, Or.inl rfl⟩, fun k row' hnone hrow => ?_⟩
  · rw [h]
    exact hrow
  · rw [h, hnone] at hrow
    cases hrow

/-- What is committed stays so. -/
theorem May.uncommitted {k : String × String} (h : May calls j p p') (hopen : Uncommitted k p'.db) :
    Uncommitted k p.db := by
  intro row hrow hcommitted
  obtain ⟨row', hrow', -, hstate | ⟨hstate, -⟩⟩ := h.kept k row hrow
  · exact hopen row' hrow' (hstate.trans hcommitted)
  · exact hopen row' hrow' hstate

/-- The stored plan stays what it is. -/
theorem May.noSteps (h : May calls j p p') (hno : NoSteps calls i p) : NoSteps calls i p' := by
  unfold NoSteps at hno ⊢
  cases hplan : (calls i).plan with
  | some plan =>
    rw [hplan] at hno
    exact hno
  | none =>
    rw [hplan] at hno
    obtain ⟨row, hrow, hsteps⟩ := hno
    obtain ⟨row', hrow', hsame, -⟩ := h.kept _ row hrow
    exact ⟨row', hrow', (planSteps_congr hsame).trans hsteps⟩

theorem May.begun {s t cid plan : String} (hnone : p.db.turns (s, t) = none) :
    May calls i p (p.commit [.insertTurn s t ⟨cid, plan, .open⟩]) := by
  have hturns : ∀ k, (p.commit [.insertTurn s t ⟨cid, plan, .open⟩]).db.turns k =
      Function.update p.db.turns (s, t) (some ⟨cid, plan, .open⟩) k := fun _ => rfl
  refine ⟨fun k row hrow => ⟨row, ?_, rfl, Or.inl rfl⟩, fun k row' hno hrow' => ?_⟩
  · have hne : k ≠ (s, t) := by
      rintro rfl
      rw [hnone] at hrow
      cases hrow
    rw [hturns, Function.update_of_ne hne]
    exact hrow
  · rw [hturns] at hrow'
    by_cases hk : k = (s, t)
    · subst hk
      rw [Function.update_self] at hrow'
      cases hrow'
      rfl
    · rw [Function.update_of_ne hk, hno] at hrow'
      cases hrow'

/-- **The end of a turn**, by its owner unless it was committed already. -/
theorem May.ended {s t : String} (hkey : turnOf calls i = (s, t))
    (howner : Uncommitted (s, t) p.db → Owner calls i p) : May calls i p (p.commit [.setCommitted s t]) := by
  have hturns : ∀ k, (p.commit [.setCommitted s t]).db.turns k =
      p.db.turns.update (s, t) (fun r => { r with state := .committed }) k := fun _ => rfl
  constructor
  · intro k row hrow
    by_cases hk : k = (s, t)
    · subst hk
      refine ⟨{ row with state := .committed }, ?_, rfl, ?_⟩
      · rw [hturns, Table.update_self, hrow]
        rfl
      · by_cases hstate : row.state = .committed
        · exact Or.inl hstate.symm
        · refine Or.inr ⟨rfl, hkey, howner fun row₁ hrow₁ => ?_⟩
          cases hrow.symm.trans hrow₁
          exact hstate
    · refine ⟨row, ?_, rfl, Or.inl rfl⟩
      rw [hturns, Table.update_of_ne _ hk]
      exact hrow
  · intro k row' hnone hrow'
    rw [hturns] at hrow'
    by_cases hk : k = (s, t)
    · subst hk
      rw [Table.update_self, hnone] at hrow'
      cases hrow'
    · rw [Table.update_of_ne _ hk, hnone] at hrow'
      cases hrow'

/-- `turns.state`. -/
def turnState (k : String × String) (db : Db) : Option TurnState := (db.turns k).map TurnRow.state

/-- How the state of a turn may change: a new turn is open, and only its owner ends it. -/
theorem May.turnState {k : String × String} (h : May calls i p p')
    (hne : turnState k p'.db ≠ turnState k p.db) :
    (turnState k p.db = none ∧ turnState k p'.db = some .open) ∨ (turnOf calls i = k ∧ Owner calls i p) := by
  cases hrow : p.db.turns k with
  | none =>
    cases hrow' : p'.db.turns k with
    | none => simp [TurnCommit.turnState, hrow, hrow'] at hne
    | some row' => simp [TurnCommit.turnState, hrow, hrow', h.appeared k row' hrow hrow']
  | some row =>
    obtain ⟨row', hrow', -, hstate | ⟨-, howner⟩⟩ := h.kept k row hrow
    · simp [TurnCommit.turnState, hrow, hrow', hstate] at hne
    · exact Or.inr howner

variable (calls) in
def contract : Contract ι where
  inv _ := True
  may := May calls
  may_refl _ _ := May.same rfl
  ok := CheckedAtUpdate calls

/-! ## The others, while a coordinator ends its turn

From the last check of a coordinator up to its final commit the others must not move the epoch. This is no property of
their programs: it is read off the run, as what stands between the two statements (`Lib.Prog.Standing`). -/

section Ending

variable (calls)

/-- The coordinator is about to set its turn committed, or has done so and not committed yet. -/
def Ending (i : ι) (st : Stmt) (w : World ι) : Prop :=
  st = .set_committed (calls i).session (calls i).turn ∨
    .setCommitted (calls i).session (calls i).turn ∈ w.server.pending i

/-- Meanwhile nobody acquires the turn from its owner, unless it was committed before. -/
def Spare (i : ι) (st : Stmt) (w w' : World ι) : Prop :=
  Ending calls i st w → Uncommitted (turnOf calls i) w.pub.db → Owner calls i w.pub →
    w'.pub.db.turn_owner (turnOf calls i) = w.pub.db.turn_owner (turnOf calls i)

variable {calls}

/-- What the others leave as it is while the coordinator is there. -/
theorem stable_ending {st : Stmt} {ws : List Write} {ls : List Lock} {F : Public ι → Prop}
    (hending : ∀ w, w.server.pending i = ws → Ending calls i st w)
    (hF : ∀ j p p', May calls j p p' → p'.held i = p.held i →
      (Uncommitted (turnOf calls i) p.db → Owner calls i p →
        p'.db.turn_owner (turnOf calls i) = p.db.turn_owner (turnOf calls i)) → F p → F p') :
    (((contract calls).rules true).standing (Spare calls) st).Stable i (Contract.At true i ws ls F) := by
  rintro w w' - - ⟨⟨hframe, hheld, j, -, hmay⟩, hspare⟩ hat
  refine ⟨hframe.pending.trans hat.pending, fun l hl => (hframe.locks _).mpr (hat.locks l hl), ?_⟩
  exact hF j w.pub w'.pub hmay hheld (hspare (hending w hat.pending)) hat.fact

/-- A statement, under what is promised there. -/
theorem tripleAt_execute {α : Type} {P : World ι → Prop} {Q : α → World ι → Prop} {E : Exn → World ι → Prop}
    {st : Stmt} {f : Server ι → Option (α × Server ι)}
    (hP : (((contract calls).rules true).standing (Spare calls) st).Stable i P)
    (h : ∀ w a srv, P w → CheckedAtUpdate calls i st w.pub → f w.server = some (a, srv) →
      Contract.Quiet true i w.server srv ∧ Q a { w with server := srv }) :
    ((contract calls).rules true).TripleAt (Spare calls) i P (DTX.execute st f) Q E :=
  .step hP fun w a _ hw hp hok hact => Contract.execute_step hw hact fun srv hf => h w a srv hp hok hf

/-- The owner stays the owner, as long as it matters. -/
theorem owner_kept (hmay : May calls j p p') (hheld : p'.held i = p.held i)
    (hsame : Uncommitted (turnOf calls i) p.db → Owner calls i p →
      p'.db.turn_owner (turnOf calls i) = p.db.turn_owner (turnOf calls i))
    (howner : Uncommitted (turnOf calls i) p.db → Owner calls i p) (hopen : Uncommitted (turnOf calls i) p'.db) :
    Owner calls i p' := by
  have hbefore := hmay.uncommitted hopen
  obtain ⟨ep, hep, hcurrent⟩ := howner hbefore
  refine ⟨ep, ?_, ?_⟩
  · rw [hheld]
    exact hep
  · rw [hsame hbefore ⟨ep, hep, hcurrent⟩]
    exact hcurrent

end Ending

/-! ## The programs

The triples of `run_turn` up to the point where only the `UPDATE` is left. There the coordinator has just held the
lock of the owner row, so that its token was the epoch. -/

section Programs

variable [DecidableEq ι] [Driver]

variable (calls) in
/-- What a coordinator knows of its epoch. -/
def Holds (i : ι) (ep : Nat) (p : Public ι) : Prop := (calls i).epoch.or (p.held i) = some ep

omit [DecidableEq ι] [Driver] in
theorem keeps_holds {ep : Nat} : (contract calls).Keeps i [] (Holds calls i ep) := by
  intro j p p' _ _ _ _ hheld _ hep
  rw [Holds, hheld]
  exact hep

omit [DecidableEq ι] [Driver] in
theorem keeps_noSteps {items : List Json} :
    (contract calls).Keeps i [] fun p => items = [] → NoSteps calls i p :=
  fun _ _ _ _ _ _ hmay _ _ h hnil => hmay.noSteps (h hnil)

omit [Driver] in
theorem turnEpoch_spec {s t : String} :
    ((contract calls).rules true).Triple i (Contract.Unstarted true i) (DTX.turnEpoch ⟨i, true, 0⟩ s t (calls i).epoch)
      (fun ep => Contract.At true i [] [] (Holds calls i ep)) fun _ _ => True := by
  cases hep : (calls i).epoch with
  | none =>
    refine Contract.acquire (c := ⟨i, true, 0⟩) (Contract.keeps_held none) fun p ep _ _ _ => ?_
    refine ⟨trivial, May.same rfl, ?_⟩
    rw [Holds, hep]
    exact Contract.acquired_held
  | some ep =>
    refine fun w _ hat => hat.mono (fun _ hl => hl) fun _ => ?_
    rw [Holds, hep]
    rfl

omit [Driver] in
/-- The plan, given or loaded. -/
theorem turnPlan_spec {ep : Nat} :
    ((contract calls).rules true).Triple i (Contract.At true i [] [] (Holds calls i ep))
      (DTX.turnPlan ⟨i, true, 0⟩ (calls i).session (calls i).turn (calls i).plan)
      (fun r => Contract.At true i [] [] fun p => Holds calls i ep p ∧ (r.2 = [] → NoSteps calls i p))
      fun _ _ => True := by
  cases hplan : (calls i).plan with
  | some items =>
    have hno : ∀ p : Public ι, items = [] → NoSteps calls i p := by
      intro p hnil
      rw [NoSteps, hplan]
      exact hnil
    have hbegin : ((contract calls).rules true).Triple i (Contract.At true i [] [] (Holds calls i ep))
        (DTX.begin_turn ⟨i, true, 0⟩ (calls i).session (calls i).turn items)
        (fun _ => Contract.At true i [] [] (Holds calls i ep)) fun _ _ => True :=
      (Contract.begin_turn (c := ⟨i, true, 0⟩) keeps_holds (fun _ => keeps_holds)
        (fun _ _ _ hep _ hnone => ⟨trivial, May.begun hnone, hep⟩) fun _ _ _ _ hep _ _ _ => hep).conseq
          (fun _ _ h => h) (fun _ _ _ h => h) fun _ _ _ _ => trivial
    refine hbegin.bind fun cid => fun w _ hat => ?_
    exact hat.mono (fun _ hl => hl) fun hep => ⟨hep, hno _⟩
  | none =>
    -- the plan is read back: if it has no steps, the row has none
    refine (Contract.load_steps (c := ⟨i, true, 0⟩) (F := fun _ items p =>
      Holds calls i ep p ∧ (items = [] → NoSteps calls i p)) keeps_holds ?_).bind fun o => ?_
    · intro p r plan items _ hep hr hload hitems
      refine ⟨hep, fun hnil => ?_⟩
      rw [NoSteps, hplan]
      refine ⟨r, hr, ?_⟩
      simp [planSteps, hload, hitems, hnil, bind, Except.bind]
    · cases o with
      | none => exact fun _ _ _ => trivial
      | some r =>
        refine RelyGuarantee.Triple.bind (Q := fun items => Contract.At true i [] [] fun p =>
          Holds calls i ep p ∧ (items = [] → NoSteps calls i p)) ?_ fun items => fun _ _ hat => hat
        refine .ofExcept (fun items hitems w _ hat => ?_) fun _ _ _ _ _ => trivial
        exact hat.mono (fun _ hl => hl) fun h => h r.1 r.2 rfl items hitems

variable (calls) in
/-- As long as it matters, the coordinator is the owner. -/
def Entitled (i : ι) (p : Public ι) : Prop := Uncommitted (turnOf calls i) p.db → Owner calls i p

/-- After the loop the coordinator is the owner, at that moment, unless there was no charge. -/
theorem runSteps_spec {ep : Nat} {cid : String} {crash_at : Option Int} (items : List Json) :
    ((contract calls).rules true).Triple i
      (Contract.At true i [] [] fun p => Holds calls i ep p ∧ (items = [] → NoSteps calls i p))
      (DTX.runSteps ⟨i, true, 0⟩ (calls i).session (calls i).turn cid ep crash_at items)
      (fun _ => Contract.At true i [] [] fun p => NoSteps calls i p ∨ Entitled calls i p) fun _ _ => True := by
  refine (Contract.runSteps_owner (c := ⟨i, true, 0⟩) rfl (keeps_holds.and keeps_noSteps) ?_ items).post ?_
  · intro p o afp order amount _ hp _ _
    exact ⟨trivial, May.same rfl, hp⟩
  · intro _ w _ hat
    refine hat.mono (fun _ hl => hl) fun h => ?_
    by_cases hnil : items = []
    · exact Or.inl (h.1.2 hnil)
    · exact Or.inr fun _ => ⟨ep, h.1.1, h.2 hnil⟩

omit [Driver] in
/-- The `UPDATE`. The check of the last charge is still good; without one, the run's condition stands in. -/
theorem set_committed_spec :
    ((contract calls).rules true).TripleAt (Spare calls) i
      (Contract.At true i [] [] fun p => NoSteps calls i p ∨ Entitled calls i p)
      (DTX.set_committed ⟨i, true, 0⟩ (calls i).session (calls i).turn)
      (fun _ w => Contract.At true i [] [] (fun _ => True) w ∨
        Contract.At true i [.setCommitted (calls i).session (calls i).turn] [] (Entitled calls i) w)
      fun _ _ => True := by
  -- what the others do before the statement gets its locks takes nothing away (`Spare`)
  refine tripleAt_execute (stable_ending (fun _ _ => Or.inl rfl) fun j p p' hmay hheld hsame hdue => ?_)
    fun w a srv hat hok hf => ?_
  · rcases hdue with hno | howner
    · exact Or.inl (hmay.noSteps hno)
    · exact Or.inr (owner_kept hmay hheld hsame howner)
  · have howner : Entitled calls i w.pub := by
      rcases hat.fact with hno | howner
      · exact hok rfl hno
      · exact howner
    split_ifs at hf with hrow
    · -- no such turn: nothing is written
      cases hf
      exact ⟨.refl, Or.inl (hat.mono (fun _ hl => hl) fun _ => trivial)⟩
    · obtain ⟨srv', hsrv, hr⟩ := Option.map_eq_some_iff.mp hf
      cases hr
      have hat' := hat.lock (c := ⟨i, true, 0⟩) hsrv
      refine ⟨(Contract.Quiet.lock hsrv).trans (Contract.Quiet.write (hat'.locks _ List.mem_cons_self)), Or.inr ?_⟩
      -- the write stays pending: what is public does not change before the commit
      refine (hat'.write (c := ⟨i, true, 0⟩)).mono (fun _ hl => absurd hl List.not_mem_nil) fun _ => ?_
      have hdb : srv'.db = w.server.db := TxServer.lock_db hsrv
      have hpub : ∀ v, World.pub { w with server := srv'.write i v } = w.pub := by
        intro v
        rw [World.pub, World.pub, TxServer.write_db, hdb]
      rw [hpub]
      exact howner

omit [Driver] in
/-- The commit of that `UPDATE`. -/
theorem commit_spec :
    ((contract calls).rules true).TripleAt (Spare calls) i
      (Contract.At true i [.setCommitted (calls i).session (calls i).turn] [] (Entitled calls i))
      (DTX.commit ⟨i, true, 0⟩) (fun _ _ => True) fun _ _ => True := by
  refine .modify (stable_ending (fun w hpending => Or.inr ?_) fun j p p' hmay hheld hsame => ?_)
    fun w hw hat _ => ?_
  · rw [hpending]
    exact List.mem_cons_self
  · exact owner_kept hmay hheld hsame
  · obtain ⟨hguar, hinv, -⟩ := Contract.commit_step (c := ⟨i, true, 0⟩) (Q := fun _ => True) (t := .commit) hw hat
      ⟨trivial, May.ended rfl hat.fact, trivial⟩
    exact ⟨hguar, hinv, trivial⟩

omit [Driver] in
/-- **The end of the turn.** -/
theorem commit_turn_spec :
    ((contract calls).rules true).TripleAt (Spare calls) i
      (Contract.At true i [] [] fun p => NoSteps calls i p ∨ Entitled calls i p)
      (DTX.commit_turn ⟨i, true, 0⟩ (calls i).session (calls i).turn) (fun _ _ => True) fun _ _ => True := by
  refine set_committed_spec.bind fun _ => ?_
  rintro w hw (hat | hat)
  · -- nothing is pending
    have hdone : ((contract calls).rules true).Triple i (Contract.At true i [] [] fun _ => True)
        (DTX.commit ⟨i, true, 0⟩) (fun _ => Contract.At true i [] [] fun _ => True) fun _ _ => True :=
      Contract.commit (c := ⟨i, true, 0⟩) (Contract.keeps_const True) fun _ hp _ => ⟨hp, May.same rfl, trivial⟩
    exact RelyGuarantee.TripleAt.of_triple (hdone.post fun _ _ _ _ => trivial) w hw hat
  · exact commit_spec w hw hat

/-- **Every coordinator.** -/
theorem caller_spec :
    ((contract calls).rules true).TripleAt (Spare calls) i (Contract.Unstarted true i)
      (turnProcess ⟨i, true, 0⟩ (calls i).session (calls i).turn (calls i).plan (calls i).epoch (calls i).crash_at)
      (fun _ _ => True) fun _ _ => True := by
  have hturn : ((contract calls).rules true).TripleAt (Spare calls) i (Contract.Unstarted true i)
      (DTX.run_turn ⟨i, true, 0⟩ (calls i).session (calls i).turn (calls i).plan (calls i).epoch (calls i).crash_at)
      (fun _ _ => True) fun _ _ => True := by
    refine (RelyGuarantee.TripleAt.of_triple turnEpoch_spec).bind fun ep => ?_
    refine (RelyGuarantee.TripleAt.of_triple turnPlan_spec).bind fun r => ?_
    refine (RelyGuarantee.TripleAt.of_triple (runSteps_spec r.2)).bind fun rs => ?_
    exact commit_turn_spec.bind fun _ => fun _ _ _ => trivial
  have hclose : ((contract calls).rules true).Triple i (fun _ => True) (DTX.rollback ⟨i, true, 0⟩)
      (fun _ => Contract.At true i [] [] fun _ => True) fun _ _ => True :=
    Contract.rollback (c := ⟨i, true, 0⟩) (Contract.keeps_const True)
  have hbody : ((contract calls).rules true).TripleAt (Spare calls) i (Contract.Unstarted true i)
      (Prog.tryCatch (do
          let _ ← DTX.run_turn ⟨i, true, 0⟩ (calls i).session (calls i).turn (calls i).plan (calls i).epoch
            (calls i).crash_at
          pure ())
        fun _ => pure ()) (fun _ _ => True) fun _ _ => True :=
    .tryCatch (hturn.bind fun _ => fun _ _ _ => trivial) fun _ => fun _ _ _ => trivial
  exact hbody.bind fun _ => .of_triple (hclose.post fun _ _ _ _ => trivial)

end Programs

/-! ## Runs

The rule for runs in which a process knows something while it stands at a statement, with the interference that the
condition leaves. -/

section Runs

variable [DecidableEq ι] [Driver] (calls)

/-- **A superseded coordinator does not end a turn**, in this step: the state of a turn changes when the turn is
    begun, and in a commit of the coordinator whose epoch is `turn_owner.owner_epoch` at that moment. -/
def FencedStep (c c' : Config ι Stmt (World ι) Exn Unit) (l : Label ι Empty Stmt) : Prop :=
  ∀ k, turnState k c'.shared.pub.db ≠ turnState k c.shared.pub.db →
    (turnState k c.shared.pub.db = none ∧ turnState k c'.shared.pub.db = some .open) ∨
    ∃ i, l = .next i .commit ∧ turnOf calls i = k ∧ Owner calls i c.shared.pub

/-- Nobody commits an `acquire` of the turn while its owner, which has made its last charge, stands at the
    `UPDATE` of the turn or has it pending; and who has checked nothing is the owner at its `UPDATE`. -/
def Unraced (c : Config ι Stmt (World ι) Exn Unit) : Label ι Empty Stmt → Prop
  | .next j st => CheckedAtUpdate calls j st c.shared.pub ∧ (st = .commit →
      ∀ i st', i ≠ j → (c.procs i).At st' → Ending calls i st' c.shared →
        Uncommitted (turnOf calls i) c.shared.pub.db → Owner calls i c.shared.pub →
        ∀ ep, .setOwner (calls i).session (calls i).turn ep ∉ c.shared.server.pending j)
  | _ => True

variable {calls} {c c' : Config ι Stmt (World ι) Exn Unit} {l : Label ι Empty Stmt} {init : World ι → Prop}

theorem plain_caller (i : ι) : Plain true i
    (turnProcess ⟨i, true, 0⟩ (calls i).session (calls i).turn (calls i).plan (calls i).epoch (calls i).crash_at) :=
  plain_turnProcess (x := ⟨i, true, 0⟩)

/-- The promise to whoever ends its turn: only a commit changes the owner, and this one does not. -/
theorem spared_of_unraced (hc : (callers true calls).Reachable init c) (hl : Unraced calls c l)
    (hstep : (callers true calls).step c l = some c') :
    System.okStep ((contract calls).rules true).Ok c l ∧ RelyGuarantee.Spared (Spare calls) c c' l := by
  refine ⟨?_, fun i st hat hother hending hopen howner => ?_⟩
  · cases l with
    | next j st => exact hl.1
    | spawn j => exact trivial
    | die j => exact trivial
    | env e => exact trivial
  · show c'.shared.server.db.turn_owner (turnOf calls i) = c.shared.server.db.turn_owner (turnOf calls i)
    rcases db_of_step plain_caller hc hstep with hdb | ⟨j, rfl, hdb⟩
    · rw [hdb]
    · have hij : i ≠ j := by
        rintro rfl
        exact hother .commit rfl
      rw [hdb]
      exact turn_owner_view (hl.2 rfl i st hij hat hending hopen howner)

theorem callers_verified : RelyGuarantee.VerifiedAt (callers true calls) ((contract calls).rules true) (Spare calls)
    (Contract.Unstarted true) where
  main _ := caller_spec
  pre_stable _ := Contract.stable_at (Contract.keeps_held none)
  guar_rely _ _ _ _ _ hij _ _ hg := Contract.guar_rely hij hg
  abort _ _ hw := Contract.abort_rely hw
  env e := e.elim
  kills e := e.elim

/-- **Who ends a turn owns it**, in every run in which nobody acquires the turn between the last charge and the
    commit that ends it. -/
theorem turn_commit_fenced (calls : ι → Call) (w₀ : World ι) (h₀ : Quiescent w₀)
    (c c' : Config ι Stmt (World ι) Exn Unit) (l : Label ι Empty Stmt)
    (hc : Lts.Reachable (Lts.guard (Unraced calls) (Lts.ofFun (callers true calls).step))
      (System.Start (· = w₀)) c)
    (hl : Unraced calls c l) (hstep : (callers true calls).step c l = some c') : FencedStep calls c c' l := by
  intro k hne
  rcases db_of_step plain_caller hc.of_guard hstep with hdb | ⟨i, rfl, -⟩
  · have hsame : c'.shared.pub.db = c.shared.pub.db := hdb
    rw [hsame] at hne
    exact absurd rfl hne
  · have hguar := callers_verified.guar (fun _ _ _ => spared_of_unraced)
      (Contract.init_of_quiescent true h₀ trivial) hc hl hstep i .commit rfl
    rcases hguar.2.turnState hne with hnew | ⟨hkey, howner⟩
    · exact Or.inl hnew
    · exact Or.inr ⟨i, rfl, hkey, howner⟩

end Runs

/-! ## Two coordinators with one plan

A run that meets the condition although the turn changes hands: the first coordinator is refused at its charge, the
second ends the turn. -/

section Overtaken

local instance driver : Driver := .postgres

variable [DecidableEq ι]

def together (_ : ι) : Call := ⟨"s", "t", some [planStep 5], none, none⟩

def fresh (ι : Type) : World ι := ⟨rest Db.empty, .empty, fun _ => none⟩

/-- The process of a coordinator that has come to `p` in its turn. -/
def closing (x : DTX ι) {α : Type} (p : DtxProg ι α) : DtxProg ι Unit := do
  Prog.tryCatch (do
      let _ ← p
      pure ())
    fun _ => pure ()
  x.rollback

theorem steps_closing {x : DTX ι} {α : Type} {p q : DtxProg ι α} {w w' : World ι}
    (h : p.Steps (fun _ _ => True) w q w') : (closing x p).Steps (fun _ _ => True) w (closing x q) w' :=
  ((h.bind _).tryCatch _).bind _

/-- Up to the end of the turn: the charge is made. -/
theorem steps_to_end (x : DTX ι) (db₀ : Db) {ep : Nat} (hturn : db₀.turns ("s", "t") = none)
    (hrows : ∀ aid, db₀.actions aid = none) (hep : (db₀.turn_owner ("s", "t")).elim 1 (· + 1) = ep) :
    ∃ rs db, (x.run_turn "s" "t" (some [planStep 5]) none none).Steps (fun _ _ => True)
      ⟨rest db₀, .empty, fun _ => none⟩ (x.commit_turn "s" "t" >>= fun _ => pure rs)
      ⟨rest db, .empty, Function.update (fun _ => none) x.conn (some ep)⟩ ∧
    turnState ("s", "t") db = some .open ∧ db.turn_owner ("s", "t") = some ep := by
  obtain ⟨cid, hcid⟩ : ∃ cid, commit_id_of (.arr [planStep 5]) = some cid := exists_commit_id rfl
  obtain ⟨afp, hafp⟩ : ∃ afp,
      args_fingerprint (.obj [(.str "order", .str "O"), (.str "amount", .int 5)]) = some afp :=
    exists_args_fingerprint rfl
  let db₁ : Db := (Write.setOwner "s" "t" ep).apply db₀
  let row : TurnRow := ⟨cid, (Json.arr [planStep 5]).dumps, .open⟩
  let db₂ : Db := DTX.begun "s" "t" row db₁
  let held : ι → Option Nat := Function.update (fun _ => none) x.conn (some ep)
  have hepoch : (x.turnEpoch "s" "t" none).run ⟨rest db₀, .empty, fun _ => none⟩ =
      some (.ok ep, ⟨rest db₁, .empty, held⟩) := by
    rw [DTX.turnEpoch, DTX.run_acquire x, hep]
  have hplan : (x.turnPlan "s" "t" (some [planStep 5])).run ⟨rest db₁, .empty, held⟩ =
      some (.ok (cid, [planStep 5]), ⟨rest db₂, .empty, held⟩) := by
    simp [DTX.turnPlan, DTX.run_begin_turn x hcid, db₂, row]
  have hbegun : db₂ = (Write.insertTurn "s" "t" row).apply db₁ := by
    have hnone : db₁.turns ("s", "t") = none := hturn
    exact if_neg (by simp [hnone])
  have howner : db₂.turn_owner ("s", "t") = some ep := by
    rw [hbegun]
    show Function.update db₀.turn_owner ("s", "t") (some ep) ("s", "t") = some ep
    exact Function.update_self ..
  have hnone : db₂.actions (action_id "s" "t" cid (.int 0)) = none := by
    rw [hbegun]
    exact hrows _
  let ws := Contract.chargeWrites (action_id "s" "t" cid (.int 0)) (DTX.chargeRow "s" "t" (.int 0) afp ep) (.str "O")
    (.int 5)
  have hcharged : (x.runSteps "s" "t" cid ep none [planStep 5]).run ⟨rest db₂, .empty, held⟩ =
      some (.ok _, ⟨rest (ws.foldl (fun d w => w.apply d) db₂), .empty, held⟩) :=
    DTX.run_runSteps_cons x (o := .int 0) rfl rfl (DTX.run_do_charge_new x hafp
      (Ordinal.taken_int (by decide) (by decide)) rfl rfl (billable_plain (by decide) (by decide) (by decide))
      howner hnone) rfl
  -- the three parts in order
  refine ⟨_, _, (Prog.Steps.part hepoch).trans ((Prog.Steps.part hplan).trans (Prog.Steps.part hcharged)), ?_, howner⟩
  show (db₂.turns ("s", "t")).map TurnRow.state = some .open
  rw [hbegun]
  show (Function.update db₁.turns ("s", "t") (some row) ("s", "t")).map TurnRow.state = some .open
  rw [Function.update_self]
  rfl

/-- The `UPDATE` of a turn that is there: what is left is the commit. -/
theorem steps_set_committed {α : Type} (x : DTX ι) (f : Unit → DtxProg ι α) (hpg : x.pg = true) {db : Db}
    {held : ι → Option Nat} {s t : String} {row : TurnRow} (hrow : db.turns (s, t) = some row) :
    (x.commit_turn s t >>= f).Steps (fun _ _ => True) ⟨rest db, .empty, held⟩ (x.commit >>= f)
      ⟨solo x.conn db [.setCommitted s t] [.turn s t], .empty, held⟩ := by
  have hset : (x.set_committed s t).run ⟨rest db, .empty, held⟩ =
      some (.ok (), ⟨solo x.conn db [.setCommitted s t] [.turn s t], .empty, held⟩) := by
    simp [DTX.set_committed, DTX.execute, rest_eq x.conn, hpg, hrow, lockFor]
  exact (Prog.Steps.part hset).bind f

/-- The commit is the next statement. -/
theorem step_closing {α : Type} {S : System ι Empty Stmt (World ι) Exn Unit} {c : Config ι Stmt (World ι) Exn Unit}
    {i : ι} {x : DTX ι} {f : Unit → DtxProg ι α} (hp : c.procs i = .running (closing x (x.commit >>= f))) :
    S.step c (.next i .commit) =
      some ⟨{ c.shared with server := c.shared.server.commit (scheme x.pg) x.conn },
        Function.update c.procs i (.running (closing x (f ())))⟩ :=
  System.step_next hp rfl

theorem turnState_setCommitted {db : Db} {s t : String} {row : TurnRow} (hrow : db.turns (s, t) = some row) :
    turnState (s, t) ((Write.setCommitted s t).apply db) = some .committed := by
  show (db.turns.update (s, t) (fun r => { r with state := .committed }) (s, t)).map TurnRow.state = _
  rw [Table.update_self, hrow]
  rfl

/-- The turn was acquired before. One coordinator goes on with that epoch, the other one takes over. -/
def overtaking : Bool → Call
  | false => ⟨"s", "t", some [planStep 5], some 1, none⟩
  | true => ⟨"s", "t", some [planStep 5], none, none⟩

def acquired : World Bool := ⟨rest ((Write.setOwner "s" "t" 1).apply Db.empty), .empty, fun _ => none⟩

/-- There is a charge, and so a check before the `UPDATE`. -/
theorem checked_overtaking (i : Bool) (st : Stmt) (p : Public Bool) : CheckedAtUpdate overtaking i st p := by
  intro _ hno
  cases i <;> cases hno

section Superseded

variable (x : DTX Bool) {db : Db} {held : Bool → Option Nat} {row : TurnRow} {cid afp : String}

/-- The commit of `begin_turn` has nothing to apply, when the turn is there. -/
theorem guarded_begin_turn (hcid : commit_id_of (.arr [planStep 5]) = some cid)
    (hrow : db.turns ("s", "t") = some row) :
    (x.begin_turn "s" "t" [planStep 5]).Guarded (fun st w => st = .commit → w.server.pending x.conn = [])
      ⟨rest db, .empty, held⟩ := by
  have hpending : ∀ ls, (solo x.conn db [] ls).pending x.conn = [] := fun _ => if_pos rfl
  cases hpg : x.pg <;> simp [DTX.begin_turn, DTX.insert_turn, DTX.insertUnless, DTX.execute, DTX.commit,
    rest_eq x.conn, hcid, hrow, hpg, hpending]

/-- The charge is refused before its transaction has a commit. -/
theorem guarded_do_charge {args : Json} (hafp : args_fingerprint args = some afp)
    (howner : db.turn_owner ("s", "t") = some 2) :
    (x.do_charge "s" "t" cid (.int 0) args 1 false).Guarded (fun st w => st = .commit → w.server.pending x.conn = [])
      ⟨rest db, .empty, held⟩ := by
  cases hpg : x.pg <;> simp [DTX.do_charge, DTX.transaction, DTX.chargeBody, DTX.select_owner, DTX.rollback,
    DTX.execute, rest_eq x.conn, hafp, howner, hpg]

/-- **The coordinator with the old epoch**, once the turn is begun: it is refused, and commits nothing. -/
theorem steps_superseded (hrow : db.turns ("s", "t") = some row) (howner : db.turn_owner ("s", "t") = some 2) :
    (turnProcess x "s" "t" (some [planStep 5]) (some 1) none).Steps
      (fun st w => st = .commit → w.server.pending x.conn = []) ⟨rest db, .empty, held⟩ (.ret ())
      ⟨rest db, .empty, held⟩ := by
  obtain ⟨cid, hcid⟩ : ∃ cid, commit_id_of (.arr [planStep 5]) = some cid := exists_commit_id rfl
  obtain ⟨afp, hafp⟩ : ∃ afp,
      args_fingerprint (.obj [(.str "order", .str "O"), (.str "amount", .int 5)]) = some afp :=
    exists_args_fingerprint rfl
  have hbegun : ∀ row', DTX.begun "s" "t" row' db = db := fun row' => if_pos (by rw [hrow]; rfl)
  have hstale : db.turn_owner ("s", "t") ≠ some 1 := by simp [howner]
  have hordinal : (subscript (planStep 5) "ordinal" >>= asOrdinal) = .ok (.int 0) := rfl
  have hargs : subscript (planStep 5) "args" = .ok (.obj [(.str "order", .str "O"), (.str "amount", .int 5)]) := rfl
  refine .of_run (a := .ok ()) ?_ ?_
  · simp [turnProcess, DTX.run_turn, DTX.turnEpoch, DTX.turnPlan, guarded_begin_turn x hcid hrow,
      DTX.run_begin_turn x hcid, hbegun, DTX.runSteps, hordinal, hargs, guarded_do_charge x hafp howner,
      DTX.run_do_charge_stale x hafp hstale, DTX.rollback]
  · simp [turnProcess, DTX.run_turn, DTX.turnEpoch, DTX.turnPlan, DTX.run_begin_turn x hcid, hbegun, DTX.runSteps,
      hordinal, hargs, DTX.run_do_charge_stale x hafp hstale]

end Superseded

/-- **The coordinator that took over ends the turn as its owner**, after the other one has gone on and was refused
    while it stood at its `UPDATE`. -/
theorem turn_commit_fenced_overtaking : ∃ c c' l,
    Lts.Reachable (Lts.guard (Unraced overtaking) (Lts.ofFun (callers true overtaking).step))
      (System.Start (· = acquired)) c ∧
    (callers true overtaking).step c l = some c' ∧
    turnState ("s", "t") c.shared.pub.db = some .open ∧ turnState ("s", "t") c'.shared.pub.db = some .committed ∧
    c.shared.pub.db.turn_owner ("s", "t") = some 2 ∧ FencedStep overtaking c c' l := by
  let x : DTX Bool := ⟨true, true, 0⟩
  obtain ⟨rs, db, hend, hopen, howner⟩ := steps_to_end x acquired.server.db rfl (fun _ => rfl) rfl
  obtain ⟨row, hrow, -⟩ := Option.map_eq_some_iff.mp hopen
  -- while the other one has not begun, or is done, a commit races with nothing
  have halone : ∀ (c : Config Bool Stmt (World Bool) Exn Unit) st, (∀ st', ¬ (c.procs false).At st') →
      Unraced overtaking c (.next true st) := by
    refine fun c st hno => ⟨checked_overtaking true st c.shared.pub, fun _ j st' hj hat => ?_⟩
    cases j with
    | false => exact absurd hat (hno st')
    | true => exact absurd rfl hj
  have hstart : Lts.Reachable (Lts.guard (Unraced overtaking) (Lts.ofFun (callers true overtaking).step))
      (System.Start (· = acquired)) ⟨acquired, fun _ => .fresh⟩ := Lts.Reachable.start ⟨rfl, fun _ => rfl⟩
  -- one coordinator takes over, and makes the charge
  have hspawn := System.reachable_spawn hstart (i := true) rfl trivial
  have hcharged := System.reachable_steps hspawn (Function.update_self ..) (steps_closing hend) fun t _ _ _ =>
    halone _ t fun _ hat => hat
  -- the other one goes on, and commits nothing while the first stands at its `UPDATE`
  have hspawn' := System.reachable_spawn hcharged (i := false) rfl trivial
  have hrefused := System.reachable_steps hspawn' (Function.update_self ..)
    (steps_superseded ⟨false, true, 0⟩ hrow howner) fun t w _ hmet =>
      ⟨checked_overtaking false t w.pub, fun hcommit _ _ _ _ _ _ _ _ hmem => by
        rw [hmet hcommit] at hmem
        cases hmem⟩
  -- the first one ends the turn
  have hset := System.reachable_steps hrefused (i := true) rfl
    (steps_closing (steps_set_committed x (fun _ => pure rs) rfl hrow)) fun t _ _ _ => halone _ t fun _ hat => hat
  refine ⟨_, _, .next true .commit, hset, step_closing (x := x) (f := fun _ => pure rs) rfl, hopen,
    turnState_setCommitted hrow, howner, ?_⟩
  exact turn_commit_fenced overtaking acquired (quiescent_rest _ _) _ _ _ hset (halone _ .commit fun _ hat => hat)
    (step_closing (x := x) (f := fun _ => pure rs) rfl)

/-- A coordinator that was overtaken after its charge sets the turn committed. -/
theorem stale_turn_commit : Quiescent (fresh Bool) ∧ ∃ c c' l,
    (callers true together).Reachable (· = fresh Bool) c ∧ (callers true together).step c l = some c' ∧
    ¬ FencedStep together c c' l := by
  let x : Bool → DTX Bool := fun i => ⟨i, true, 0⟩
  obtain ⟨rs, db, hend, hopen, howner⟩ := steps_to_end (x true) Db.empty rfl (fun _ => rfl) rfl
  obtain ⟨row, hrow, -⟩ := Option.map_eq_some_iff.mp hopen
  have hstart : (callers true together).Reachable (· = fresh Bool) ⟨fresh Bool, fun _ => .fresh⟩ :=
    Lts.Reachable.start ⟨rfl, fun _ => rfl⟩
  have hcharged := (hstart.spawn (i := true) rfl).steps (Function.update_self ..) (steps_closing hend)
  -- the other coordinator takes over
  let db₂ : Db := (Write.setOwner "s" "t" 2).apply db
  let held₁ : Bool → Option Nat := Function.update (fun _ => none) true (some 1)
  let held₂ : Bool → Option Nat := Function.update held₁ false (some 2)
  have hacquire : ((x false).acquire "s" "t").run ⟨rest db, .empty, held₁⟩ =
      some (.ok 2, ⟨rest db₂, .empty, held₂⟩) := by
    rw [DTX.run_acquire, howner]
    rfl
  have hovertaken := (hcharged.spawn (i := false) rfl).steps (Function.update_self ..)
    (steps_closing (Prog.Steps.part hacquire))
  -- the first one goes on
  have hrow₂ : db₂.turns ("s", "t") = some row := hrow
  have hset := hovertaken.steps (i := true) rfl
    (steps_closing (steps_set_committed (x true) (fun _ => pure rs) rfl hrow₂))
  refine ⟨quiescent_rest _ _, _, _, .next true .commit, hset,
    step_closing (x := x true) (f := fun _ => pure rs) rfl, fun h => ?_⟩
  have hbefore : turnState ("s", "t") db₂ = some .open := hopen
  have hne : some TurnState.committed ≠ some .open := by simp
  rcases h ("s", "t") fun he => hne ((turnState_setCommitted hrow₂).symm.trans (he.trans hbefore)) with
    ⟨hnone, -⟩ | ⟨i, hi, -, ep, hep, hcurrent⟩
  · cases hbefore.symm.trans hnone
  · -- its epoch is 1, the turn's is 2
    cases hi
    cases hep
    cases hcurrent

end Overtaken

end AgentTx.Dtx.TurnCommit
