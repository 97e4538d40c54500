import AgentTx.Dtx.Alone

/-!
# `Dtx.Fence` — the fence of `do_charge` on SQLite

On SQLite the fence reads the owner epoch before the transaction has begun: the database is locked only by
the claim that follows. A coordinator that acquires the turn in between is not noticed, and the older one
commits (`stale_commit`). When the epoch is still the coordinator's at every claim that it makes, the lock
taken there keeps it so up to the commit, and no row is committed by an overtaken coordinator
(`rows_fenced`).

Layout of the proof:
* **The contract** — `May i` allows `i` a row only under an epoch that is the turn's. The claim of `do_charge` has to
  meet `StillOwner`: at that statement, and there alone, the run is asked that nobody has acquired the turn.
* **From the claim to the commit** — the lock on the database keeps everybody else out (`do_charge_spec`), so that
  what the claim found is still so when the row is committed.
* **The counterexample** — a charge is cut at its claim (`steps_fence`, `steps_to_claim`, `steps_to_commit`), and
  another coordinator acquires the turn in the gap.

Main results: `rows_fenced`, and `stale_commit` for a run that does not meet the condition.
-/

namespace AgentTx.Dtx.Fence

variable {ι : Type}

/-- A call of `do_charge`, but for the turn and the token. -/
structure Charge where
  commit_id : String
  ordinal : Ordinal
  args : Json
  mid : Bool

/-- A coordinator: the turn that it acquires, and the charges that it makes with its token. -/
structure Role where
  session : String
  turn : String
  charges : List Charge

def Role.key (role : Role) : String × String := (role.session, role.turn)

section Process

variable [DecidableEq ι] [Driver] (self : DTX ι)

/-- One charge; whatever it raises, the coordinator may go on. -/
def attempt (role : Role) (epoch : Nat) (ch : Charge) : DtxProg ι Unit :=
  Prog.tryCatch (do
      let _ ← self.do_charge role.session role.turn ch.commit_id ch.ordinal ch.args epoch ch.mid
      pure ())
    fun _ => pure ()

def coordinator (role : Role) : DtxProg ι Unit := do
  let epoch ← self.acquire role.session role.turn
  Prog.forEach role.charges (attempt self role epoch)

end Process

/-- At the claim of an action that nobody has, the epoch is still the coordinator's. -/
def StillOwner (key : ι → String × String) (i : ι) (st : Stmt) (p : Public ι) : Prop :=
  ∀ aid, st = .insert_action aid → p.db.actions aid = none → p.held i = p.db.turn_owner (key i)

/-! ## The contract -/

section Contract

/-- What coordinator `i` may do: it commits rows of `actions` under the epoch that is the turn's, and
    charges with them. -/
structure May (i : ι) (p p' : Public ι) : Prop where
  action : ∀ aid r, p'.db.actions aid = some r → p.db.actions aid ≠ some r →
    p.held i = some r.owner_epoch ∧ p.db.turn_owner (r.session, r.turn) = some r.owner_epoch
  charge : ∀ aid, p'.db.chargesOf aid ≠ p.db.chargesOf aid →
    ∃ r, p'.db.actions aid = some r ∧ p.db.actions aid ≠ some r

/-- A step that touches neither table. -/
theorem May.same {i : ι} {p p' : Public ι} (hactions : p'.db.actions = p.db.actions)
    (hcharges : p'.db.charges = p.db.charges) : May i p p' where
  action aid r h hne := by
    rw [hactions] at h
    exact absurd h hne
  charge aid hne := by
    exact absurd (Db.chargesOf_congr hcharges aid) hne

def contract (key : ι → String × String) : Contract ι where
  inv _ := True
  may := May
  may_refl _ _ := May.same rfl rfl
  ok := StillOwner key

variable {key : ι → String × String} {i : ι} {p : Public ι} {s t cid : String} {ep pid : Nat}

/-- The commit of a charge, by the coordinator whose epoch is the turn's. -/
theorem May.charged {aid afp : String} {o : Ordinal} {order amount : Json} (hheld : p.held i = some ep)
    (howner : p.db.turn_owner (s, t) = some ep) (hnone : p.db.actions aid = none) :
    May i p (p.commit (Contract.chargeWrites aid (DTX.chargeRow s t o afp ep) order amount)) where
  action aid' r hr hne := by
    by_cases haid : aid' = aid
    · subst haid
      rw [Contract.charged_action_self] at hr
      cases hr
      exact ⟨hheld, howner⟩
    · rw [Contract.charged_action_of_ne haid] at hr
      exact absurd hr hne
  charge aid' hne := by
    by_cases haid : aid' = aid
    · subst haid
      refine ⟨_, Contract.charged_action_self, ?_⟩
      rw [hnone]
      exact nofun
    · exact absurd (Contract.charged_chargesOf_of_ne haid) hne

variable [DecidableEq ι] [Driver]

omit [Driver] in
theorem acquire_spec (s t : String) :
    ((contract key).rules false).Triple i (Contract.At false i [] [] fun p => p.held i = none)
      (DTX.acquire ⟨i, false, pid⟩ s t) (fun ep => Contract.At false i [] [] fun p => p.held i = some ep)
      fun _ _ => True := by
  refine Contract.acquire (c := ⟨i, false, pid⟩) (Contract.keeps_held none) fun p ep _ _ _ => ?_
  exact ⟨trivial, May.same rfl rfl, Contract.acquired_held⟩

/-- **`do_charge` on SQLite.** The lock that the claim takes protects the owner row as well. -/
theorem do_charge_spec {o : Ordinal} {args : Json} {mid : Bool} (hkey : key i = (s, t)) :
    ((contract key).rules false).Triple i (Contract.At false i [] [] fun p => p.held i = some ep)
      (DTX.do_charge ⟨i, false, pid⟩ s t cid o args ep mid)
      (fun _ => Contract.At false i [] [] fun p => p.held i = some ep)
      fun _ => Contract.At false i [] [] fun p => p.held i = some ep := by
  have hheld : (contract key).Keeps i [] fun p => p.held i = some ep := Contract.keeps_held _
  have howner : (contract key).Keeps i [.action (action_id s t cid o), .owner s t] fun p =>
      p.db.turn_owner (s, t) = some ep :=
    Contract.keeps_row (l := .owner s t) (by simp) nofun fun p p' hrow hep => by
      rw [← show p.db.turn_owner (s, t) = p'.db.turn_owner (s, t) from hrow]
      exact hep
  have hwon := ((hheld.mono fun l hl => absurd hl List.not_mem_nil).and howner).and
    (Contract.keeps_action (c := ⟨i, false, pid⟩) (C := contract key) List.mem_cons_self none)
  refine Contract.charge (c := ⟨i, false, pid⟩) hheld (fun _ => hheld) hwon (fun afp _ => ?_)
    fun p afp order amount _ hw _ _ _ _ => ⟨trivial, May.charged hw.1.1 hw.1.2 hw.2, hw.1.1⟩
  refine (Contract.select_owner (c := ⟨i, false, pid⟩) hheld).bind fun r => ?_
  by_cases hr : r = some ep
  · simp only [ne_eq, hr, not_true_eq_false, if_false]
    -- nothing is locked yet: what the fence has read may be outdated when the claim is made
    refine (Contract.claim (c := ⟨i, false, pid⟩) _ hheld hwon (fun l _ => ⟨_, List.mem_cons_self, rfl⟩)
      List.mem_cons_self (fun p _ hh hok hn => ⟨⟨hh, ?_⟩, hn⟩) (fun _ _ _ _ hh _ _ _ _ => hh) (fun _ hh => hh)
      fun _ hw => hw.1.1).pre fun w _ hat => ?_
    · rw [← hkey, ← hok _ rfl hn]
      exact hh
    · exact hat.mono (fun l hl => absurd hl List.not_mem_nil) fun hf => hf.1
  · simp only [ne_eq, hr, not_false_eq_true, if_true]
    exact fun w _ hat => hat.fact.1

/-- **Every coordinator keeps the contract.** -/
theorem coordinator_spec {role : Role} (hkey : key i = role.key) :
    ((contract key).rules false).Triple i (Contract.Unstarted false i) (coordinator ⟨i, false, pid⟩ role)
      (fun _ _ => True) fun _ _ => True := by
  refine (acquire_spec role.session role.turn).bind fun ep => ?_
  have hattempt : ∀ (ch : Charge) (_ : List Charge), ((contract key).rules false).Triple i
      (Contract.At false i [] [] fun p => p.held i = some ep) (attempt ⟨i, false, pid⟩ role ep ch)
      (fun _ => Contract.At false i [] [] fun p => p.held i = some ep) fun _ _ => True := by
    intro ch _
    refine ((do_charge_spec hkey).bind fun _ => ?_).tryCatch fun _ => ?_
    · exact fun _ _ hat => hat
    · exact fun _ _ hat => hat
  have hall := RelyGuarantee.Triple.forEach
    (P := fun _ => Contract.At false i [] [] fun p => p.held i = some ep) hattempt role.charges
  exact hall.post fun _ _ _ _ => trivial

end Contract

/-! ## Runs -/

/-- The coordinators of a run. -/
structure Crew (ι : Type) where
  role : ι → Role
  pid : ι → Nat

section Runs

variable [DecidableEq ι] [Driver]

/-- They share one SQLite database. -/
def Crew.system (crew : Crew ι) : System ι Empty Stmt (World ι) Exn Unit :=
  Dtx.system fun i => coordinator ⟨i, false, crew.pid i⟩ (crew.role i)

/-- What a step commits to `actions` carries the token of the coordinator whose step it is, and that is the
    turn's epoch at the moment; what it commits to `charges` goes with such a row. -/
structure FencedStep (c c' : Config ι Stmt (World ι) Exn Unit) (l : Label ι Empty Stmt) : Prop where
  action : ∀ aid r, c'.shared.server.db.actions aid = some r → c.shared.server.db.actions aid ≠ some r →
    ∃ i t, l = .next i t ∧ c.shared.held i = some r.owner_epoch ∧
      c.shared.server.db.turn_owner (r.session, r.turn) = some r.owner_epoch
  charge : ∀ aid, c'.shared.server.db.chargesOf aid ≠ c.shared.server.db.chargesOf aid →
    ∃ r, c'.shared.server.db.actions aid = some r ∧ c.shared.server.db.actions aid ≠ some r

/-- The condition, on the statements of a run. -/
def Crew.Ok (crew : Crew ι) (i : ι) (st : Stmt) (w : World ι) : Prop :=
  StillOwner (fun i => (crew.role i).key) i st w.pub

/-- **The fence on SQLite**, in every run in which no coordinator is overtaken between its check and its
    claim. -/
theorem rows_fenced (crew : Crew ι) (w₀ : World ι) (h₀ : Quiescent w₀)
    (c c' : Config ι Stmt (World ι) Exn Unit) (l : Label ι Empty Stmt)
    (hc : crew.system.ReachableWhen crew.Ok (· = w₀) c) (hok : System.okStep crew.Ok c l)
    (hstep : crew.system.step c l = some c') : FencedStep c c' l := by
  have hverified : RelyGuarantee.Verified crew.system
      ((contract fun i => (crew.role i).key).rules false) (Contract.Unstarted false) :=
    Contract.verified fun _ => coordinator_spec rfl
  have hinit := Contract.init_of_quiescent (C := contract fun i => (crew.role i).key) false h₀ trivial
  have hguar := (hverified.step hverified.ends (hverified.configOk hverified.ends hinit hc) hok hstep).2
  have hmay : (∃ i t, l = .next i t ∧ May i c.shared.pub c'.shared.pub) ∨ c'.shared.pub = c.shared.pub :=
    Contract.may_step hguar hstep
  rcases hmay with ⟨i, t, rfl, hmay⟩ | hsame
  · refine ⟨fun aid r hr hne => ?_, hmay.charge⟩
    exact ⟨i, t, rfl, hmay.action aid r hr hne⟩
  · have hdb : c'.shared.server.db = c.shared.server.db := congrArg Public.db hsame
    refine ⟨fun aid r hr hne => absurd ?_ hne, fun aid hne => absurd ?_ hne⟩
    · rw [← hdb]
      exact hr
    · rw [hdb]

/-! ## A charge, up to its commit -/

section Alone

variable (x : DTX ι) {db : Db} {fs : FileSys} {held : ι → Option Nat} {role : Role} {afp : String} {ep : Nat}
  {ch : Charge} {ok : Stmt → World ι → Prop}

/-- What is left of the transaction when the fence has been passed. -/
def claiming (role : Role) (afp : String) (epoch : Nat) (ch : Charge) : DtxProg ι (Tag × Option Json) := do
  let aid := action_id role.session role.turn ch.commit_id ch.ordinal
  if ← x.insert_action aid (DTX.chargeRow role.session role.turn ch.ordinal afp epoch) then
    x.chargeEffect aid ch.args ch.mid
  else x.chargeFound aid afp

/-- What is left of the coordinator, with no other charge to make. -/
def finishing (body : DtxProg ι (Tag × Option Json)) : DtxProg ι Unit := do
  Prog.tryCatch (do
      let _ ← x.transaction body
      pure ())
    fun _ => pure ()
  pure ()

/-- `do_charge` past its fence: the epoch read is the token, and nothing is locked. -/
theorem steps_fence (hpg : x.pg = false) (hafp : args_fingerprint ch.args = some afp)
    (howner : db.turn_owner role.key = some ep) (hok : ∀ w st, (∀ aid, st ≠ .insert_action aid) → ok st w) :
    (x.do_charge role.session role.turn ch.commit_id ch.ordinal ch.args ep ch.mid).Steps ok
      ⟨rest db, fs, held⟩ (x.transaction (claiming x role afp ep ch)) ⟨rest db, fs, held⟩ := by
  have hvalue : (Prog.ofOption .TypeError (args_fingerprint ch.args) : DtxProg ι String).run
      ⟨rest db, fs, held⟩ = some (.ok afp, ⟨rest db, fs, held⟩) := by
    rw [Prog.run_ofOption, hafp]
    rfl
  have hselect : (x.select_owner role.session role.turn).run ⟨rest db, fs, held⟩ =
      some (.ok (some ep), ⟨rest db, fs, held⟩) := by
    simp [DTX.select_owner, DTX.execute, rest_eq x.conn, hpg, ← howner, Role.key]
  have hguard : (x.select_owner role.session role.turn).Guarded ok ⟨rest db, fs, held⟩ := by
    simp [DTX.select_owner, DTX.execute, hok]
  refine (Prog.Steps.of_run_bind (by simp) hvalue).trans ?_
  refine (Prog.Steps.bind ?_ _).tryCatch _
  have hpass := Prog.Steps.of_run_bind (f := fun r => if r ≠ some ep then .raise .StaleOwner
    else claiming x role afp ep ch) hguard hselect
  simp only [ne_eq, not_true_eq_false, if_false] at hpass
  exact hpass

/-- The coordinator, alone, up to its claim. -/
theorem steps_to_claim (hpg : x.pg = false) (hch : role.charges = [ch])
    (hep : (db.turn_owner role.key).elim 1 (· + 1) = ep) (hafp : args_fingerprint ch.args = some afp)
    (hok : ∀ w st, (∀ aid, st ≠ .insert_action aid) → ok st w) :
    (coordinator x role).Steps ok ⟨rest db, fs, held⟩ (finishing x (claiming x role afp ep ch))
      ⟨rest ((Write.setOwner role.session role.turn ep).apply db), fs,
        Function.update held x.conn (some ep)⟩ := by
  subst hep
  have hguard : (x.acquire role.session role.turn).Guarded ok ⟨rest db, fs, held⟩ := by
    simp [DTX.acquire, DTX.upsert_owner, DTX.execute, hok]
  refine (Prog.Steps.of_run_bind hguard x.run_acquire).trans ?_
  rw [hch]
  have howner : ((Write.setOwner role.session role.turn ((db.turn_owner role.key).elim 1 (· + 1))).apply
      db).turn_owner role.key = some ((db.turn_owner role.key).elim 1 (· + 1)) := Function.update_self ..
  exact (((steps_fence x hpg hafp howner hok).bind _).tryCatch _).bind _

variable (fs afp ep) in
/-- The claim is won, and its three writes are pending. -/
theorem steps_to_commit {order amount : Json} (hpg : x.pg = false) (hmid : ch.mid = false)
    (ho : ch.ordinal.taken = true) (horder : subscript ch.args "order" = .ok order)
    (hamount : subscript ch.args "amount" = .ok amount) (hbill : billable order amount = true)
    (hnone : db.actions (action_id role.session role.turn ch.commit_id ch.ordinal) = none)
    (hok : ∀ w : World ι, w.server.db = db → w.held = held → ∀ st, ok st w) :
    ∃ res ls, (claiming x role afp ep ch).Steps ok ⟨rest db, fs, held⟩ (.ret res)
      ⟨solo x.conn db (Contract.chargeWrites (action_id role.session role.turn ch.commit_id ch.ordinal)
        (DTX.chargeRow role.session role.turn ch.ordinal afp ep) order amount) ls, fs, held⟩ := by
  have hrun : ∃ res ls, (claiming x role afp ep ch).run ⟨rest db, fs, held⟩ = some (.ok res,
      ⟨solo x.conn db (Contract.chargeWrites (action_id role.session role.turn ch.commit_id ch.ordinal)
        (DTX.chargeRow role.session role.turn ch.ordinal afp ep) order amount) ls, fs, held⟩) := by
    simp [claiming, DTX.insert_action, DTX.chargeEffect, DTX.insert_charge, DTX.set_result, DTX.execute,
      DTX.insertUnless, rest_eq x.conn, hpg, hmid, ho, horder, hamount, hbill, hnone, Contract.chargeWrites]
  have hguard : (claiming x role afp ep ch).Guarded ok ⟨rest db, fs, held⟩ := by
    have hsolo : ∀ ws ls st, ok st ⟨solo x.conn db ws ls, fs, held⟩ := fun ws ls st => hok _ rfl rfl st
    simp [claiming, DTX.insert_action, DTX.chargeEffect, DTX.insert_charge, DTX.set_result, DTX.execute,
      DTX.insertUnless, rest_eq x.conn, hpg, hmid, ho, horder, hamount, hbill, hnone, hsolo]
  obtain ⟨res, ls, hrun⟩ := hrun
  exact ⟨res, ls, .of_run hguard hrun⟩

omit [Driver] in
theorem steps_finishing {p q : DtxProg ι (Tag × Option Json)} {w w' : World ι} (h : p.Steps ok w q w') :
    (finishing x p).Steps ok w (finishing x q) w' :=
  (((h.bind _).tryCatch _).bind _).tryCatch _ |>.bind _

end Alone

/-- A coordinator that stands at its claim, with nobody in its way, commits: before that step the tables
    are as they were. -/
theorem commits {crew : Crew ι} {ok : ι → Stmt → World ι → Prop} {init : World ι → Prop} {i : ι} {pid : Nat}
    {role : Role} {ch : Charge} {afp : String} {ep : Nat} {db : Db} {fs : FileSys} {held : ι → Option Nat}
    {procs : ι → Proc Stmt (World ι) Exn Unit} {order amount : Json} (hmid : ch.mid = false)
    (ho : ch.ordinal.taken = true) (horder : subscript ch.args "order" = .ok order)
    (hamount : subscript ch.args "amount" = .ok amount) (hbill : billable order amount = true)
    (hnone : db.actions (action_id role.session role.turn ch.commit_id ch.ordinal) = none)
    (hc : crew.system.ReachableWhen ok init ⟨⟨rest db, fs, held⟩, procs⟩)
    (hp : procs i = .running (finishing ⟨i, false, pid⟩ (claiming ⟨i, false, pid⟩ role afp ep ch)))
    (hok : ∀ w : World ι, w.server.db = db → w.held = held → ∀ st, ok i st w) :
    ∃ c c', crew.system.ReachableWhen ok init c ∧ crew.system.step c (.next i .commit) = some c' ∧
      c.shared.server.db = db ∧ c.shared.held = held ∧
      c'.shared.server.db = (Contract.chargeWrites
        (action_id role.session role.turn ch.commit_id ch.ordinal)
        (DTX.chargeRow role.session role.turn ch.ordinal afp ep) order amount).foldl
          (fun d w => w.apply d) db := by
  obtain ⟨res, ls, hsteps⟩ := steps_to_commit (⟨i, false, pid⟩ : DTX ι) fs afp ep rfl hmid
    ho horder hamount hbill hnone hok
  have hready := hc.steps hp (steps_finishing _ hsteps)
  refine ⟨_, _, hready, System.step_next (Function.update_self ..) rfl, rfl, rfl, ?_⟩
  exact congrArg TxServer.db solo_commit

end Runs

/-! Two coordinators; the first one has a charge to make. -/

section TwoCoordinators

local instance driver : Driver := .sqlite

def charge : Charge := ⟨"c", .int 0, .obj [(.str "order", .str "O"), (.str "amount", .int 5)], false⟩

def crew : Crew Bool := ⟨fun i => ⟨"s", "t", if i then [charge] else []⟩, fun _ => 1⟩

def fresh : World Bool := ⟨rest Db.empty, .empty, fun _ => none⟩

theorem charge_fp : ∃ afp, args_fingerprint charge.args = some afp := exists_args_fingerprint rfl

/-- The first one has acquired. -/
def acquired : Db := (Write.setOwner "s" "t" 1).apply Db.empty

/-- It stands at its claim. -/
theorem at_claim (ok : Bool → Stmt → World Bool → Prop) {afp : String}
    (hafp : args_fingerprint charge.args = some afp)
    (hok : ∀ w st, (∀ aid, st ≠ .insert_action aid) → ok true st w) :
    ∃ procs, crew.system.ReachableWhen ok (· = fresh)
        ⟨⟨rest acquired, .empty, Function.update (fun _ => none) true (some 1)⟩, procs⟩ ∧
      procs true = .running (finishing ⟨true, false, 1⟩ (claiming ⟨true, false, 1⟩ (crew.role true) afp 1 charge)) ∧
      procs false = .fresh := by
  have hstart : crew.system.ReachableWhen ok (· = fresh) ⟨fresh, fun _ => .fresh⟩ :=
    Lts.Reachable.start ⟨rfl, fun _ => rfl⟩
  have hsteps : (coordinator ⟨true, false, 1⟩ (crew.role true)).Steps (ok true) fresh
      (finishing ⟨true, false, 1⟩ (claiming ⟨true, false, 1⟩ (crew.role true) afp 1 charge))
      ⟨rest acquired, .empty, Function.update (fun _ => none) true (some 1)⟩ :=
    steps_to_claim ⟨true, false, 1⟩ rfl rfl rfl hafp hok
  exact ⟨_, (hstart.spawn (i := true) rfl).steps (Function.update_self ..) hsteps, Function.update_self .., rfl⟩

theorem charge_taken : charge.ordinal.taken = true := Ordinal.taken_int (by decide) (by decide)

theorem charge_billable : billable (.str "O") (.int 5) = true := billable_plain (by decide) (by decide) (by decide)

theorem charge_order : subscript charge.args "order" = .ok (.str "O") := rfl

theorem charge_amount : subscript charge.args "amount" = .ok (.int 5) := rfl

/-- When it commits there, before anything else happens, it does so as the turn's owner. -/
theorem rows_fenced_charge : ∃ c c', crew.system.step c (.next true .commit) = some c' ∧
    c'.shared.server.db.charges.length = 1 ∧ FencedStep c c' (.next true .commit) := by
  obtain ⟨afp, hafp⟩ := charge_fp
  obtain ⟨procs, hclaim, htrue, -⟩ := at_claim crew.Ok hafp fun _ _ hst aid h => absurd h (hst aid)
  obtain ⟨c, c', hc, hstep, -, -, hdb⟩ :=
    commits rfl charge_taken charge_order charge_amount charge_billable rfl hclaim htrue
      fun w hdb hheld st aid _ _ => by
        show w.held true = w.server.db.turn_owner ("s", "t")
        rw [hdb, hheld]
        rfl
  refine ⟨c, c', hstep, ?_, rows_fenced crew fresh (quiescent_rest _ _) c c' _ hc nofun hstep⟩
  rw [hdb]
  rfl

/-- The second one acquires between the check and the claim of the first one, which commits all the same. -/
theorem stale_commit : Quiescent fresh ∧ ∃ c c' l, crew.system.Reachable (· = fresh) c ∧
    crew.system.step c l = some c' ∧ ¬ FencedStep c c' l := by
  obtain ⟨afp, hafp⟩ := charge_fp
  obtain ⟨procs, hclaim, htrue, hfalse⟩ := at_claim (fun _ _ _ => True) hafp fun _ _ _ => trivial
  have hovertaken : crew.system.ReachableWhen (fun _ _ _ => True) (· = fresh)
      ⟨⟨rest ((Write.setOwner "s" "t" 2).apply acquired), .empty, _⟩, _⟩ :=
    (hclaim.spawn (i := false) hfalse).steps (Function.update_self ..)
      (Prog.Steps.part (DTX.run_acquire ⟨false, false, 1⟩))
  obtain ⟨c, c', hc, hstep, hdb, -, hdb'⟩ :=
    commits (i := true) rfl charge_taken charge_order charge_amount charge_billable rfl hovertaken htrue
      fun _ _ _ _ => trivial
  refine ⟨quiescent_rest _ _, c, c', _, hc.of_guard, hstep, fun hfenced => ?_⟩
  -- its row carries epoch 1, and the turn's is 2
  let res := Json.obj [(.str "order", .str "O"), (.str "amount", .int 5)]
  have hrow : c'.shared.server.db.actions (action_id "s" "t" "c" (.int 0)) =
      some { DTX.chargeRow "s" "t" (.int 0) afp 1 with result := some res.dumps } := by
    rw [hdb']
    exact Contract.charged_action_self (p := (⟨_, .empty, fun _ => none⟩ : Public Bool))
  obtain ⟨_, _, -, -, howner⟩ := hfenced.action _ _ hrow (by rw [hdb]; exact nofun)
  rw [hdb] at howner
  have hepoch : (some 2 : Option Nat) = some 1 := howner
  cases hepoch

end TwoCoordinators

end AgentTx.Dtx.Fence
