import AgentTx.Dtx.Alone
import AgentTx.Dtx.Files

/-!
# `Dtx.Durable` — a committed overlay row has its file, also across a machine crash

`do_overlay` fsyncs the directory after its own rename, and only then records. But a call that finds the
receipt there records at once, on the strength of a rename that nobody may have fsynced: a crash may undo
it (`lost_receipt`). When a receipt that is found already survives a crash, the rows have their files
(`rows_have_files`).

Layout of the proof:
* **The contract** — every row has a receipt whose directory entry is on disk. What a machine crash does is a step of
  the contract too, which keeps it.
* **The two ways to a row** — a receipt that the call publishes is made durable by the call; one that it finds has to
  survive (`FoundSurvives`), which is the condition on the run, at the statement that looks for it (`overlayOk`).
* **Runs** — any number of processes, deaths and crashes of the machine (`rows_have_files`).

Main results: `rows_have_files`, and `lost_receipt` for a receipt that is found before its directory entry is on disk.
-/

namespace AgentTx.Dtx.Durable

variable {ι : Type}

/-- A call of `do_overlay`. -/
structure Call where
  session : String
  turn : String
  commit_id : String
  ordinal : Ordinal
  args : Json
  epoch : Nat

section Process

variable [DecidableEq ι] [Driver] (self : DTX ι) (store : String)

def overlayCall (k : Call) : DtxProg ι Unit := do
  let _ ← self.do_overlay k.session k.turn k.commit_id k.ordinal k.args k.epoch store
  pure ()

/-- A process that makes calls of `do_overlay`, until one raises. -/
def overlayProcess (calls : List Call) : DtxProg ι Unit := do
  Prog.tryCatch (Prog.forEach calls (overlayCall self store)) fun _ => pure ()
  self.rollback

end Process

/-- Every overlay row has its receipt. -/
def RowsHaveFiles (store : String) (db : Db) (files : FileSys) : Prop :=
  ∀ aid r, db.actions aid = some r → r.klass = .overlay → (files.dir (DTX.receipt store aid)).isSome

/-- A receipt that a call finds there survives a crash. -/
def FoundSurvives (_ : ι) (st : Stmt) (p : Public ι) : Prop :=
  ∀ P, st = .file (.pathExists P) → p.files.pathExists P = true → p.files.Survives P

/-! ## The contract -/

section Contract

variable (store : String)

/-- Every overlay row has a receipt that survives a crash. -/
def Inv (p : Public ι) : Prop :=
  ∀ aid r, p.db.actions aid = some r → r.klass = .overlay → p.files.Survives (DTX.receipt store aid)

/-- Receipts stay, and so does what makes them survive. -/
structure May (_ : ι) (p p' : Public ι) : Prop where
  there : ∀ aid, (p.files.dir (DTX.receipt store aid)).isSome → (p'.files.dir (DTX.receipt store aid)).isSome
  survives : ∀ aid, p.files.Survives (DTX.receipt store aid) → p'.files.Survives (DTX.receipt store aid)

def contract : Contract ι where
  inv := Inv store
  may := May store
  may_refl _ _ := ⟨fun _ h => h, fun _ h => h⟩
  ok := FoundSurvives

variable {store} {i : ι} {p : Public ι}

theorem May.inv {p' : Public ι} (hmay : May store i p p') (hp : Inv store p) (hdb : p'.db = p.db) :
    Inv store p' := by
  intro aid r hr hk
  rw [hdb] at hr
  exact hmay.survives aid (hp aid r hr hk)

/-- The stages of one overlay: the receipt is published, then it survives a crash. -/
def phases (store aid : String) : Contract.Phases ι where
  before _ := True
  writing _ _ _ := True
  written _ := True
  published p := (p.files.dir (DTX.receipt store aid)).isSome
  ready p := p.files.Survives (DTX.receipt store aid)
  after _ := True

variable {s t cid : String} {o : Ordinal} {args : Json} {ep pid : Nat} {pg : Bool}

theorem overlayOk : Contract.OverlayOk (contract store) (⟨i, pg, pid⟩ : DTX ι) s t cid o args ep store
    (phases store (action_id s t cid o)) where
  before := Contract.keeps_const True
  writing _ _ := Contract.keeps_const True
  written := Contract.keeps_const True
  published := fun _ _ _ _ _ _ hmay _ _ h => hmay.there _ h
  ready := fun _ _ _ _ _ _ hmay _ _ h => hmay.survives _ h
  after := Contract.keeps_const True
  exists_ p _ _ hok hexists := hok _ rfl hexists
  open_ p text _ hp _ := by
    have hmay : May store i p
        (p.withFiles (p.files.openTrunc (DTX.overlayTmp store (action_id s t cid o) pid ep))) := by
      refine ⟨fun aid h => ?_, fun aid h => h.openTrunc _⟩
      rw [← FileSys.openTrunc_dir_of_ne p.files (receipt_ne_overlayTmp store aid _ pid ep)] at h
      exact h
    exact ⟨hmay.inv hp rfl, hmay, trivial⟩
  write p text n k b _ _ hp _ := ⟨hp, ⟨fun _ h => h, fun _ h => h⟩, trivial⟩
  fsync p text n _ hp _ := ⟨hp, ⟨fun _ h => h, fun _ h => h⟩, trivial⟩
  replace p fs hp _ hr := by
    obtain ⟨n, -, hdir, -⟩ := FileSys.replace_eq_some hr
    have hself : (fs.dir (DTX.receipt store (action_id s t cid o))).isSome := by
      rw [hdir, Function.update_self]
      rfl
    have hmay : May store i p (p.withFiles fs) := by
      refine ⟨fun aid h => ?_, fun aid h => h.replace hr (receipt_ne_overlayTmp store aid _ pid ep)⟩
      -- the path just renamed onto, or another one
      by_cases haid : DTX.receipt store aid = DTX.receipt store (action_id s t cid o)
      · rw [haid]
        exact hself
      · show (fs.dir (DTX.receipt store aid)).isSome
        rw [hdir, Function.update_of_ne haid, Function.update_of_ne (receipt_ne_overlayTmp store aid _ pid ep)]
        exact h
    exact ⟨hmay.inv hp rfl, hmay, hself⟩
  fsyncDir p hp hpub := by
    have hmay : May store i p (p.withFiles (p.files.fsyncDir (store ++ "/committed"))) :=
      ⟨fun _ h => h, fun _ h => h.fsyncDir _⟩
    exact ⟨hmay.inv hp rfl, hmay, FileSys.survives_fsyncDir hpub⟩
  record p afp hp hready _ _ := by
    refine ⟨fun aid r hr hk => ?_, ⟨fun _ h => h, fun _ h => h⟩, trivial⟩
    have hr' : Function.update p.db.actions (action_id s t cid o) (some (DTX.receiptRow s t o afp ep)) aid =
        some r := hr
    by_cases haid : aid = action_id s t cid o
    · rw [haid]
      exact hready
    · rw [Function.update_of_ne haid] at hr'
      exact hp aid r hr' hk
  recorded _ _ _ _ := trivial

variable [DecidableEq ι] [Driver]

/-- **Every process keeps the contract.** -/
theorem overlayProcess_spec (calls : List Call) :
    ((contract store).rules pg).Triple i (Contract.Unstarted pg i)
      (overlayProcess ⟨i, pg, pid⟩ store calls) (fun _ _ => True) fun _ _ => True := by
  have hcall : ∀ (k : Call) (_ : List Call), ((contract store).rules pg).Triple i
      (Contract.At pg i [] [] fun _ => True) (overlayCall ⟨i, pg, pid⟩ store k)
      (fun _ => Contract.At pg i [] [] fun _ => True) fun _ _ => True :=
    fun k _ => (Contract.do_overlay (c := ⟨i, pg, pid⟩) overlayOk).bind fun _ => fun _ _ hat => hat
  have hcalls := RelyGuarantee.Triple.forEach (P := fun _ => Contract.At pg i [] [] fun _ => True) hcall calls
  have hstart : ∀ w, Contract.Unstarted pg i w → Contract.At pg i [] [] (fun _ => True) w :=
    fun w hw => ⟨hw.pending, hw.locks, trivial⟩
  have hbody : ((contract store).rules pg).Triple i (Contract.Unstarted pg i)
      (Prog.forEach calls (overlayCall ⟨i, pg, pid⟩ store)) (fun _ _ => True) fun _ _ => True :=
    hcalls.conseq (fun w _ => hstart w) (fun _ _ _ _ => trivial) fun _ _ _ _ => trivial
  exact Contract.process (c := ⟨i, pg, pid⟩) hbody

end Contract

/-! ## Runs -/

/-- The processes of a run, on one machine. -/
structure Crew (ι : Type) where
  calls : ι → List Call
  pid : ι → Nat

section System

variable [DecidableEq ι] [Driver]

def Crew.system (crew : Crew ι) (pg : Bool) (store : String) : System ι Outage Stmt (World ι) Exn Unit :=
  machine fun i => overlayProcess ⟨i, pg, crew.pid i⟩ store (crew.calls i)

/-- Before the run: the rows that are there have receipts that survive a crash. -/
structure Start (store : String) (w : World ι) : Prop where
  quiescent : Quiescent w
  rows : Inv store w.pub

/-- **A committed overlay row has its file**, in every run in which what is found survives. -/
theorem rows_have_files (crew : Crew ι) (pg : Bool) (store : String) (w₀ : World ι) (h₀ : Start store w₀)
    (c : Config ι Stmt (World ι) Exn Unit)
    (hc : (crew.system pg store).ReachableWhen (fun i st w => FoundSurvives i st w.pub) (· = w₀) c) :
    RowsHaveFiles store c.shared.server.db c.shared.files := by
  have hverified : RelyGuarantee.Verified (crew.system pg store) ((contract store).rules pg)
      (Contract.Unstarted pg) :=
    Contract.verified_machine (fun i => overlayProcess_spec (crew.calls i)) fun p e hp aid r hr hk =>
      (hp aid r hr hk).crash e.pick e.lost
  have hinit := Contract.init_of_quiescent (C := contract store) pg h₀.quiescent h₀.rows
  intro aid r hr hk
  exact ((hverified.invWhen hinit hc).2 aid r hr hk).1

end System

/-! ## Two processes at one action -/

section Guarded

variable [DecidableEq ι] [Driver] {self : DTX ι} {i : ι} {store : String}

omit [DecidableEq ι] [Driver] in
/-- The condition is about one call only: the one that asks whether a receipt is there. -/
theorem foundSurvives_of_ne {st : Stmt} {p : Public ι} (h : ∀ P, st ≠ .file (.pathExists P)) :
    FoundSurvives i st p := fun P hst _ => absurd hst (h P)

/-- A call of `do_overlay` meets the condition when the receipt is not there yet, or survives. -/
theorem guarded_overlayCall {k : Call} {w : World ι}
    (hfound : w.files.pathExists (DTX.receipt store (action_id k.session k.turn k.commit_id k.ordinal)) = true →
      w.files.Survives (DTX.receipt store (action_id k.session k.turn k.commit_id k.ordinal))) :
    (overlayCall self store k).Guarded (fun st w => FoundSurvives i st w.pub) w := by
  have hexists : FoundSurvives i
      (.file (.pathExists (DTX.receipt store (action_id k.session k.turn k.commit_id k.ordinal)))) w.pub := by
    intro P hst
    cases hst
    exact hfound
  -- all that comes after the query
  let T : Stmt → Prop := fun st => ∀ P, st ≠ .file (.pathExists P)
  have hcall : ∀ c : FileCall, (∀ q, c ≠ .pathExists q) → T (.file c) := fun c hc P hP => hc P (Stmt.file.inj hP)
  have hrecord : ∀ aid afp, (self.record_overlay k.session k.turn aid k.ordinal afp k.epoch).Only T := by
    intro aid afp
    simp [DTX.record_overlay, DTX.insert_action, DTX.execute, DTX.commit, T]
  have hpublish : ∀ tmp final text, (DTX.publish tmp final text : DtxProg ι Unit).Only T := fun tmp final text =>
    Prog.only_bind (Prog.only_writeFile _ _ hcall) fun _ => Prog.only_replace _ _ _ (hcall _ (by simp))
  have hother : ∀ st (w : World ι), T st → FoundSurvives i st w.pub := fun _ _ hst => foundSurvives_of_ne hst
  simp only [overlayCall, DTX.do_overlay, Prog.pathExists, Prog.guarded_bind, Prog.guarded_ofOption,
    Prog.guarded_read, true_and]
  refine ⟨fun afp w' hw' => ?_, fun _ _ _ => Prog.guarded_pure ..⟩
  have hstay : w' = w := by
    rw [Prog.run_ofOption] at hw'
    exact (Prod.mk.inj (Option.some.inj hw')).2.symm
  subst hstay
  refine ⟨hexists, fun found w _ => Prog.Only.guarded (T := T) ?_ hother w⟩
  cases found with
  | true => exact Prog.only_bind (hrecord _ afp) fun _ => trivial
  | false =>
    refine Prog.only_bind (Prog.only_ofOption ..) fun text => Prog.only_bind (hpublish _ _ text) fun _ => ?_
    exact Prog.only_bind ((Prog.only_modify ..).mpr (hcall _ (by simp))) fun _ =>
      Prog.only_bind (hrecord _ afp) fun _ => trivial

/-- The same of a process that makes one call. -/
theorem guarded_overlayProcess {k : Call} {w : World ι}
    (hfound : w.files.pathExists (DTX.receipt store (action_id k.session k.turn k.commit_id k.ordinal)) = true →
      w.files.Survives (DTX.receipt store (action_id k.session k.turn k.commit_id k.ordinal))) :
    (overlayProcess self store [k]).Guarded (fun st w => FoundSurvives i st w.pub) w := by
  have hother : ∀ w : World ι, FoundSurvives i .rollback w.pub := fun _ => foundSurvives_of_ne (by simp)
  simp [overlayProcess, DTX.rollback, guarded_overlayCall hfound, hother]

end Guarded

section Runs

local instance driver : Driver := .postgres

def fresh : World Bool := ⟨rest Db.empty, .empty, fun _ => none⟩

theorem start_fresh : Start "/x" fresh := by
  refine ⟨quiescent_rest _ _, ?_⟩
  intro aid r hrow
  cases hrow

/-- Two coordinators at the same action. -/
def sameAction : Crew Bool :=
  ⟨fun _ => [⟨"s", "t", "c", .int 0, .obj [(.str "order", .str "O")], 1⟩], fun i => if i then 1 else 2⟩

def sameId : String := action_id "s" "t" "c" (.int 0)

/-- One process publishes the receipt and records it, the other one finds it; a crash that reverts what it can
    leaves the receipt. -/
theorem rows_have_files_published : ∃ c r, (sameAction.system true "/x").ReachableWhen
      (fun i st w => FoundSurvives i st w.pub) (· = fresh) c ∧
    c.shared.server.db.actions sameId = some r ∧ (c.shared.files.dir (DTX.receipt "/x" sameId)).isSome := by
  obtain ⟨afp, hafp⟩ : ∃ afp, args_fingerprint (.obj [(.str "order", .str "O")]) = some afp :=
    exists_args_fingerprint rfl
  obtain ⟨text, htext, -⟩ := Option.map_eq_some_iff.mp hafp
  have ho : (Ordinal.int 0).taken = true := Ordinal.taken_int (by decide) (by decide)
  let row := DTX.receiptRow "s" "t" (.int 0) afp 1
  have hstart : (sameAction.system true "/x").ReachableWhen (fun i st w => FoundSurvives i st w.pub) (· = fresh)
      ⟨fresh, fun _ => .fresh⟩ := Lts.Reachable.start ⟨rfl, fun _ => rfl⟩
  -- the one that publishes, to its end
  obtain ⟨fs, n, hrun, hdir, hsurvives⟩ := DTX.run_do_overlay_new ⟨true, true, 1⟩ Db.empty (fun _ => none) 1 hafp htext
    ho (rfl : FileSys.empty.dir (DTX.receipt "/x" sameId) = none)
  have hfirst : (overlayProcess ⟨true, true, 1⟩ "/x" (sameAction.calls true)).run fresh =
      some (.ok (), ⟨rest (DTX.recorded sameId row Db.empty), fs, fun _ => none⟩) := by
    simp [overlayProcess, overlayCall, sameAction, fresh, hrun, row, sameId]
  have hfresh : (overlayProcess ⟨true, true, 1⟩ "/x" (sameAction.calls true)).Guarded
      (fun st w => FoundSurvives true st w.pub) fresh := by
    refine guarded_overlayProcess fun hthere => ?_
    cases hthere
  have hone := (hstart.spawn (i := true) rfl).steps (Function.update_self ..) (.of_run hfresh hfirst)
  -- the one that finds it
  have hfound : (fs.dir (DTX.receipt "/x" sameId)).isSome := by
    rw [hdir]
    simp [sameId]
  have hsecond : (overlayProcess ⟨false, true, 2⟩ "/x" (sameAction.calls false)).run
      ⟨rest (DTX.recorded sameId row Db.empty), fs, fun _ => none⟩ =
        some (.ok (), ⟨rest (DTX.recorded sameId row (DTX.recorded sameId row Db.empty)), fs, fun _ => none⟩) := by
    simp [overlayProcess, overlayCall, sameAction, DTX.run_do_overlay_found _ hafp ho hfound, row, sameId]
  have hsurvived : (overlayProcess ⟨false, true, 2⟩ "/x" (sameAction.calls false)).Guarded
      (fun st w => FoundSurvives false st w.pub) ⟨rest (DTX.recorded sameId row Db.empty), fs, fun _ => none⟩ :=
    guarded_overlayProcess fun _ => hsurvives
  have htwo := (hone.spawn (i := false) rfl).steps (Function.update_self ..) (.of_run hsurvived hsecond)
  -- the crash
  have hcrash := htwo.env (e := ⟨fun _ => 0, fun _ => []⟩) rfl
  have hrow : (DTX.recorded sameId row (DTX.recorded sameId row Db.empty)).actions sameId = some row := by
    have hself : (DTX.recorded sameId row Db.empty).actions sameId = some row := DTX.recorded_self row rfl
    rw [DTX.recorded, hself]
    exact hself
  exact ⟨_, row, hcrash, hrow, rows_have_files sameAction true "/x" fresh start_fresh _ hcrash sameId row hrow rfl⟩

/-! ## The receipt that a crash takes away -/

/-- The first one renames; the second one finds the receipt and records it; the machine crashes before the
    first one's fsync of the directory, and the rename is undone. -/
theorem lost_receipt : Start "/x" fresh ∧ ∃ c, (sameAction.system true "/x").Reachable (· = fresh) c ∧
    ¬ RowsHaveFiles "/x" c.shared.server.db c.shared.files := by
  obtain ⟨afp, hafp⟩ : ∃ afp, args_fingerprint (.obj [(.str "order", .str "O")]) = some afp :=
    exists_args_fingerprint rfl
  obtain ⟨text, htext, -⟩ := Option.map_eq_some_iff.mp hafp
  have ho : (Ordinal.int 0).taken = true := Ordinal.taken_int (by decide) (by decide)
  have hempty : FileSys.empty.dir (DTX.receipt "/x" sameId) = none := rfl
  -- the first one, up to its rename
  obtain ⟨fs, ⟨q, hsteps⟩, hrenamed, hdurable⟩ :=
    DTX.steps_do_overlay ⟨true, true, 1⟩ Db.empty (fun _ => none) 1 hafp htext hempty
  have hfirst : ∃ q, (overlayProcess ⟨true, true, 1⟩ "/x" (sameAction.calls true)).Steps (fun _ _ => True) fresh q
      ⟨rest Db.empty, fs, fun _ => none⟩ :=
    ⟨_, (((hsteps.bind _).bind _).tryCatch _).bind _⟩
  obtain ⟨q', hfirst⟩ := hfirst
  -- the second one, to the end
  let row := DTX.receiptRow "s" "t" (.int 0) afp 1
  have hsecond : (overlayProcess ⟨false, true, 2⟩ "/x" (sameAction.calls false)).run
      ⟨rest Db.empty, fs, fun _ => none⟩ =
        some (.ok (), ⟨rest (DTX.recorded sameId row Db.empty), fs, fun _ => none⟩) := by
    simp [overlayProcess, overlayCall, sameAction, DTX.run_do_overlay_found _ hafp ho hrenamed, sameId, row]
  have hstart : (sameAction.system true "/x").Reachable (· = fresh) ⟨fresh, fun _ => .fresh⟩ :=
    Lts.Reachable.start ⟨rfl, fun _ => rfl⟩
  have hone := (hstart.spawn (i := true) rfl).steps (Function.update_self ..) hfirst
  have htwo := (hone.spawn (i := false) rfl).run (Function.update_self ..) hsecond
  -- the crash
  have hcrash := htwo.env (e := ⟨fun _ => 0, fun _ => []⟩) rfl
  refine ⟨start_fresh, _, hcrash, fun hholds => ?_⟩
  have hrow : (DTX.recorded sameId row Db.empty).actions sameId = some row := Function.update_self ..
  have hgone : (fs.crash (fun _ => 0) fun _ => []).dir (DTX.receipt "/x" sameId) = none := by
    show fs.durable _ = none
    rw [hdurable]
    rfl
  have hfile : ((fs.crash (fun _ => 0) fun _ => []).dir (DTX.receipt "/x" sameId)).isSome := hholds sameId row hrow rfl
  rw [hgone] at hfile
  cases hfile

end Runs

end AgentTx.Dtx.Durable
