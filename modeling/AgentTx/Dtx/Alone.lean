import AgentTx.Dtx.Methods
import AgentTx.Lib.Prog.Files

/-!
# `Dtx.Alone` — the methods of `DTX` when nobody else is there

On a server at rest (`rest`) no statement waits, so a method that runs alone is a function of the tables:
how it ends, and the tables it leaves, at rest again.

There is one lemma for each way in which a method ends: `do_charge` alone has eight, from a new charge to an ordinal
that its column refuses. They are proved by running the definition, and used wherever a run is exhibited or a call is
made when the others have stopped. `solo` is the server in the middle of a transaction of the one connection that has
one.
-/

namespace AgentTx.Dtx

variable {ι : Type}

/-- The server when only `i` has one: its writes, and its locks. -/
def solo [DecidableEq ι] (i : ι) (db : Db) (ws : List Write) (ls : List Lock) : Server ι :=
  ⟨db, fun l => if l ∈ ls then some i else none, fun j => if j = i then ws else []⟩

@[simp] theorem rest_db (db : Db) : (rest db : Server ι).db = db := rfl

theorem quiescent_rest (db : Db) (fs : FileSys) :
    Quiescent (⟨rest db, fs, fun _ => none⟩ : World ι) :=
  ⟨fun _ => rfl, fun _ => rfl, fun _ => rfl⟩

/-- A world where nothing is going on is its tables and its files. -/
theorem Quiescent.eq_rest {w : World ι} (h : Quiescent w) : w = ⟨rest w.server.db, w.files, fun _ => none⟩ := by
  obtain ⟨⟨db, locks, pending⟩, files, held⟩ := w
  have hlocks : locks = fun _ => none := funext h.locks
  have hpending : pending = fun _ => [] := funext h.pending
  have hheld : held = fun _ => none := funext h.held
  subst hlocks hpending hheld
  rfl

section Server

variable [DecidableEq ι] {i : ι} {db : Db} {ws : List Write} {ls : List Lock} {pg : Bool}

theorem rest_eq (i : ι) (db : Db) : rest db = solo i db [] [] := by
  simp [rest, solo]

@[simp] theorem solo_view (x : DTX ι) :
    x.view (solo x.conn db ws ls) = ws.foldl (fun d w => w.apply d) db := by
  simp only [DTX.view, TxServer.view, solo, if_true]
  rfl

@[simp] theorem solo_lock (l : Lock) : (solo i db ws ls).lock i l = some (solo i db ws (l :: ls)) := by
  have hfree : (solo i db ws ls).locks l = none ∨ (solo i db ws ls).locks l = some i := by
    show (if l ∈ ls then some i else none) = none ∨ (if l ∈ ls then some i else none) = some i
    split_ifs <;> simp
  rw [TxServer.lock, if_pos hfree, solo, solo]
  congr 2
  funext l'
  by_cases hl : l' = l
  · subst hl
    simp
  · simp [hl]

@[simp] theorem solo_lock' (x : DTX ι) (l : Lock) :
    x.lock (solo x.conn db ws ls) l = some (solo x.conn db ws (lockFor x.pg l :: ls)) :=
  solo_lock _

@[simp] theorem solo_write (w : Write) : (solo i db ws ls).write i w = solo i db (ws ++ [w]) ls := by
  rw [TxServer.write, solo, solo]
  congr 1
  funext j
  by_cases hj : j = i
  · subst hj
    simp
  · simp [hj]

theorem solo_release : (solo i db ws ls).release i = rest db := by
  rw [TxServer.release, solo, rest]
  congr 1
  · funext l
    by_cases hl : l ∈ ls <;> simp [hl]
  · funext j
    by_cases hj : j = i
    · subst hj
      simp
    · simp [hj]

@[simp] theorem solo_rollback : (solo i db ws ls).rollback i = rest db := solo_release

@[simp] theorem solo_commit :
    (solo i db ws ls).commit (scheme pg) i = rest (ws.foldl (fun d w => w.apply d) db) := by
  have hview : (solo i db ws ls).view (scheme pg) i = ws.foldl (fun d w => w.apply d) db := by
    simp only [TxServer.view, solo, if_true]
    rfl
  rw [TxServer.commit, hview, solo_release]
  rfl

end Server

namespace DTX

variable [DecidableEq ι] [Driver] (x : DTX ι) {db : Db} {fs : FileSys} {held : ι → Option Nat} {s t cid : String}

omit [Driver] in
@[simp] theorem run_rollback :
    (x.rollback : DtxProg ι Unit).run ⟨rest db, fs, held⟩ = some (.ok (), ⟨rest db, fs, held⟩) := by
  simp [rollback, rest_eq x.conn]

omit [Driver] in
/-- `acquire`. -/
theorem run_acquire : (x.acquire s t).run ⟨rest db, fs, held⟩ =
    some (.ok ((db.turn_owner (s, t)).elim 1 (· + 1)),
      ⟨rest ((Write.setOwner s t ((db.turn_owner (s, t)).elim 1 (· + 1))).apply db), fs,
        Function.update held x.conn (some ((db.turn_owner (s, t)).elim 1 (· + 1)))⟩) := by
  simp [acquire, upsert_owner, execute, rest_eq x.conn]

/-- `INSERT INTO turns … ON CONFLICT DO NOTHING`. -/
def begun (s t : String) (row : TurnRow) (db : Db) : Db :=
  if (db.turns (s, t)).isSome then db else (Write.insertTurn s t row).apply db

omit [Driver] in
/-- `begin_turn`. It returns the commit id of the plan given, whichever plan is stored. -/
theorem run_begin_turn {plan : List Json} (hcid : commit_id_of (.arr plan) = some cid) :
    (x.begin_turn s t plan).run ⟨rest db, fs, held⟩ =
      some (.ok cid, ⟨rest (begun s t ⟨cid, (Json.arr plan).dumps, .open⟩ db), fs, held⟩) := by
  cases hrow : db.turns (s, t) with
  | none => simp [begin_turn, insert_turn, execute, insertUnless, commit, rest_eq x.conn, hcid, hrow, begun]
  | some r =>
    cases hpg : x.pg <;> simp [begin_turn, insert_turn, execute, insertUnless, commit, rest_eq x.conn, hcid,
      hrow, hpg, begun]

omit [Driver] in
/-- `load_plan` of a turn that has one. -/
theorem run_load_plan {r : TurnRow} {plan : Json} (hr : db.turns (s, t) = some r)
    (hplan : json_loads r.plan = .ok plan) :
    (x.load_plan s t).run ⟨rest db, fs, held⟩ = some (.ok (some (r.commit_id, plan)), ⟨rest db, fs, held⟩) := by
  simp [load_plan, select_turn, execute, rest_eq x.conn, hr, hplan]

@[simp] theorem chargeRow_taken {o : Ordinal} {afp : String} {ep : Nat} : (chargeRow s t o afp ep).taken = o.taken :=
  rfl

@[simp] theorem receiptRow_taken {o : Ordinal} {afp : String} {ep : Nat} :
    (receiptRow s t o afp ep).taken = o.taken :=
  rfl

@[simp] theorem charge_taken {order amount : Json} {aid : String} :
    (⟨order, amount, aid⟩ : ChargeRow).taken = billable order amount :=
  rfl

/-- `do_charge` of an action not taken yet. -/
theorem run_do_charge_new {o : Ordinal} {args order amount : Json} {ep : Nat} {afp : String}
    (hafp : args_fingerprint args = some afp) (ho : o.taken = true) (horder : subscript args "order" = .ok order)
    (hamount : subscript args "amount" = .ok amount) (hbill : billable order amount = true)
    (howner : db.turn_owner (s, t) = some ep) (hnone : db.actions (action_id s t cid o) = none) :
    (x.do_charge s t cid o args ep false).run ⟨rest db, fs, held⟩ =
      some (.ok (.committed, some (Json.obj [(.str "order", order), (.str "amount", amount)])),
        ⟨rest ((Contract.chargeWrites (action_id s t cid o) (chargeRow s t o afp ep) order amount).foldl
          (fun d w => w.apply d) db), fs, held⟩) := by
  cases hpg : x.pg <;> simp [do_charge, transaction, chargeBody, select_owner, insert_action, chargeEffect,
    insert_charge, set_result, execute, insertUnless, commit, rest_eq x.conn, hafp, ho, horder, hamount, hbill,
    howner, hnone, hpg, Contract.chargeWrites]

/-- `do_charge` of an action that is taken: it is answered from its row. -/
theorem run_do_charge_found {o : Ordinal} {args : Json} {ep : Nat} {mid : Bool} {afp : String} {ex : ActionRow}
    (hafp : args_fingerprint args = some afp) (ho : o.taken = true) (howner : db.turn_owner (s, t) = some ep)
    (hex : db.actions (action_id s t cid o) = some ex) (hfp : ex.args_fp = afp) :
    (x.do_charge s t cid o args ep mid).run ⟨rest db, fs, held⟩ =
      some (ex.value.map fun v => (.dedup, v), ⟨rest db, fs, held⟩) := by
  unfold ActionRow.value
  cases hres : ex.result with
  | none =>
    cases hpg : x.pg <;> simp [do_charge, transaction, chargeBody, select_owner, insert_action, chargeFound,
      select_action, execute, insertUnless, commit, rest_eq x.conn, hafp, ho, howner, hex, hfp, hres, hpg, Except.map]
  | some text =>
    cases hload : json_loads text with
    | error e =>
      cases hpg : x.pg <;> simp [do_charge, transaction, chargeBody, select_owner, insert_action, chargeFound,
        select_action, execute, insertUnless, rollback, rest_eq x.conn, hafp, ho, howner, hex, hfp, hres, hload, hpg,
        Except.map]
    | ok v =>
      cases hpg : x.pg <;> simp [do_charge, transaction, chargeBody, select_owner, insert_action, chargeFound,
        select_action, execute, insertUnless, commit, rest_eq x.conn, hafp, ho, howner, hex, hfp, hres, hload, hpg,
        Except.map]

/-- `do_charge` that raises after its effect: all is rolled back. -/
theorem run_do_charge_crash {o : Ordinal} {args order amount : Json} {ep : Nat} {afp : String}
    (hafp : args_fingerprint args = some afp) (ho : o.taken = true) (horder : subscript args "order" = .ok order)
    (hamount : subscript args "amount" = .ok amount) (hbill : billable order amount = true)
    (howner : db.turn_owner (s, t) = some ep) (hnone : db.actions (action_id s t cid o) = none) :
    (x.do_charge s t cid o args ep true).run ⟨rest db, fs, held⟩ =
      some (.error .Crash, ⟨rest db, fs, held⟩) := by
  cases hpg : x.pg <;> simp [do_charge, transaction, chargeBody, select_owner, insert_action, chargeEffect,
    insert_charge, rollback, execute, insertUnless, rest_eq x.conn, hafp, ho, horder, hamount, hbill, howner, hnone,
    hpg]

/-- `do_charge` of a caller that does not own the turn. -/
theorem run_do_charge_stale {o : Ordinal} {args : Json} {ep : Nat} {mid : Bool} {afp : String}
    (hafp : args_fingerprint args = some afp) (howner : db.turn_owner (s, t) ≠ some ep) :
    (x.do_charge s t cid o args ep mid).run ⟨rest db, fs, held⟩ =
      some (.error .StaleOwner, ⟨rest db, fs, held⟩) := by
  cases hep : db.turn_owner (s, t) with
  | none =>
    simp [do_charge, transaction, chargeBody, select_owner, rollback, execute, rest_eq x.conn, hafp, hep]
  | some e =>
    have hne : e ≠ ep := by
      rintro rfl
      exact howner hep
    cases hpg : x.pg <;> simp [do_charge, transaction, chargeBody, select_owner, rollback, execute, rest_eq x.conn,
      hafp, hep, hne, hpg]

/-- `do_charge` of an action that is taken with other arguments. -/
theorem run_do_charge_mismatch {o : Ordinal} {args : Json} {ep : Nat} {mid : Bool} {afp : String} {ex : ActionRow}
    (hafp : args_fingerprint args = some afp) (ho : o.taken = true) (howner : db.turn_owner (s, t) = some ep)
    (hex : db.actions (action_id s t cid o) = some ex) (hfp : ex.args_fp ≠ afp) :
    (x.do_charge s t cid o args ep mid).run ⟨rest db, fs, held⟩ =
      some (.error .ContentMismatch, ⟨rest db, fs, held⟩) := by
  cases hpg : x.pg <;> simp [do_charge, transaction, chargeBody, select_owner, insert_action, insertUnless,
    chargeFound, select_action, rollback, execute, rest_eq x.conn, hafp, ho, howner, hex, hfp, hpg]

/-- `do_charge` whose claim is won, and whose effect raises. -/
theorem run_do_charge_failed {o : Ordinal} {args : Json} {ep : Nat} {mid : Bool} {afp : String} {e : Exn}
    (hafp : args_fingerprint args = some afp) (ho : o.taken = true) (howner : db.turn_owner (s, t) = some ep)
    (hnone : db.actions (action_id s t cid o) = none)
    (hargs : subscript args "order" = .error e ∨
      ∃ order, subscript args "order" = .ok order ∧ subscript args "amount" = .error e) :
    (x.do_charge s t cid o args ep mid).run ⟨rest db, fs, held⟩ = some (.error e, ⟨rest db, fs, held⟩) := by
  rcases hargs with horder | ⟨order, horder, hamount⟩
  · cases hpg : x.pg <;> simp [do_charge, transaction, chargeBody, select_owner, insert_action, insertUnless,
      chargeEffect, rollback, execute, rest_eq x.conn, hafp, ho, howner, hnone, horder, hpg]
  · cases hpg : x.pg <;> simp [do_charge, transaction, chargeBody, select_owner, insert_action, insertUnless,
      chargeEffect, rollback, execute, rest_eq x.conn, hafp, ho, howner, hnone, horder, hamount, hpg]

/-- `do_charge` under an ordinal that the column does not take, whether the action is taken or not. -/
theorem run_do_charge_unbound {o : Ordinal} {args : Json} {ep : Nat} {mid : Bool} {afp : String}
    (hafp : args_fingerprint args = some afp) (ho : o.taken = false) (howner : db.turn_owner (s, t) = some ep) :
    (x.do_charge s t cid o args ep mid).run ⟨rest db, fs, held⟩ = some (.error .DataError, ⟨rest db, fs, held⟩) := by
  cases hpg : x.pg <;> simp [do_charge, transaction, chargeBody, select_owner, insert_action, Driver.bound, rollback,
    execute, rest_eq x.conn, hafp, ho, howner, hpg]

/-- `do_charge` whose claim is won, of an order or an amount that the columns do not take. -/
theorem run_do_charge_refused {o : Ordinal} {args order amount : Json} {ep : Nat} {mid : Bool} {afp : String}
    (hafp : args_fingerprint args = some afp) (ho : o.taken = true) (horder : subscript args "order" = .ok order)
    (hamount : subscript args "amount" = .ok amount) (hbill : billable order amount = false)
    (howner : db.turn_owner (s, t) = some ep) (hnone : db.actions (action_id s t cid o) = none) :
    (x.do_charge s t cid o args ep mid).run ⟨rest db, fs, held⟩ = some (.error .DataError, ⟨rest db, fs, held⟩) := by
  cases hpg : x.pg <;> simp [do_charge, transaction, chargeBody, select_owner, insert_action, insertUnless,
    chargeEffect, insert_charge, Driver.bound, rollback, execute, rest_eq x.conn, hafp, ho, howner, hnone, horder,
    hamount, hbill, hpg]

omit [Driver] in
/-- The end of a turn. -/
theorem run_commit_turn : (x.commit_turn s t).run ⟨rest db, fs, held⟩ =
    some (.ok (), ⟨rest ((Write.setCommitted s t).apply db), fs, held⟩) := by
  cases hpg : x.pg with
  | false => simp [commit_turn, set_committed, execute, commit, rest_eq x.conn, hpg]
  | true =>
    cases hrow : db.turns (s, t) with
    | none =>
      -- no such turn: the statement changes nothing
      have hturns : db.turns.update (s, t) (fun r => { r with state := .committed }) = db.turns := by
        rw [Table.update, hrow, Option.map_none, ← hrow, Function.update_eq_self]
      have hsame : (Write.setCommitted s t).apply db = db := by
        rw [Write.apply, hturns]
      simp [commit_turn, set_committed, execute, commit, rest_eq x.conn, hpg, hrow, hsame]
    | some r => simp [commit_turn, set_committed, execute, commit, rest_eq x.conn, hpg, hrow]

/-! ### Files -/

instance : LawfulFiles Stmt (World ι) := ⟨fun _ _ => rfl, fun _ _ _ => rfl⟩

omit [DecidableEq ι] [Driver] in
/-- A call on files leaves the server as it is. -/
@[simp] theorem setFiles_world (srv : Server ι) (fs fs' : FileSys) (held : ι → Option Nat) :
    HasFiles.setFiles Stmt (⟨srv, fs, held⟩ : World ι) fs' = ⟨srv, fs', held⟩ := rfl

omit [DecidableEq ι] [Driver] in
@[simp] theorem files_world (srv : Server ι) (fs : FileSys) (held : ι → Option Nat) :
    HasFiles.files Stmt (⟨srv, fs, held⟩ : World ι) = fs := rfl

omit [DecidableEq ι] [Driver] in
/-- `publish`: the temporary name is gone, and the receipt is there, though it may not survive a crash. -/
theorem run_publish (held : ι → Option Nat) (srv : Server ι) (tmp final : FsPath) (text : String) (fs : FileSys) :
    ∃ fs' n, (publish tmp final text : DtxProg ι Unit).run ⟨srv, fs, held⟩ =
      some (.ok (), ⟨srv, fs', held⟩) ∧
      fs'.dir = Function.update (Function.update fs.dir tmp none) final (some n) ∧
      fs'.durable = fs.durable := by
  obtain ⟨fs', n, hrun, hdir, hdurable, -, -⟩ := Prog.run_publish (τ := Stmt) Exn.FileNotFoundError tmp final
    (Sha256.encode text) (⟨srv, fs, held⟩ : World ι)
  exact ⟨fs', n, hrun, hdir, hdurable⟩

/-- The row of a receipt, unless the action has one. -/
def recorded (aid : String) (row : ActionRow) (db : Db) : Db :=
  if (db.actions aid).isSome then db else (Write.insertAction aid row).apply db

omit [DecidableEq ι] [Driver] in
theorem recorded_self {aid : String} (row : ActionRow) (hnone : db.actions aid = none) :
    (recorded aid row db).actions aid = some row := by
  rw [recorded, if_neg (by simp [hnone])]
  exact Function.update_self ..

omit [DecidableEq ι] [Driver] in
theorem recorded_of_ne {aid aid' : String} {row : ActionRow} (h : aid' ≠ aid) :
    (recorded aid row db).actions aid' = db.actions aid' := by
  unfold recorded
  split
  · rfl
  · exact Function.update_of_ne h _ _

theorem run_record_overlay {aid afp : String} {o : Ordinal} {ep : Nat} (ho : o.taken = true) :
    (x.record_overlay s t aid o afp ep).run ⟨rest db, fs, held⟩ =
      some (.ok (), ⟨rest (recorded aid (receiptRow s t o afp ep) db), fs, held⟩) := by
  cases hrow : db.actions aid with
  | none =>
    simp [record_overlay, insert_action, execute, insertUnless, commit, rest_eq x.conn, ho, hrow, recorded]
  | some r =>
    cases hpg : x.pg <;> simp [record_overlay, insert_action, execute, insertUnless, commit, rest_eq x.conn, ho,
      hrow, hpg, recorded]

/-- A receipt whose ordinal the column does not take is not recorded. -/
theorem run_record_overlay_unbound {aid afp : String} {o : Ordinal} {ep : Nat} {w : World ι} (ho : o.taken = false) :
    (x.record_overlay s t aid o afp ep).run w = some (.error .DataError, w) := by
  simp [record_overlay, insert_action, Driver.bound, ho]

/-- `do_overlay` of an action whose receipt is there. -/
theorem run_do_overlay_found {o : Ordinal} {args : Json} {ep : Nat} {store afp : String}
    (hafp : args_fingerprint args = some afp) (ho : o.taken = true)
    (hfile : (fs.dir (receipt store (action_id s t cid o))).isSome) :
    (x.do_overlay s t cid o args ep store).run ⟨rest db, fs, held⟩ =
      some (.ok (.dedup, receipt store (action_id s t cid o)),
        ⟨rest (recorded (action_id s t cid o) (receiptRow s t o afp ep) db), fs, held⟩) := by
  simp [do_overlay, Prog.pathExists, FileSys.pathExists, HasFiles.files, hafp, hfile, run_record_overlay x ho]

/-- `do_overlay` of an action whose receipt is not there: it is published, and survives a crash. -/
theorem run_do_overlay_new (db : Db) (held : ι → Option Nat) (ep : Nat) {o : Ordinal} {args : Json}
    {store afp text : String} (hafp : args_fingerprint args = some afp)
    (htext : canonical_args args = some text) (ho : o.taken = true)
    (hfile : fs.dir (receipt store (action_id s t cid o)) = none) :
    ∃ fs' n, (x.do_overlay s t cid o args ep store).run ⟨rest db, fs, held⟩ =
      some (.ok (.committed, receipt store (action_id s t cid o)),
        ⟨rest (recorded (action_id s t cid o) (receiptRow s t o afp ep) db), fs', held⟩) ∧
      fs'.dir = Function.update (Function.update fs.dir
        (overlayTmp store (action_id s t cid o) x.pid ep) none)
        (receipt store (action_id s t cid o)) (some n) ∧
      fs'.Survives (receipt store (action_id s t cid o)) := by
  obtain ⟨fs', n, hrun, hdir, -⟩ := run_publish held (rest db)
    (overlayTmp store (action_id s t cid o) x.pid ep) (receipt store (action_id s t cid o)) text fs
  have hrenamed : (fs'.dir (receipt store (action_id s t cid o))).isSome := by
    rw [hdir, Function.update_self]
    rfl
  refine ⟨fs'.fsyncDir (store ++ "/committed"), n, ?_, hdir, FileSys.survives_fsyncDir hrenamed⟩
  simp [do_overlay, Prog.pathExists, FileSys.pathExists, HasFiles.files, hafp, htext, hfile, hrun,
    Prog.fsyncDir, run_record_overlay x ho]

/-- `do_overlay` under an ordinal that the column does not take: it raises, with the receipt published. -/
theorem run_do_overlay_unbound (db : Db) (fs : FileSys) (held : ι → Option Nat) (ep : Nat) {o : Ordinal} {args : Json}
    {store afp text : String} (hafp : args_fingerprint args = some afp)
    (htext : canonical_args args = some text) (ho : o.taken = false) :
    ∃ fs', (x.do_overlay s t cid o args ep store).run ⟨rest db, fs, held⟩ =
        some (.error .DataError, ⟨rest db, fs', held⟩) ∧
      ∀ P, P ≠ overlayTmp store (action_id s t cid o) x.pid ep → P ≠ receipt store (action_id s t cid o) →
        fs'.dir P = fs.dir P := by
  cases hfile : fs.dir (receipt store (action_id s t cid o)) with
  | some n =>
    refine ⟨fs, ?_, fun _ _ _ => rfl⟩
    simp [do_overlay, Prog.pathExists, FileSys.pathExists, HasFiles.files, hafp, hfile,
      run_record_overlay_unbound x ho]
  | none =>
    obtain ⟨fs', n, hrun, hdir, -⟩ := run_publish held (rest db)
      (overlayTmp store (action_id s t cid o) x.pid ep) (receipt store (action_id s t cid o)) text fs
    refine ⟨fs'.fsyncDir (store ++ "/committed"), ?_, fun P htmp hfinal => ?_⟩
    · simp [do_overlay, Prog.pathExists, FileSys.pathExists, HasFiles.files, hafp, htext, hfile, hrun,
        Prog.fsyncDir, run_record_overlay_unbound x ho]
    · show fs'.dir P = fs.dir P
      rw [hdir, Function.update_of_ne hfinal, Function.update_of_ne htmp]

/-- `do_overlay` up to its rename: the directory is not fsynced yet. -/
theorem steps_do_overlay (db : Db) (held : ι → Option Nat) (ep : Nat) {o : Ordinal} {args : Json}
    {store afp text : String} (hafp : args_fingerprint args = some afp)
    (htext : canonical_args args = some text)
    (hfile : fs.dir (receipt store (action_id s t cid o)) = none) :
    ∃ fs', (∃ q, (x.do_overlay s t cid o args ep store).Steps (fun _ _ => True) ⟨rest db, fs, held⟩ q
        ⟨rest db, fs', held⟩) ∧
      (fs'.dir (receipt store (action_id s t cid o))).isSome ∧ fs'.durable = fs.durable := by
  obtain ⟨fs', n, hrun, hdir, hdurable⟩ := run_publish held (rest db)
    (overlayTmp store (action_id s t cid o) x.pid ep) (receipt store (action_id s t cid o)) text fs
  have hexists : (Prog.pathExists (receipt store (action_id s t cid o)) : DtxProg ι Bool).run
      ⟨rest db, fs, held⟩ = some (.ok false, ⟨rest db, fs, held⟩) := by
    simp [Prog.pathExists, FileSys.pathExists, HasFiles.files, hfile]
  have hrenamed : (fs'.dir (receipt store (action_id s t cid o))).isSome := by
    rw [hdir, Function.update_self]
    rfl
  have hvalue : ∀ {v : Option String} {a : String}, v = some a →
      (Prog.ofOption .TypeError v : DtxProg ι String).run ⟨rest db, fs, held⟩ =
        some (.ok a, ⟨rest db, fs, held⟩) := by
    intro v a hv
    simp [hv]
  refine ⟨fs', ?_, hrenamed, hdurable⟩
  unfold do_overlay
  exact ⟨_, (Prog.Steps.part (hvalue hafp)).trans ((Prog.Steps.part hexists).trans
    ((Prog.Steps.part (hvalue htext)).trans (.part hrun)))⟩

/-! ### Turns -/

/-- The loop of `run_turn`: one step, and the others. -/
theorem run_runSteps_cons {step args : Json} {steps : List Json} {o : Ordinal} {ep : Nat} {crash_at : Option Int}
    {r : Tag × Option Json} {rs : List (Tag × Option Json)} {w w' w'' : World ι}
    (ho : (subscript step "ordinal" >>= asOrdinal) = .ok o) (hargs : subscript step "args" = .ok args)
    (hrun : (x.do_charge s t cid o args ep (crash_at.any o.isInt)).run w = some (.ok r, w'))
    (hsteps : (x.runSteps s t cid ep crash_at steps).run w' = some (.ok rs, w'')) :
    (x.runSteps s t cid ep crash_at (step :: steps)).run w = some (.ok (r :: rs), w'') := by
  simp [runSteps, ho, hargs, hrun, hsteps]

/-- A whole turn of one step: acquire, begin, charge, commit. -/
def oneCharge (s t cid : String) (plan : List Json) (o : Ordinal) (afp : String) (order amount : Json) (db : Db) :
    Db :=
  let ep := (db.turn_owner (s, t)).elim 1 (· + 1)
  let db := begun s t ⟨cid, (Json.arr plan).dumps, .open⟩ ((Write.setOwner s t ep).apply db)
  let ws := Contract.chargeWrites (action_id s t cid o) (chargeRow s t o afp ep) order amount
  (Write.setCommitted s t).apply (ws.foldl (fun d w => w.apply d) db)

omit [Driver] in
@[simp] theorem begun_turn_owner (row : TurnRow) : (begun s t row db).turn_owner = db.turn_owner := by
  unfold begun
  split <;> rfl

omit [Driver] in
@[simp] theorem begun_actions (row : TurnRow) : (begun s t row db).actions = db.actions := by
  unfold begun
  split <;> rfl

omit [Driver] in
@[simp] theorem begun_charges (row : TurnRow) : (begun s t row db).charges = db.charges := by
  unfold begun
  split <;> rfl

omit [Driver] in
theorem oneCharge_charges {plan : List Json} {o : Ordinal} {afp : String} {order amount : Json} :
    (oneCharge s t cid plan o afp order amount db).charges =
      db.charges ++ [⟨order, amount, action_id s t cid o⟩] := by
  show (begun _ _ _ ((Write.setOwner _ _ _).apply db)).charges ++ _ = _
  rw [begun_charges]
  rfl

omit [Driver] in
/-- The plan is the one that was there, or the one given. -/
theorem oneCharge_turns {plan : List Json} {o : Ordinal} {afp : String} {order amount : Json} :
    (oneCharge s t cid plan o afp order amount db).turns (s, t) =
      some { (db.turns (s, t)).getD ⟨cid, (Json.arr plan).dumps, .open⟩ with state := .committed } := by
  show Table.update (begun _ _ _ ((Write.setOwner _ _ _).apply db)).turns (s, t) _ (s, t) = _
  rw [Table.update_self]
  unfold begun
  cases hrow : db.turns (s, t) with
  | none =>
    rw [if_neg (by simp [Write.apply, hrow])]
    simp [Write.apply]
  | some r =>
    rw [if_pos (by simp [Write.apply, hrow])]
    simp [Write.apply, hrow]

omit [Driver] in
/-- The action is the turn's. -/
theorem oneCharge_action {plan : List Json} {o : Ordinal} {afp : String} {order amount : Json} :
    ∃ r, (oneCharge s t cid plan o afp order amount db).actions (action_id s t cid o) = some r ∧
      (r.session, r.turn) = (s, t) := by
  let row := chargeRow s t o afp ((db.turn_owner (s, t)).elim 1 (· + 1))
  let res := Json.obj [(.str "order", order), (.str "amount", amount)]
  refine ⟨{ row with result := some res.dumps }, ?_, rfl⟩
  show Table.update (Function.update _ (action_id s t cid o) _) (action_id s t cid o) _ _ = _
  rw [Table.update_self, Function.update_self]
  rfl

theorem run_oneCharge {step args order amount : Json} {o : Ordinal} {afp : String}
    (hcid : commit_id_of (.arr [step]) = some cid) (ho : (subscript step "ordinal" >>= asOrdinal) = .ok o)
    (htaken : o.taken = true) (hargs : subscript step "args" = .ok args) (hafp : args_fingerprint args = some afp)
    (horder : subscript args "order" = .ok order) (hamount : subscript args "amount" = .ok amount)
    (hbill : billable order amount = true)
    (hnone : db.actions (action_id s t cid o) = none) :
    ∃ held', (turnProcess x s t (some [step]) none none).run ⟨rest db, fs, held⟩ =
      some (.ok (), ⟨rest (oneCharge s t cid [step] o afp order amount db), fs, held'⟩) := by
  simp [turnProcess, run_turn, turnEpoch, turnPlan, runSteps, run_acquire, run_begin_turn x hcid, ho, hargs,
    run_do_charge_new x hafp htaken horder hamount hbill, Write.apply, hnone, run_commit_turn, oneCharge]

/-! ### Workers -/

variable {action : String → Ordinal → Json → Nat → DtxProg ι Bool} {ep : Nat}

omit [Driver] in
theorem run_steps_nil : (gateWorker.steps x s t action cid ep []).run ⟨rest db, fs, held⟩ =
    some (.ok (), ⟨rest ((Write.setCommitted s t).apply db), fs, held⟩) :=
  run_commit_turn x

omit [Driver] in
theorem run_steps_cons {step args : Json} {steps : List Json} {o : Ordinal} {w w' : World ι}
    (ho : (subscript step "ordinal" >>= asOrdinal) = .ok o) (hargs : subscript step "args" = .ok args)
    (hrun : (action cid o args ep).run w = some (.ok true, w')) :
    (gateWorker.steps x s t action cid ep (step :: steps)).run w =
      (gateWorker.steps x s t action cid ep steps).run w' := by
  simp [gateWorker.steps, ho, hargs, hrun]

omit [Driver] in
/-- A worker that gets through its plan. -/
theorem run_gateWorker {r : TurnRow} {plan : Json} {steps : List Json} {db' : Db} {fs' : FileSys}
    (hr : db.turns (s, t) = some r) (hplan : json_loads r.plan = .ok plan) (hitems : iterate plan = .ok steps)
    (hep : (db.turn_owner (s, t)).elim 1 (· + 1) = ep)
    (hsteps : (gateWorker.steps x s t action r.commit_id ep steps).run
      ⟨rest ((Write.setOwner s t ep).apply db), fs, Function.update held x.conn (some ep)⟩ =
        some (.ok (), ⟨rest db', fs', Function.update held x.conn (some ep)⟩)) :
    (gateWorker x s t action).run ⟨rest db, fs, held⟩ =
      some (.ok (), ⟨rest db', fs', Function.update held x.conn (some ep)⟩) := by
  subst hep
  have hr' : ((Write.setOwner s t ((db.turn_owner (s, t)).elim 1 (· + 1))).apply db).turns (s, t) = some r := hr
  simp [gateWorker, run_acquire, run_load_plan x hr' hplan, hitems, hsteps]

end DTX

end AgentTx.Dtx
