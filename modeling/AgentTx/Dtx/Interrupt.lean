import AgentTx.Dtx.Alone
import AgentTx.Dtx.Ops
import AgentTx.Lib.Prog.Trace

/-!
# `Dtx.Interrupt` — what a `do_charge` that is aborted leaves to the next commit

`transaction()` rolls back on an `Exception`. An exception that is not one — `KeyboardInterrupt`,
`SystemExit` — leaves the `with` block without a rollback, and what the call has written stays pending on
the connection until another call commits it. `Claimed` says when there is such a write; otherwise the
connection is as if the call had not been made (`SameFor`), and no later call can tell the difference.

What a later call can tell is read off the tables that it commits (`tablesAfter`), so the proof compares two
worlds: the one before the call, and the one in which it was stopped.

Layout of the proof:
* **Servers** — `SameFor`: the same tables and pending writes, and the same locks to be had. Each statement
  takes two such servers to two such servers, with one answer, or is refused on both.
* **Methods** — `Blind`: a program that is built of such statements cannot tell the two worlds apart either.
  One lemma a method, up to `blind_op` for all of them.
* **The call** — `along_do_charge`: at every statement of `do_charge` one of two things is the case (`Stopped`).
  The claim is not won, and the world is `Alike`; or it is won, and the connection sees its row (`Seen`).
* **Later calls** — from the first follows, by `blind_op`, that no sequence of calls differs; from the second that
  an `acquire` commits the row (`Seen.differs`). Together they are the equivalence, `do_charge_aborted`.
-/

namespace AgentTx.Dtx.Interrupt

section Calls

variable {ι : Type} [DecidableEq ι] [Driver]

/-! ## Servers that look the same to a connection

A lock that the connection holds is one that it gets when it asks again. So it does not matter which locks the stopped
call has left to it, only which of them others hold: `Free` is all that the two servers have to agree on. -/

/-- The connection can have the lock. -/
def Free (i : ι) (srv : Server ι) (l : Lock) : Prop := srv.locks l = none ∨ srv.locks l = some i

omit [Driver] in
theorem lock_of_free {i : ι} {srv : Server ι} {l : Lock} (h : Free i srv l) :
    srv.lock i l = some { srv with locks := Function.update srv.locks l (some i) } := if_pos h

omit [Driver] in
theorem lock_of_not_free {i : ι} {srv : Server ι} {l : Lock} (h : ¬ Free i srv l) : srv.lock i l = none := if_neg h

/-- The servers differ only in locks that the connection holds. -/
structure SameFor (i : ι) (srv srv' : Server ι) : Prop where
  db : srv'.db = srv.db
  pending : srv'.pending = srv.pending
  locks : ∀ l, Free i srv' l ↔ Free i srv l

/-- Two results of a statement: equal, and the servers look the same. -/
abbrev Agree {α : Type} (i : ι) (r r' : α × Server ι) : Prop := r.1 = r'.1 ∧ SameFor i r.2 r'.2

namespace SameFor

variable {i : ι} {srv srv' : Server ι} {x : DTX ι}

omit [DecidableEq ι] [Driver] in
theorem refl (i : ι) (srv : Server ι) : SameFor i srv srv := ⟨rfl, rfl, fun _ => Iff.rfl⟩

omit [DecidableEq ι] [Driver] in
theorem view (h : SameFor i srv srv') : x.view srv' = x.view srv := by
  unfold DTX.view TxServer.view
  rw [h.db, h.pending]

omit [Driver] in
theorem write (h : SameFor i srv srv') (w : Write) : SameFor i (srv.write i w) (srv'.write i w) := by
  refine ⟨h.db, ?_, h.locks⟩
  unfold TxServer.write
  rw [h.pending]

omit [Driver] in
/-- A lock is granted to both, or to none. -/
theorem lock (h : SameFor i srv srv') (l : Lock) : Option.Rel (SameFor i) (srv.lock i l) (srv'.lock i l) := by
  by_cases hl : Free i srv l
  · rw [lock_of_free hl, lock_of_free ((h.locks l).mpr hl)]
    refine .some ⟨h.db, h.pending, ?_⟩
    intro l'
    unfold Free
    by_cases hll : l' = l
    · subst hll
      simp
    · simp only [Function.update_of_ne hll]
      exact h.locks l'
  · rw [lock_of_not_free hl, lock_of_not_free fun hl' => hl ((h.locks l).mp hl')]
    exact .none

omit [Driver] in
/-- What the connection held is free afterwards. -/
theorem free_release (i : ι) (srv : Server ι) (l : Lock) : Free i (srv.release i) l ↔ Free i srv l := by
  unfold Free TxServer.release
  by_cases hl : srv.locks l = some i
  · simp [hl]
  · simp [hl]

omit [Driver] in
theorem release (h : SameFor i srv srv') : SameFor i (srv.release i) (srv'.release i) := by
  refine ⟨h.db, ?_, ?_⟩
  · unfold TxServer.release
    rw [h.pending]
  · intro l
    rw [free_release, free_release]
    exact h.locks l

omit [Driver] in
theorem commit (h : SameFor i srv srv') (pg : Bool) :
    SameFor i (srv.commit (scheme pg) i) (srv'.commit (scheme pg) i) := by
  have hview : srv'.view (scheme pg) i = srv.view (scheme pg) i := by
    unfold TxServer.view
    rw [h.db, h.pending]
  exact ⟨hview, h.release.pending, h.release.locks⟩

omit [Driver] in
/-- A lock, and then the same on both. -/
theorem lock_map {α : Type} (h : SameFor i srv srv') (l : Lock) {f f' : Server ι → α × Server ι}
    (hf : ∀ srv srv', SameFor i srv srv' → Agree i (f srv) (f' srv')) :
    Option.Rel (Agree i) ((srv.lock i l).map f) ((srv'.lock i l).map f') := by
  have hlock := h.lock l
  generalize srv.lock i l = y, srv'.lock i l = y' at hlock ⊢
  cases hlock with
  | none => exact .none
  | some hsame => exact .some (hf _ _ hsame)

end SameFor

/-! ## The methods cannot tell

`Prog.Respects` is closed under sequencing and handlers, so that a method follows from its statements; what decides
between two branches is an answer, and the answers are equal. -/

/-- The worlds differ only in locks that the connection holds. -/
structure Alike (i : ι) (w w' : World ι) : Prop where
  server : SameFor i w.server w'.server
  files : w'.files = w.files
  held : w'.held = w.held

section Methods

variable (x : DTX ι) {s t cid : String}

/-- The method cannot tell. -/
abbrev Blind {α : Type} (p : DtxProg ι α) : Prop := p.Respects (Alike x.conn)

omit [DecidableEq ι] [Driver] in
theorem blind_execute {α : Type} {st : Stmt} {f : Server ι → Option (α × Server ι)}
    (h : ∀ srv srv', SameFor x.conn srv srv' → Option.Rel (Agree x.conn) (f srv) (f srv')) :
    Blind x (DTX.execute st f) := by
  refine Prog.Respects.step fun w w' hw => ?_
  have hf := h _ _ hw.server
  generalize f w.server = y, f w'.server = y' at hf ⊢
  cases hf with
  | none => exact .none
  | some hr => exact .some ⟨hr.1, hr.2, hw.files, hw.held⟩

omit [Driver] in
theorem blind_commit : Blind x x.commit :=
  Prog.Respects.modify fun _ _ hw => ⟨hw.server.commit x.pg, hw.files, hw.held⟩

omit [Driver] in
theorem blind_rollback : Blind x x.rollback :=
  Prog.Respects.modify fun _ _ hw => ⟨hw.server.release, hw.files, hw.held⟩

omit [Driver] in
theorem blind_transaction {α : Type} {body : DtxProg ι α} (h : Blind x body) : Blind x (x.transaction body) := by
  unfold DTX.transaction
  refine (h.bind fun a => (blind_commit x).bind fun _ => ?_).tryCatch fun e => (blind_rollback x).bind fun _ => ?_
  · exact trivial
  · exact trivial

omit [Driver] in
theorem blind_insertUnless {st : Stmt} {l : Lock} {conflict : Db → Bool} {v : Write} :
    Blind x (DTX.execute st (x.insertUnless l conflict v)) := by
  refine blind_execute x fun srv srv' h => ?_
  unfold DTX.insertUnless
  rw [h.view]
  split_ifs
  · exact .some ⟨rfl, h⟩
  · refine h.lock_map _ fun srv srv' h => ?_
    rw [h.view]
    split_ifs
    · exact ⟨rfl, h⟩
    · exact ⟨rfl, h.write v⟩

omit [Driver] in
theorem blind_upsert_owner : Blind x (x.upsert_owner s t) := by
  refine blind_execute x fun srv srv' h => h.lock_map _ fun srv srv' h => ?_
  simp only [h.view]
  exact ⟨rfl, h.write _⟩

omit [Driver] in
theorem blind_select_owner : Blind x (x.select_owner s t) := by
  refine blind_execute x fun srv srv' h => ?_
  simp only [h.view]
  split_ifs
  · exact h.lock_map _ fun srv srv' h => ⟨rfl, h⟩
  · exact .some ⟨rfl, h⟩

omit [DecidableEq ι] [Driver] in
theorem blind_select_turn : Blind x (x.select_turn s t) := by
  refine blind_execute x fun srv srv' h => ?_
  rw [h.view]
  exact .some ⟨rfl, h⟩

omit [DecidableEq ι] [Driver] in
theorem blind_select_action {aid : String} : Blind x (x.select_action aid) := by
  refine blind_execute x fun srv srv' h => ?_
  rw [h.view]
  exact .some ⟨rfl, h⟩

omit [Driver] in
theorem blind_set_committed : Blind x (x.set_committed s t) := by
  refine blind_execute x fun srv srv' h => ?_
  simp only [h.view]
  split_ifs
  · exact .some ⟨rfl, h⟩
  · exact h.lock_map _ fun srv srv' h => ⟨rfl, h.write _⟩

theorem blind_insert_action {aid : String} {row : ActionRow} : Blind x (x.insert_action aid row) :=
  (Prog.Respects.ofExcept _).bind fun _ => blind_insertUnless x

theorem blind_insert_charge {row : ChargeRow} : Blind x (x.insert_charge row) := by
  refine (Prog.Respects.ofExcept _).bind fun _ => blind_execute x fun srv srv' h => ?_
  split_ifs
  · exact .some ⟨rfl, h.write _⟩
  · exact h.lock_map _ fun srv srv' h => ⟨rfl, h.write _⟩

omit [Driver] in
theorem blind_set_result {aid result : String} : Blind x (x.set_result aid result) :=
  blind_execute x fun _ _ h => h.lock_map _ fun _ _ h => ⟨rfl, h.write _⟩

omit [Driver] in
theorem blind_acquire : Blind x (x.acquire s t) := by
  refine (blind_upsert_owner x).bind fun ep => ?_
  refine (Prog.Respects.modify fun w w' hw => ?_).bind fun _ => trivial
  refine ⟨hw.server.commit x.pg, hw.files, ?_⟩
  show Function.update w'.held _ _ = Function.update w.held _ _
  rw [hw.held]

omit [Driver] in
theorem blind_begin_turn {plan : List Json} : Blind x (x.begin_turn s t plan) := by
  refine (Prog.Respects.ofOption _ _).bind fun cid => ?_
  refine (blind_insertUnless x).bind fun _ => (blind_commit x).bind fun _ => ?_
  exact trivial

omit [DecidableEq ι] [Driver] in
theorem blind_load_plan : Blind x (x.load_plan s t) := by
  refine (blind_select_turn x).bind fun r => ?_
  cases r with
  | none => exact trivial
  | some r => exact (Prog.Respects.ofExcept _).bind fun _ => trivial

theorem blind_do_charge {o : Ordinal} {args : Json} {ep : Nat} {mid : Bool} :
    Blind x (x.do_charge s t cid o args ep mid) := by
  refine (Prog.Respects.ofOption _ _).bind fun afp => blind_transaction x ?_
  refine (blind_select_owner x).bind fun r => ?_
  split_ifs
  · exact trivial
  · refine (blind_insert_action x).bind fun won => ?_
    -- the two ways on: the claim is won, or the row of another one is looked up
    cases won with
    | true =>
      refine (Prog.Respects.ofExcept _).bind fun order => (Prog.Respects.ofExcept _).bind fun amount => ?_
      refine (blind_insert_charge x).bind fun _ => ?_
      cases mid with
      | true => exact trivial
      | false => exact (blind_set_result x).bind fun _ => trivial
    | false =>
      refine (blind_select_action x).bind fun ex => ?_
      cases ex with
      | none => exact trivial
      | some ex =>
        show Blind x (if ex.args_fp ≠ afp then _ else _)
        split_ifs
        · exact trivial
        · cases ex.result with
          | none => exact trivial
          | some text => exact (Prog.Respects.ofExcept _).bind fun _ => trivial

omit [DecidableEq ι] [Driver] in
/-- A call on files. -/
theorem blind_file {α : Type} {c : FileCall} {act : World ι → Option (α × World ι)} (f : FileSys → α × FileSys)
    (hact : ∀ w, act w = some ((f w.files).1, { w with files := (f w.files).2 })) :
    Blind x (Prog.step (.file c) act) := by
  refine Prog.Respects.step fun w w' hw => ?_
  rw [hact, hact, hw.files]
  exact .some ⟨rfl, hw.server, rfl, hw.held⟩

omit [DecidableEq ι] [Driver] in
theorem blind_writeBytes (n : Nat) : ∀ (bytes : List UInt8) (off : Nat), Blind x (Prog.writeBytes n off bytes)
  | [], _ => trivial
  | _ :: bs, off =>
      (blind_file x (fun fs => ((), fs.write n off _)) fun _ => rfl).bind fun _ => blind_writeBytes n bs (off + 1)

omit [DecidableEq ι] [Driver] in
theorem blind_publish {tmp final : FsPath} {text : String} : Blind x (DTX.publish tmp final text) := by
  refine Prog.Respects.bind ?_ fun _ => ?_
  · refine (blind_file x (fun fs => (fs.openInode tmp, fs.openTrunc tmp)) fun _ => rfl).bind fun n => ?_
    refine (blind_writeBytes x n _ 0).bind fun _ => ?_
    exact blind_file x (fun fs => ((), fs.fsync n)) fun _ => rfl
  · refine (blind_file x (fun fs => ((fs.replace tmp final).isSome, (fs.replace tmp final).getD fs))
      fun w => ?_).bind fun ok => ?_
    · have hfiles : HasFiles.files Stmt w = w.files := rfl
      simp only [hfiles]
      cases w.files.replace tmp final with
      | none => rfl
      | some fs => rfl
    · cases ok with
      | false => exact trivial
      | true => exact trivial

theorem blind_record_overlay {aid afp : String} {o : Ordinal} {ep : Nat} :
    Blind x (x.record_overlay s t aid o afp ep) :=
  (blind_insert_action x).bind fun _ => blind_commit x

theorem blind_do_overlay {o : Ordinal} {args : Json} {ep : Nat} {store : String} :
    Blind x (x.do_overlay s t cid o args ep store) := by
  refine (Prog.Respects.ofOption _ _).bind fun afp => ?_
  refine (blind_file x (fun fs => (fs.pathExists _, fs)) fun _ => rfl).bind fun found => ?_
  cases found with
  | true => exact (blind_record_overlay x).bind fun _ => trivial
  | false =>
    refine (Prog.Respects.ofOption _ _).bind fun text => (blind_publish x).bind fun _ => ?_
    refine (blind_file x (fun fs => ((), fs.fsyncDir _)) fun _ => rfl).bind fun _ => ?_
    exact (blind_record_overlay x).bind fun _ => trivial

theorem blind_runSteps {ep : Nat} {crash_at : Option Int} (steps : List Json) :
    Blind x (x.runSteps s t cid ep crash_at steps) := by
  induction steps with
  | nil => exact trivial
  | cons step steps ih =>
    refine (Prog.Respects.ofExcept _).bind fun o => (Prog.Respects.ofExcept _).bind fun args => ?_
    exact (blind_do_charge x).bind fun r => ih.bind fun rs => trivial

theorem blind_run_turn {plan : Option (List Json)} {epoch : Option Nat} {crash_at : Option Int} :
    Blind x (x.run_turn s t plan epoch crash_at) := by
  refine Prog.Respects.bind ?_ fun ep => Prog.Respects.bind ?_ fun r => ?_
  · cases epoch with
    | none => exact blind_acquire x
    | some ep => exact trivial
  · cases plan with
    | some plan => exact (blind_begin_turn x).bind fun _ => trivial
    | none =>
      refine (blind_load_plan x).bind fun o => ?_
      cases o with
      | none => exact trivial
      | some r => exact (Prog.Respects.ofExcept _).bind fun _ => trivial
  · refine (blind_runSteps x r.2).bind fun _ => Prog.Respects.bind ?_ fun _ => trivial
    exact (blind_set_committed x).bind fun _ => blind_commit x

/-- **No call can tell.** -/
theorem blind_op (op : Op) : Blind x (op.run x) := by
  cases op with
  | acquire s t => exact (blind_acquire x).bind fun _ => trivial
  | begin_turn s t plan => exact (blind_begin_turn x).bind fun _ => trivial
  | do_charge s t cid o args ep mid => exact (blind_do_charge x).bind fun _ => trivial
  | do_overlay s t cid o args ep store => exact (blind_do_overlay x).bind fun _ => trivial
  | run_turn s t plan epoch crash_at => exact (blind_run_turn x).bind fun _ => trivial

end Methods

/-! ## A call that is stopped -/

/-- The statements executed include the claim of an action that has no row, and no rollback. -/
def Claimed (db : Db) (aid : String) (ts : List Stmt) : Prop :=
  .insert_action aid ∈ ts ∧ db.actions aid = none ∧ .rollback ∉ ts

omit [DecidableEq ι] [Driver] in
theorem claimed_concat {db : Db} {aid : String} {ts : List Stmt} {st : Stmt} (hst : st ≠ .insert_action aid)
    (hst' : st ≠ .rollback) : Claimed db aid (ts ++ [st]) ↔ Claimed db aid ts := by
  unfold Claimed
  simp [Ne.symm hst, Ne.symm hst']

section Aborted

variable (x : DTX ι) (w : World ι) (aid : String) (l₀ : Lock)

/-- What the call has written is its own, and not committed. -/
structure Within (w' : World ι) : Prop where
  db : w'.server.db = w.server.db
  others : ∀ j, j ≠ x.conn → w'.server.pending j = w.server.pending j
  locks : ∀ l, Free x.conn w'.server l ↔ Free x.conn w.server l
  files : w'.files = w.files
  held : w'.held = w.held

/-- The connection sees the row of the action. `l₀` is a lock that it could have had before. -/
structure Seen (w' : World ι) : Prop where
  row : ((x.view w'.server).actions aid).isSome
  locks : ∀ l, Free x.conn w'.server l ↔ Free x.conn w.server l
  free : Free x.conn w.server l₀

/-- Where the call may be stopped: it has claimed the action, or nothing of it is left. -/
def Stopped (ts : List Stmt) (w' : World ι) : Prop :=
  (¬ Claimed w.server.db aid ts ∧ Alike x.conn w w') ∨ (Claimed w.server.db aid ts ∧ Seen x w aid l₀ w')

variable {x w aid l₀}

omit [DecidableEq ι] [Driver] in
theorem Alike.within {w' : World ι} (h : Alike x.conn w w') : Within x w w' :=
  ⟨h.server.db, fun j _ => congrFun h.server.pending j, h.server.locks, h.files, h.held⟩

omit [Driver] in
/-- After a rollback nothing is left. -/
theorem Within.rollback {w' : World ι} (hidle : w.server.pending x.conn = []) (h : Within x w w') :
    Alike x.conn w { w' with server := w'.server.rollback x.conn } := by
  refine ⟨⟨h.db, ?_, ?_⟩, h.files, h.held⟩
  · funext j
    by_cases hj : j = x.conn
    · subst hj
      exact TxServer.release_idle.pending.trans hidle.symm
    · exact (TxServer.release_pending (Ne.symm hj)).trans (h.others j hj)
  · intro l
    exact (SameFor.free_release x.conn w'.server l).trans (h.locks l)

omit [Driver] in
/-- A commit with nothing written changes nothing. -/
theorem Alike.commit {w' : World ι} (hidle : w.server.pending x.conn = []) (h : Alike x.conn w w') :
    Alike x.conn w { w' with server := w'.server.commit (scheme x.pg) x.conn } := by
  have hnil : w'.server.pending x.conn = [] := (congrFun h.server.pending _).trans hidle
  have hroll := h.within.rollback hidle
  have hview : w'.server.view (scheme x.pg) x.conn = w'.server.db := TxServer.view_of_pending_nil hnil
  exact ⟨⟨hview.trans h.server.db, hroll.server.pending, hroll.server.locks⟩, h.files, h.held⟩

omit [Driver] in
theorem view_write (srv : Server ι) (v : Write) : x.view (srv.write x.conn v) = v.apply (x.view srv) := by
  unfold DTX.view TxServer.view TxServer.applyAll
  rw [TxServer.write_pending, List.foldl_append]
  rfl

omit [Driver] in
/-- What is committed is what the connection saw. -/
theorem view_commit (srv : Server ι) : x.view (srv.commit (scheme x.pg) x.conn) = x.view srv :=
  TxServer.view_of_pending_nil TxServer.commit_idle.pending

omit [Driver] in
theorem Seen.commit {w' : World ι} (h : Seen x w aid l₀ w') :
    Seen x w aid l₀ { w' with server := w'.server.commit (scheme x.pg) x.conn } := by
  refine ⟨?_, ?_, h.free⟩
  · show ((x.view (w'.server.commit (scheme x.pg) x.conn)).actions aid).isSome
    rw [view_commit]
    exact h.row
  · intro l
    exact (SameFor.free_release x.conn w'.server l).trans (h.locks l)

omit [Driver] in
theorem view_lock {srv srv' : Server ι} {l : Lock} (h : srv.lock x.conn l = some srv') : x.view srv' = x.view srv := by
  unfold DTX.view TxServer.view
  rw [TxServer.lock_db h, TxServer.lock_pending h]

omit [Driver] in
/-- A lock that the connection can have, taken. -/
theorem free_of_lock {srv srv' : Server ι} {l : Lock} (h : srv.lock x.conn l = some srv') (l' : Lock) :
    Free x.conn srv' l' ↔ Free x.conn srv l' := by
  obtain ⟨hl, rfl⟩ := TxServer.lock_eq_some h
  unfold Free
  by_cases hll : l' = l
  · subst hll
    simp only [Function.update_self]
    simp [hl]
  · simp only [Function.update_of_ne hll]

omit [Driver] in
theorem Alike.lock {w' : World ι} {srv : Server ι} {l : Lock} (h : Alike x.conn w w')
    (hlock : w'.server.lock x.conn l = some srv) : Alike x.conn w { w' with server := srv } := by
  refine ⟨⟨(TxServer.lock_db hlock).trans h.server.db, (TxServer.lock_pending hlock).trans h.server.pending, ?_⟩,
    h.files, h.held⟩
  intro l'
  exact (free_of_lock hlock l').trans (h.server.locks l')

omit [Driver] in
theorem Within.lock {w' : World ι} {srv : Server ι} {l : Lock} (h : Within x w w')
    (hlock : w'.server.lock x.conn l = some srv) : Within x w { w' with server := srv } := by
  refine ⟨(TxServer.lock_db hlock).trans h.db, ?_, ?_, h.files, h.held⟩
  · intro j hj
    exact (congrFun (TxServer.lock_pending hlock) j).trans (h.others j hj)
  · intro l'
    exact (free_of_lock hlock l').trans (h.locks l')

omit [Driver] in
theorem Within.write {w' : World ι} (h : Within x w w') (v : Write) :
    Within x w { w' with server := w'.server.write x.conn v } := by
  refine ⟨h.db, ?_, h.locks, h.files, h.held⟩
  intro j hj
  exact (Function.update_of_ne hj _ _).trans (h.others j hj)

omit [Driver] in
theorem Seen.lock {w' : World ι} {srv : Server ι} {l : Lock} (h : Seen x w aid l₀ w')
    (hlock : w'.server.lock x.conn l = some srv) : Seen x w aid l₀ { w' with server := srv } := by
  refine ⟨?_, fun l' => (free_of_lock hlock l').trans (h.locks l'), h.free⟩
  rw [view_lock hlock]
  exact h.row

omit [Driver] in
/-- A write that deletes no action. -/
theorem Seen.write {w' : World ι} {v : Write} (h : Seen x w aid l₀ w')
    (hv : ∀ d : Db, (d.actions aid).isSome → ((v.apply d).actions aid).isSome) :
    Seen x w aid l₀ { w' with server := w'.server.write x.conn v } := by
  refine ⟨?_, h.locks, h.free⟩
  rw [view_write]
  exact hv _ h.row

/-! ### Statement by statement

Inside the transaction `Open` holds at every statement: nothing is committed, and a rollback brings back the world
before the call. `Won` and `Unclaimed` are its two cases, and the `INSERT` of the action is the only statement that
leads from the second to the first. -/

section Run

variable {s t cid : String} {o : Ordinal} {args : Json} {ep : Nat} {mid : Bool}

/-- In the middle of the transaction: nothing of the call is committed. -/
def Open (x : DTX ι) (w : World ι) (aid : String) (l₀ : Lock) (ts : List Stmt) (w' : World ι) : Prop :=
  Stopped x w aid l₀ ts w' ∧ Within x w w'

/-- The claim is won. -/
structure Won (x : DTX ι) (w : World ι) (aid : String) (l₀ : Lock) (ts : List Stmt) (w' : World ι) : Prop where
  claimed : Claimed w.server.db aid ts
  seen : Seen x w aid l₀ w'
  within : Within x w w'

/-- The claim is not made, or not won. -/
structure Unclaimed (x : DTX ι) (w : World ι) (aid : String) (ts : List Stmt) (w' : World ι) : Prop where
  unclaimed : ¬ Claimed w.server.db aid ts
  alike : Alike x.conn w w'

omit [DecidableEq ι] [Driver] in
theorem Won.isOpen {ts : List Stmt} {w' : World ι} (h : Won x w aid l₀ ts w') : Open x w aid l₀ ts w' :=
  ⟨Or.inr ⟨h.claimed, h.seen⟩, h.within⟩

omit [DecidableEq ι] [Driver] in
theorem Unclaimed.isOpen {ts : List Stmt} {w' : World ι} (h : Unclaimed x w aid ts w') : Open x w aid l₀ ts w' :=
  ⟨Or.inl ⟨h.unclaimed, h.alike⟩, h.alike.within⟩

omit [Driver] in
/-- A statement after the claim: it takes a lock or none, and writes. -/
theorem along_write {st : Stmt} {f : Server ι → Option (Unit × Server ι)} {v : Write} {ts : List Stmt}
    {w' : World ι} {E : Exn → List Stmt → World ι → Prop} (h : Won x w aid l₀ ts w')
    (hst : st ≠ .insert_action aid) (hst' : st ≠ .rollback)
    (hf : ∀ srv r, f srv = some r → ∃ srv', (srv' = srv ∨ ∃ l, srv.lock x.conn l = some srv') ∧
      r = ((), srv'.write x.conn v))
    (hv : ∀ d : Db, (d.actions aid).isSome → ((v.apply d).actions aid).isSome) :
    (DTX.execute st f).Along (Stopped x w aid l₀) (fun _ => Won x w aid l₀) E ts w' := by
  refine Prog.Along.step h.isOpen.1 fun a w₁ hact => ?_
  obtain ⟨r, hr, hw⟩ := Option.map_eq_some_iff.mp hact
  obtain ⟨srv, hsrv, rfl⟩ := hf _ r hr
  cases hw
  have hclaimed := (claimed_concat hst hst').mpr h.claimed
  have hwon : Won x w aid l₀ (ts ++ [st]) { w' with server := srv.write x.conn v } := by
    rcases hsrv with rfl | ⟨l, hlock⟩
    · exact ⟨hclaimed, h.seen.write hv, h.within.write v⟩
    · exact ⟨hclaimed, (h.seen.lock hlock).write hv, (h.within.lock hlock).write v⟩
  exact ⟨hwon.isOpen.1, hwon⟩

theorem along_insert_charge {row : ChargeRow} {ts : List Stmt} {w' : World ι}
    (h : Won x w aid l₀ ts w') : (x.insert_charge row).Along (Stopped x w aid l₀) (fun _ => Won x w aid l₀)
      (fun _ => Open x w aid l₀) ts w' := by
  refine Prog.Along.bind (Q := fun _ => Won x w aid l₀) ?_ (.ofExcept h.isOpen.1 (fun _ _ => h) fun _ _ => h.isOpen)
  rintro - ts w' - h
  refine along_write (v := .insertCharge row) h (by simp) (by simp) ?_ fun d hd => hd
  intro srv r hr
  obtain ⟨srv', hsrv, rfl⟩ := Option.map_eq_some_iff.mp hr
  split_ifs at hsrv with hpg
  · cases hsrv
    exact ⟨_, Or.inl rfl, rfl⟩
  · exact ⟨srv', Or.inr ⟨_, hsrv⟩, rfl⟩

omit [Driver] in
theorem along_set_result {result : String} {ts : List Stmt} {w' : World ι}
    {E : Exn → List Stmt → World ι → Prop} (h : Won x w aid l₀ ts w') :
    (x.set_result aid result).Along (Stopped x w aid l₀) (fun _ => Won x w aid l₀) E ts w' := by
  refine along_write (v := .setResult aid result) h (by simp) (by simp) ?_ ?_
  · intro srv r hr
    obtain ⟨srv', hlock, rfl⟩ := Option.map_eq_some_iff.mp hr
    exact ⟨srv', Or.inr ⟨_, hlock⟩, rfl⟩
  · intro d hd
    simpa [Write.apply, Table.update] using hd

/-- The effect of a charge, once its claim is won. -/
theorem along_chargeEffect {ts : List Stmt} {w' : World ι} (h : Won x w aid l₀ ts w') :
    (x.chargeEffect aid args mid).Along (Stopped x w aid l₀) (fun _ => Open x w aid l₀)
      (fun _ => Open x w aid l₀) ts w' := by
  refine Prog.Along.bind (Q := fun _ => Won x w aid l₀) ?_
    (.ofExcept h.isOpen.1 (fun _ _ => h) fun _ _ => h.isOpen)
  rintro order ts₁ w₁ - h₁
  refine Prog.Along.bind (Q := fun _ => Won x w aid l₀) ?_
    (.ofExcept h₁.isOpen.1 (fun _ _ => h₁) fun _ _ => h₁.isOpen)
  rintro amount ts₂ w₂ - h₂
  refine Prog.Along.bind ?_ (along_insert_charge h₂)
  rintro - ts₃ w₃ - h₃
  cases mid with
  | true => exact ⟨h₃.isOpen.1, h₃.isOpen⟩
  | false =>
    refine Prog.Along.bind ?_ (along_set_result h₃)
    rintro - ts₄ w₄ - h₄
    exact ⟨h₄.isOpen.1, h₄.isOpen⟩

omit [DecidableEq ι] [Driver] in
/-- The answer from the row of an action that is taken. -/
theorem along_chargeFound {afp : String} {ts : List Stmt} {w' : World ι} (h : Unclaimed x w aid ts w') :
    (DTX.chargeFound x aid afp).Along (Stopped x w aid l₀) (fun _ => Open x w aid l₀)
      (fun _ => Open x w aid l₀) ts w' := by
  refine Prog.Along.bind (Q := fun _ => Unclaimed x w aid) ?_ (.step h.isOpen.1 fun a w₁ hact => ?_)
  · rintro r ts₁ w₁ - h₁
    have hopen : Open x w aid l₀ ts₁ w₁ := h₁.isOpen
    cases r with
    | none => exact ⟨hopen.1, hopen⟩
    | some ex =>
      show Prog.Along _ _ _ (if ex.args_fp ≠ afp then _ else _) ts₁ w₁
      split_ifs
      · exact ⟨hopen.1, hopen⟩
      · cases ex.result with
        | none => exact ⟨hopen.1, hopen⟩
        | some text =>
          refine Prog.Along.bind (Q := fun _ => Open x w aid l₀) ?_
            (.ofExcept hopen.1 (fun _ _ => hopen) fun _ _ => hopen)
          rintro v ts₂ w₂ - h₂
          exact ⟨h₂.1, h₂⟩
  · cases hact
    -- the lookup is not a claim
    have hnext : Unclaimed x w aid (ts ++ [.select_action aid]) w' :=
      ⟨fun hc => h.unclaimed ((claimed_concat (by simp) (by simp)).mp hc), h.alike⟩
    exact ⟨hnext.isOpen.1, hnext⟩

/-- The fence is read: the connection has the owner's row, if there is one. -/
structure Fenced (x : DTX ι) (w : World ι) (s t aid : String) (r : Option Nat) (ts : List Stmt) (w' : World ι) :
    Prop where
  unasked : .insert_action aid ∉ ts
  kept : .rollback ∉ ts
  alike : Alike x.conn w w'
  owner : r = (x.view w.server).turn_owner (s, t)
  free : x.pg = true → r.isSome → Free x.conn w.server (.owner s t)

omit [DecidableEq ι] [Driver] in
theorem Fenced.unclaimed {r : Option Nat} {ts : List Stmt} {w' : World ι} (h : Fenced x w s t aid r ts w') :
    Unclaimed x w aid ts w' := ⟨fun hc => h.unasked hc.1, h.alike⟩

omit [Driver] in
theorem along_select_owner {E : Exn → List Stmt → World ι → Prop} :
    (x.select_owner s t).Along (Stopped x w aid l₀) (Fenced x w s t aid) E [] w := by
  have hstart : Unclaimed x w aid [] w := ⟨nofun, .refl .., rfl, rfl⟩
  refine Prog.Along.step (Unclaimed.isOpen hstart).1 fun r w₁ hact => ?_
  obtain ⟨⟨r', srv₁⟩, hf, hw⟩ := Option.map_eq_some_iff.mp hact
  cases hw
  have hfenced : Fenced x w s t aid r' [.select_owner s t] { w with server := srv₁ } := by
    simp only at hf
    split_ifs at hf with hpg
    · obtain ⟨srv, hlock, hr⟩ := Option.map_eq_some_iff.mp hf
      cases hr
      have hpg' : x.pg = true := (Bool.and_eq_true_iff.mp hpg).1
      replace hlock : w.server.lock x.conn (lockFor x.pg (.owner s t)) = some srv₁ := hlock
      rw [hpg'] at hlock
      exact ⟨by simp, by simp, hstart.alike.lock hlock, rfl, fun _ _ => (TxServer.lock_eq_some hlock).1⟩
    · cases hf
      refine ⟨by simp, by simp, hstart.alike, rfl, fun hpg' hr => ?_⟩
      exact absurd (by rw [hpg', hr]; rfl) hpg
  exact ⟨hfenced.unclaimed.isOpen.1, hfenced⟩

/-- The claim is not won: the action is taken. -/
structure Lost (x : DTX ι) (w : World ι) (aid : String) (ts : List Stmt) (w' : World ι) : Prop
    extends Unclaimed x w aid ts w' where
  taken : (w.server.db.actions aid).isSome

/-- The claim: won, or not. -/
theorem along_insert_action (row : ActionRow) {ts : List Stmt} {w' : World ι}
    (hidle : w.server.pending x.conn = []) (h : Fenced x w s t aid (some ep) ts w') :
    (x.insert_action aid row).Along (Stopped x w aid (lockFor x.pg (.owner s t)))
      (fun won => if won then Won x w aid (lockFor x.pg (.owner s t)) else Lost x w aid)
      (fun _ ts w' => row.taken = false ∧ Unclaimed x w aid ts w') ts w' := by
  refine Prog.Along.bind (Q := fun _ => Fenced x w s t aid (some ep)) ?_
    (.ofExcept h.unclaimed.isOpen.1 (fun _ _ => h) fun _ he => ⟨(Driver.bound_error he).1, h.unclaimed⟩)
  rintro - ts w' - h
  have hview : x.view w'.server = w.server.db := by
    have hnil := (congrFun h.alike.server.pending x.conn).trans hidle
    exact (TxServer.view_of_pending_nil hnil).trans h.alike.server.db
  have hlost : ∀ {w₁ : World ι}, Alike x.conn w w₁ → (w.server.db.actions aid).isSome →
      Lost x w aid (ts ++ [.insert_action aid]) w₁ := by
    intro w₁ halike hrow
    refine ⟨⟨fun hc => ?_, halike⟩, hrow⟩
    rw [hc.2.1] at hrow
    cases hrow
  refine Prog.Along.step h.unclaimed.isOpen.1 fun won w₁ hact => ?_
  obtain ⟨⟨won', srv₁⟩, hf, hw⟩ := Option.map_eq_some_iff.mp hact
  cases hw
  unfold DTX.insertUnless at hf
  rw [hview] at hf
  split_ifs at hf with hpg
  · cases hf
    have hun := hlost h.alike (Bool.and_eq_true_iff.mp hpg).2
    exact ⟨hun.toUnclaimed.isOpen.1, hun⟩
  · obtain ⟨srv, hlock, hr⟩ := Option.map_eq_some_iff.mp hf
    rw [view_lock hlock, hview] at hr
    split_ifs at hr with hrow
    · cases hr
      have hun := hlost (h.alike.lock hlock) hrow
      exact ⟨hun.toUnclaimed.isOpen.1, hun⟩
    · cases hr
      have hnone : w.server.db.actions aid = none := Option.not_isSome_iff_eq_none.mp hrow
      have hfree : Free x.conn w.server (lockFor x.pg (.owner s t)) := by
        cases hx : x.pg with
        | true => exact h.free hx rfl
        | false =>
          -- the database is one lock, and the claim has just got it
          replace hlock : w'.server.lock x.conn (lockFor x.pg (.action aid)) = some srv := hlock
          rw [hx] at hlock
          exact (h.alike.server.locks _).mp (TxServer.lock_eq_some hlock).1
      have hseen : Seen x w aid (lockFor x.pg (.owner s t))
          { w' with server := srv.write x.conn (.insertAction aid row) } := by
        refine ⟨?_, fun l => (free_of_lock hlock l).trans (h.alike.server.locks l), hfree⟩
        rw [view_write]
        show (Function.update (x.view srv).actions aid (some row) aid).isSome
        rw [Function.update_self]
        rfl
      have hwon : Won x w aid (lockFor x.pg (.owner s t)) (ts ++ [.insert_action aid])
          { w' with server := srv.write x.conn (.insertAction aid row) } := by
        refine ⟨⟨by simp, hnone, ?_⟩, hseen, (h.alike.within.lock hlock).write _⟩
        simp [h.kept]
      exact ⟨hwon.isOpen.1, hwon⟩

theorem along_chargeBody {afp : String} (hidle : w.server.pending x.conn = []) :
    (x.chargeBody s t aid afp o args ep mid).Along (Stopped x w aid (lockFor x.pg (.owner s t)))
      (fun _ => Open x w aid (lockFor x.pg (.owner s t))) (fun _ => Open x w aid (lockFor x.pg (.owner s t)))
      [] w := by
  refine Prog.Along.bind ?_ along_select_owner
  rintro r ts₁ w₁ - h₁
  split_ifs with hr
  · have hopen : Open x w aid (lockFor x.pg (.owner s t)) ts₁ w₁ := h₁.unclaimed.isOpen
    exact ⟨hopen.1, hopen⟩
  · obtain rfl : r = some ep := not_not.mp hr
    refine Prog.Along.bind ?_ ((along_insert_action _ hidle h₁).raises fun _ _ _ h => h.2.isOpen)
    rintro won ts₂ w₂ - h₂
    cases won with
    | true => exact along_chargeEffect h₂
    | false => exact along_chargeFound h₂.toUnclaimed

/-- **Where `do_charge` is stopped, its claim is pending or committed, or nothing of it is left.** -/
theorem along_do_charge (hidle : w.server.pending x.conn = []) (s t cid : String) (o : Ordinal) (args : Json) (ep : Nat)
    (mid : Bool) :
    (x.do_charge s t cid o args ep mid).Along
      (Stopped x w (action_id s t cid o) (lockFor x.pg (.owner s t))) (fun _ _ _ => True)
      (fun _ _ => Alike x.conn w) [] w := by
  generalize haid : action_id s t cid o = aid
  have hstart : Unclaimed x w aid [] w := ⟨nofun, .refl .., rfl, rfl⟩
  have hopen : Open x w aid (lockFor x.pg (.owner s t)) [] w := hstart.isOpen
  unfold DTX.do_charge
  rw [haid]
  refine Prog.Along.bind (Q := fun _ ts w' => ts = [] ∧ w' = w) ?_
    (.ofExcept hopen.1 (fun _ _ => ⟨rfl, rfl⟩) fun _ _ => hstart.alike)
  rintro afp ts₀ w₀ - ⟨hts, hw⟩
  rw [hts, hw]
  refine Prog.Along.tryCatch (D := fun _ => Open x w aid (lockFor x.pg (.owner s t))) ?_ ?_
  · -- the handler
    rintro e ts₁ w₁ - h₁
    refine Prog.Along.bind (Q := fun _ _ => Alike x.conn w) ?_ (.step h₁.1 fun u w₂ hact => ?_)
    · rintro - ts₂ w₂ hstop halike
      exact ⟨hstop, halike⟩
    · cases hact
      have halike := h₁.2.rollback hidle
      exact ⟨Or.inl ⟨fun hc => hc.2.2 (by simp), halike⟩, halike⟩
  · refine Prog.Along.bind ?_ (along_chargeBody hidle)
    rintro r ts₁ w₁ - h₁
    refine Prog.Along.bind (Q := fun _ _ _ => True) ?_ (.step h₁.1 fun u w₂ hact => ?_)
    · rintro - ts₂ w₂ hstop -
      exact ⟨hstop, trivial⟩
    · cases hact
      have hcommit : ∀ ts, Claimed w.server.db aid (ts ++ [.commit]) ↔ Claimed w.server.db aid ts := fun ts =>
        claimed_concat (by simp) (by simp)
      -- the claim was made or it was not: the commit publishes the row, or nothing
      rcases h₁.1 with ⟨hun, halike⟩ | ⟨hclaimed, hseen⟩
      · exact ⟨Or.inl ⟨fun hc => hun ((hcommit _).mp hc), halike.commit hidle⟩, trivial⟩
      · exact ⟨Or.inr ⟨(hcommit _).mpr hclaimed, hseen.commit⟩, trivial⟩

end Run

end Aborted

/-! ## What later calls commit

The tables are compared after each call and not only after the last: a later call might overwrite the row again. -/

section Later

variable (x : DTX ι)

/-- The committed tables, at the start and after each of the calls, up to one that waits. -/
def tablesAfter : List Op → World ι → List Db
  | [], w => [w.server.db]
  | op :: ops, w => w.server.db :: ((op.run x).run w).elim [] fun r => tablesAfter ops r.2

variable {x}

/-- **What looks the same evolves in the same way.** -/
theorem Alike.tablesAfter {w w' : World ι} (h : Alike x.conn w w') (ops : List Op) :
    tablesAfter x ops w' = tablesAfter x ops w := by
  induction ops generalizing w w' with
  | nil => exact congrArg (fun db => [db]) h.server.db
  | cons op ops ih =>
    unfold Interrupt.tablesAfter
    rw [h.server.db]
    have hrun := (blind_op x op).run h
    generalize (op.run x).run w = r, (op.run x).run w' = r' at hrun ⊢
    cases hrun with
    | none => rfl
    | some hrel => exact congrArg _ (ih hrel.2)

/-- `acquire` commits what the connection sees. -/
theorem run_acquire_commits {s t : String} {w : World ι} (hfree : Free x.conn w.server (lockFor x.pg (.owner s t))) :
    ∃ w', ((Op.acquire s t).run x).run w = some (.ok (), w') ∧
      w'.server.db.actions = (x.view w.server).actions := by
  have hlock := lock_of_free hfree
  generalize hsrv : ({ w.server with locks := _ } : Server ι) = srv at hlock
  let ep := ((x.view srv).turn_owner (s, t)).elim 1 (· + 1)
  refine ⟨{ w with
    server := (srv.write x.conn (.setOwner s t ep)).commit (scheme x.pg) x.conn
    held := Function.update w.held x.conn (some ep) }, ?_, ?_⟩
  · simp [Op.run, DTX.acquire, DTX.upsert_owner, DTX.execute, DTX.lock, hlock, ep]
  · show (x.view (srv.write x.conn (.setOwner s t ep))).actions = _
    rw [view_write, ← view_lock hlock]
    rfl

/-- After a claim that was not rolled back, `acquire` makes a difference. -/
theorem Seen.differs {s t aid : String} {w w' : World ι}
    (h : Seen x w aid (lockFor x.pg (.owner s t)) w') (hidle : w.server.pending x.conn = [])
    (hnone : w.server.db.actions aid = none) :
    tablesAfter x [.acquire s t] w' ≠ tablesAfter x [.acquire s t] w := by
  obtain ⟨w₁, hrun, hactions⟩ := run_acquire_commits h.free
  obtain ⟨w₁', hrun', hactions'⟩ := run_acquire_commits ((h.locks _).mpr h.free)
  intro heq
  simp only [tablesAfter, hrun, hrun', Option.elim_some, List.cons.injEq, and_true] at heq
  have hrow := h.row
  rw [← hactions', heq.2, hactions, show x.view w.server = w.server.db from TxServer.view_of_pending_nil hidle,
    hnone] at hrow
  cases hrow

/-- Later calls cannot tell, unless the claim is won and not rolled back. -/
theorem Stopped.tables_iff {s t aid : String} {w w' : World ι} {ts : List Stmt}
    (h : Stopped x w aid (lockFor x.pg (.owner s t)) ts w') (hidle : w.server.pending x.conn = []) :
    (∀ ops, tablesAfter x ops w' = tablesAfter x ops w) ↔ ¬ Claimed w.server.db aid ts := by
  rcases h with ⟨hun, halike⟩ | ⟨hclaimed, hseen⟩
  · exact ⟨fun _ => hun, fun _ ops => halike.tablesAfter ops⟩
  · constructor
    · intro hsame
      exact absurd (hsame [.acquire s t]) (hseen.differs hidle hclaimed.2.1)
    · intro hun
      exact absurd hclaimed hun

/-- **An exception that the transaction handles leaves nothing to later calls; one that it does not, nothing
    unless the claim is won and not yet rolled back.** -/
theorem do_charge_aborted (w : World ι) (hidle : w.server.pending x.conn = []) (s t cid : String) (o : Ordinal)
    (args : Json) (ep : Nat) (mid : Bool) :
    (∀ e w', (x.do_charge s t cid o args ep mid).run w = some (.error e, w') →
      ∀ ops, tablesAfter x ops w' = tablesAfter x ops w) ∧
    ∀ ts q w', Prog.Trace (x.do_charge s t cid o args ep mid) w ts q w' →
      ((∀ ops, tablesAfter x ops w' = tablesAfter x ops w) ↔
        ¬ Claimed w.server.db (action_id s t cid o) ts) := by
  have halong := along_do_charge hidle s t cid o args ep mid
  constructor
  · intro e w' hrun ops
    obtain ⟨-, halike⟩ := halong.ended hrun
    exact halike.tablesAfter ops
  · intro ts q w' htrace
    have hstop := halong.trace htrace
    rw [List.nil_append] at hstop
    exact hstop.tables_iff hidle

end Later

end Calls

/-! A turn with an owner, whose charge is stopped by Ctrl-C right after its claim. -/

section Desk

local instance driver : Driver := .sqlite

def desk : World Unit :=
  ⟨rest { Db.empty with turn_owner := Function.update (fun _ => none) ("s", "t") (some 1) }, .empty, fun _ => none⟩

theorem desk_owner : desk.server.db.turn_owner ("s", "t") = some 1 := by
  show Function.update (fun _ => none) ("s", "t") (some 1) ("s", "t") = some 1
  exact Function.update_self ..

def clerk : DTX Unit := ⟨(), false, 1⟩

def orderArgs : Json := .obj [(.str "order", .str "W"), (.str "amount", .int 7)]

theorem first_taken : (Ordinal.int 0).taken = true := Ordinal.taken_int (by decide) (by decide)

theorem order_billable : billable (.str "W") (.int 7) = true := billable_plain (by decide) (by decide) (by decide)

theorem trace_claim (mid : Bool) : ∃ q w', Prog.Trace (clerk.do_charge "s" "t" "c" (.int 0) orderArgs 1 mid) desk
    [.select_owner "s" "t", .insert_action (action_id "s" "t" "c" (.int 0))] q w' := by
  obtain ⟨afp, hafp⟩ : ∃ afp, args_fingerprint orderArgs = some afp := exists_args_fingerprint rfl
  unfold DTX.do_charge
  rw [hafp]
  generalize action_id "s" "t" "c" (.int 0) = aid
  let row : ActionRow := DTX.chargeRow "s" "t" (.int 0) afp 1
  -- where it stops: the claim is pending, and nothing else
  let claimed : World Unit := { desk with server := solo clerk.conn desk.server.db [.insertAction aid row] [.database] }
  have hdesk : desk.server = solo clerk.conn desk.server.db [] [] := rest_eq _ _
  have hpg : clerk.pg = false := rfl
  have howner : (clerk.view desk.server).turn_owner ("s", "t") = some 1 := by
    rw [hdesk, solo_view]
    exact desk_owner
  have hselect : ∀ f : Option Nat → DtxProg Unit (Tag × Option Json), Prog.Trace (clerk.select_owner "s" "t" >>= f)
      desk [.select_owner "s" "t"] (f (some 1)) desk := by
    intro f
    refine Prog.Trace.step ?_
    simp [hpg, howner]
  have hinsert : ∀ f : Bool → DtxProg Unit (Tag × Option Json),
      Prog.Trace (clerk.insert_action aid row >>= f) desk [.insert_action aid] (f true) claimed := by
    intro f
    have hrow : row.taken = true := first_taken
    unfold DTX.insert_action
    rw [hrow, Prog.bind_assoc]
    refine Prog.Trace.step ?_
    rw [hdesk]
    simp [DTX.insertUnless, claimed, hpg, lockFor, desk, Db.empty]
  have hbody : Prog.Trace (clerk.chargeBody "s" "t" aid afp (.int 0) orderArgs 1 mid) desk
      [.select_owner "s" "t", .insert_action aid] (clerk.chargeEffect aid orderArgs mid) claimed :=
    (hselect _).trans (hinsert _)
  exact ⟨_, claimed, (hbody.bind _).tryCatch _⟩

/-- The same after a claim that is won, but the call raises and the transaction handles it. -/
theorem run_crash :
    ∃ w', (clerk.do_charge "s" "t" "c" (.int 0) orderArgs 1 true).run desk = some (.error .Crash, w') := by
  obtain ⟨afp, hafp⟩ : ∃ afp, args_fingerprint orderArgs = some afp := exists_args_fingerprint rfl
  exact ⟨_, clerk.run_do_charge_crash hafp first_taken rfl rfl order_billable desk_owner rfl⟩

theorem do_charge_aborted_claim :
    (∃ e w', (clerk.do_charge "s" "t" "c" (.int 0) orderArgs 1 true).run desk = some (.error e, w') ∧
      ∀ ops, tablesAfter clerk ops w' = tablesAfter clerk ops desk) ∧
    ∃ ts q w', Prog.Trace (clerk.do_charge "s" "t" "c" (.int 0) orderArgs 1 true) desk ts q w' ∧
      ¬ ∀ ops, tablesAfter clerk ops w' = tablesAfter clerk ops desk := by
  obtain ⟨w₁, hrun⟩ := run_crash
  obtain ⟨q, w₂, htrace⟩ := trace_claim true
  obtain ⟨hraised, hstopped⟩ := do_charge_aborted (x := clerk) desk rfl "s" "t" "c" (.int 0) orderArgs 1 true
  refine ⟨⟨.Crash, w₁, hrun, hraised .Crash w₁ hrun⟩, _, q, w₂, htrace, ?_⟩
  rw [hstopped _ q w₂ htrace, not_not]
  exact ⟨by simp, rfl, by simp⟩

theorem not_do_charge_aborted : ¬ ∀ (mid : Bool) (ts : List Stmt) q (w' : World Unit),
    Prog.Trace (clerk.do_charge "s" "t" "c" (.int 0) orderArgs 1 mid) desk ts q w' →
      ∀ ops, tablesAfter clerk ops w' = tablesAfter clerk ops desk := by
  intro h
  obtain ⟨q, w', htrace⟩ := trace_claim false
  have hidle : desk.server.pending clerk.conn = [] := rfl
  have hstop := (along_do_charge hidle "s" "t" "c" (.int 0) orderArgs 1 false).trace htrace
  refine (hstop.tables_iff hidle).mp (h false _ q w' htrace) ⟨by simp, rfl, by simp⟩

end Desk

end AgentTx.Dtx.Interrupt
