import AgentTx.Dtx.Protocol
import AgentTx.Lib.Prog.RelyGuarantee

/-!
# `Dtx.Contract` — one specification for each method of `DTX`

A `Contract` is what a proof about coordinators is about: an invariant of what is public (the committed
tables, the files, the tokens held) and what a coordinator may do to it. `Contract.rules` turns it into a
rely-guarantee proof over the server: locks and pending writes are dealt with here, once, so that a
contract only answers for the moments at which something becomes public — a commit, or a call on files.

`At i ws ls F` is where coordinator `i` stands: its pending writes, row locks it holds, and a fact about
the public state that the others keep (`Keeps`).
-/

namespace AgentTx.Dtx

variable {ι : Type}

/-- The part of the world that coordinators see of each other. -/
structure Public (ι : Type) where
  db : Db
  files : FileSys
  held : ι → Option Nat

def World.pub (w : World ι) : Public ι := ⟨w.server.db, w.files, w.held⟩

/-- The writes of a transaction become public. -/
def Public.commit (p : Public ι) (ws : List Write) : Public ι :=
  { p with db := ws.foldl (fun d v => v.apply d) p.db }

/-- The public state with other files. -/
def Public.withFiles (p : Public ι) (fs : FileSys) : Public ι := { p with files := fs }

/-- An invariant, and what coordinator `i` may do to the public state. -/
structure Contract (ι : Type) where
  inv : Public ι → Prop
  may : ι → Public ι → Public ι → Prop
  may_refl : ∀ i p, may i p p
  ok : ι → Stmt → Public ι → Prop := fun _ _ _ => True

namespace Contract

variable (C : Contract ι) (pg : Bool)

/-- The contract as rules for programs on the world. -/
def rules : RelyGuarantee ι Stmt (World ι) where
  Inv w := w.server.Covered (scheme pg) ∧ C.inv w.pub
  Rely i w w' := w.server.Frame (scheme pg) i w'.server ∧ w'.held i = w.held i ∧
    ∃ j, j ≠ i ∧ C.may j w.pub w'.pub
  Guar i _ w w' := (∀ j, i ≠ j → w.server.Frame (scheme pg) j w'.server ∧ w'.held j = w.held j) ∧
    C.may i w.pub w'.pub
  Ok i t w := C.ok i t w.pub

/-- Where coordinator `i` stands. -/
structure At (i : ι) (ws : List Write) (ls : List Lock) (F : Public ι → Prop) (w : World ι) : Prop where
  pending : w.server.pending i = ws
  locks : ∀ l ∈ ls, w.server.locks (lockFor pg l) = some i
  fact : F w.pub

/-- The others keep `F`, given that `i` holds the locks `ls`. -/
def Keeps (i : ι) (ls : List Lock) (F : Public ι → Prop) : Prop :=
  ∀ j p p', j ≠ i → C.inv p → C.inv p' → C.may j p p' → p'.held i = p.held i →
    (∀ l ∈ ls, l ≠ .database → SameRow l p.db p'.db) → F p → F p'

variable {C} {pg} {i : ι} {ws : List Write} {ls : List Lock} {F F' G : Public ι → Prop}

theorem Keeps.mono {ls' : List Lock} (h : C.Keeps i ls F) (hls : ∀ l ∈ ls, l ∈ ls') : C.Keeps i ls' F :=
  fun j p p' hij hp hp' hm hh hl => h j p p' hij hp hp' hm hh fun l hmem => hl l (hls l hmem)

theorem Keeps.and (h : C.Keeps i ls F) (h' : C.Keeps i ls F') : C.Keeps i ls fun p => F p ∧ F' p :=
  fun j p p' hij hp hp' hm hh hl hF =>
    ⟨h j p p' hij hp hp' hm hh hl hF.1, h' j p p' hij hp hp' hm hh hl hF.2⟩

/-- A fact about a row that `i` has locked. -/
theorem keeps_row {l : Lock} (hl : l ∈ ls) (hdb : l ≠ .database)
    (h : ∀ p p' : Public ι, SameRow l p.db p'.db → F p → F p') : C.Keeps i ls F :=
  fun _ p p' _ _ _ _ _ hrows => h p p' (hrows l hl hdb)

theorem keeps_const (q : Prop) : C.Keeps i ls fun _ => q := fun _ _ _ _ _ _ _ _ _ hq => hq

/-- A fact about one's own token. -/
theorem keeps_held (o : Option Nat) : C.Keeps i ls fun p => p.held i = o :=
  fun _ _ _ _ _ _ _ hh _ ho => hh.trans ho

theorem At.mono {w : World ι} {ls' : List Lock} (h : At pg i ws ls F w) (hls : ∀ l ∈ ls', l ∈ ls)
    (hF : F w.pub → F' w.pub) : At pg i ws ls' F' w :=
  ⟨h.pending, fun l hl => h.locks l (hls l hl), hF h.fact⟩

/-- Locks that the backend does not tell from those held. -/
theorem At.sameLocks {w : World ι} {ls' : List Lock} (h : At pg i ws ls F w)
    (hls : ∀ l ∈ ls', ∃ l₀ ∈ ls, lockFor pg l = lockFor pg l₀) : At pg i ws ls' F w := by
  refine ⟨h.pending, fun l hl => ?_, h.fact⟩
  obtain ⟨l₀, hl₀, heq⟩ := hls l hl
  rw [heq]
  exact h.locks l₀ hl₀

/-- **Where a coordinator stands is stable.** -/
theorem stable_at (hF : C.Keeps i ls F) : (C.rules pg).Stable i (At pg i ws ls F) := by
  rintro w w' hw hw' ⟨hframe, hheld, j, hji, hmay⟩ hat
  refine ⟨hframe.pending.trans hat.pending, fun l hl => (hframe.locks _).mpr (hat.locks l hl), ?_⟩
  refine hF j w.pub w'.pub hji hw.2 hw'.2 hmay hheld (fun l hl hdb => ?_) hat.fact
  exact sameRow_of_same hdb (hframe.rows _ (hat.locks l hl))

/-- So is a fact that needs no lock, wherever the coordinator stands. -/
theorem stable_fact (hF : C.Keeps i [] F) : (C.rules pg).Stable i fun w => F w.pub := by
  rintro w w' hw hw' ⟨-, hheld, j, hji, hmay⟩ hf
  exact hF j w.pub w'.pub hji hw.2 hw'.2 hmay hheld (fun l hl => absurd hl List.not_mem_nil) hf

/-! ## Statements -/

/-- What a statement before the commit does to the server: nothing that the others see. -/
structure Quiet (pg : Bool) (i : ι) (srv srv' : Server ι) : Prop where
  db : srv'.db = srv.db
  frame : ∀ j, i ≠ j → srv.Frame (scheme pg) j srv'
  covered : srv.Covered (scheme pg) → srv'.Covered (scheme pg)

theorem Quiet.refl {srv : Server ι} : Quiet pg i srv srv := ⟨rfl, fun _ _ => .refl, id⟩

theorem Quiet.trans {srv srv' srv'' : Server ι} (h : Quiet pg i srv srv') (h' : Quiet pg i srv' srv'') :
    Quiet pg i srv srv'' :=
  ⟨h'.db.trans h.db, fun j hij => (h.frame j hij).trans (h'.frame j hij), fun hc => h'.covered (h.covered hc)⟩

variable {α : Type} {E : Exn → World ι → Prop}

/-- What a quiet statement owes the contract: nothing. -/
theorem execute_step {w w' : World ι} {a : α} {f : Server ι → Option (α × Server ι)} {Q : World ι → Prop}
    {t : Stmt} (hw : (C.rules pg).Inv w)
    (hact : ((f w.server).map fun r => (r.1, { w with server := r.2 })) = some (a, w'))
    (h : ∀ srv, f w.server = some (a, srv) → Quiet pg i w.server srv ∧ Q { w with server := srv }) :
    (C.rules pg).Guar i t w w' ∧ (C.rules pg).Inv w' ∧ Q w' := by
  obtain ⟨⟨b, srv⟩, hf, hw'⟩ := Option.map_eq_some_iff.mp hact
  cases hw'
  obtain ⟨hq, hQ⟩ := h srv hf
  have hpub : World.pub { w with server := srv } = w.pub := by
    rw [World.pub, World.pub, hq.db]
  refine ⟨⟨fun j hij => ⟨hq.frame j hij, rfl⟩, ?_⟩, ⟨hq.covered hw.1, ?_⟩, hQ⟩
  · rw [hpub]
    exact C.may_refl i _
  · rw [hpub]
    exact hw.2

/-- A statement sent to the server. -/
theorem triple_execute {P : World ι → Prop} {Q : α → World ι → Prop} {t : Stmt}
    {f : Server ι → Option (α × Server ι)} (hP : (C.rules pg).Stable i P)
    (h : ∀ w a srv, C.inv w.pub → P w → C.ok i t w.pub → f w.server = some (a, srv) →
      Quiet pg i w.server srv ∧ Q a { w with server := srv }) :
    (C.rules pg).Triple i P (DTX.execute t f) Q E :=
  RelyGuarantee.Triple.step hP fun w a _ hw hp hok hact =>
    execute_step hw hact fun srv hf => h w a srv hw.2 hp hok hf

variable {c : DTX ι}

/-- A coordinator with nothing pending reads the committed tables. -/
theorem view_eq {w : World ι} (h : w.server.pending c.conn = []) :
    c.view w.server = w.pub.db :=
  TxServer.view_of_pending_nil h

/-- `SELECT … FROM turns`. -/
theorem select_turn {s t : String} {Q : Option TurnRow → Public ι → Prop}
    (hF : C.Keeps c.conn ls F) (h : ∀ p, C.inv p → F p → Q (p.db.turns (s, t)) p) :
    (C.rules c.pg).Triple c.conn (At c.pg c.conn [] ls F) (c.select_turn s t)
      (fun r => At c.pg c.conn [] ls (Q r)) E := by
  refine triple_execute (stable_at hF) fun w r srv hw hat _ hf => ?_
  cases hf
  refine ⟨.refl, hat.pending, hat.locks, ?_⟩
  rw [view_eq hat.pending]
  exact h w.pub hw hat.fact

/-- `SELECT … FROM actions`. -/
theorem select_action {aid : String} {Q : Option ActionRow → Public ι → Prop}
    (hF : C.Keeps c.conn ls F) (h : ∀ p, C.inv p → F p → Q (p.db.actions aid) p) :
    (C.rules c.pg).Triple c.conn (At c.pg c.conn [] ls F) (c.select_action aid)
      (fun r => At c.pg c.conn [] ls (Q r)) E := by
  refine triple_execute (stable_at hF) fun w r srv hw hat _ hf => ?_
  cases hf
  refine ⟨.refl, hat.pending, hat.locks, ?_⟩
  rw [view_eq hat.pending]
  exact h w.pub hw hat.fact

variable [DecidableEq ι]

theorem Quiet.lock {srv srv' : Server ι} {l : Lock} (h : srv.lock i l = some srv') :
    Quiet pg i srv srv' :=
  ⟨TxServer.lock_db h, fun _ hij => TxServer.lock_frame hij h, fun hc => TxServer.lock_covered hc h⟩

theorem Quiet.write {srv : Server ι} {w : Write}
    (h : srv.locks (lockFor pg w.row) = some i) : Quiet pg i srv (srv.write i w) :=
  ⟨rfl, fun _ hij => TxServer.write_frame hij, fun hc => TxServer.write_covered hc h⟩

/-- A lock that is granted. -/
theorem At.lock {w : World ι} {srv : Server ι} {l : Lock}
    (hat : At c.pg c.conn ws ls F w) (h : c.lock w.server l = some srv) :
    At c.pg c.conn ws (l :: ls) F { w with server := srv } := by
  refine ⟨?_, fun l' hl' => ?_, ?_⟩
  · show srv.pending c.conn = ws
    rw [TxServer.lock_pending h, hat.pending]
  · rcases List.mem_cons.mp hl' with rfl | hl'
    · exact TxServer.lock_self h
    · exact TxServer.lock_keeps h (hat.locks l' hl')
  · have hpub : World.pub { w with server := srv } = w.pub := by
      rw [World.pub, World.pub, TxServer.lock_db h]
    rw [hpub]
    exact hat.fact

/-- A write whose lock is held. -/
theorem At.write {w : World ι} {v : Write} (hat : At c.pg c.conn ws ls F w) :
    At c.pg c.conn (ws ++ [v]) ls F { w with server := w.server.write c.conn v } := by
  refine ⟨?_, hat.locks, hat.fact⟩
  show (w.server.write c.conn v).pending c.conn = ws ++ [v]
  rw [TxServer.write_pending, hat.pending]

/-- `SELECT owner_epoch … [FOR UPDATE]`: on PostgreSQL the row, if there is one, is locked from here on. -/
theorem select_owner {s t : String} (hF : C.Keeps c.conn [] F) :
    (C.rules c.pg).Triple c.conn (At c.pg c.conn [] [] F) (c.select_owner s t)
      (fun r => At c.pg c.conn [] (if c.pg && r.isSome then [.owner s t] else [])
        fun p => F p ∧ ((c.pg && r.isSome) = true → p.db.turn_owner (s, t) = r)) E := by
  refine triple_execute (stable_at hF) fun w r srv hw hat _ hf => ?_
  simp only [view_eq hat.pending] at hf
  split_ifs at hf with hlock
  · obtain ⟨srv', hsrv, hr⟩ := Option.map_eq_some_iff.mp hf
    cases hr
    rw [if_pos hlock]
    refine ⟨Quiet.lock hsrv, (hat.lock hsrv).mono (fun l hl => hl) fun hF => ⟨hF, fun _ => ?_⟩⟩
    show srv.db.turn_owner (s, t) = _
    rw [TxServer.lock_db hsrv]
    rfl
  · cases hf
    rw [if_neg hlock]
    exact ⟨.refl, hat.mono (fun l hl => hl) fun hF => ⟨hF, fun h => absurd h hlock⟩⟩

/-- `INSERT … ON CONFLICT DO NOTHING`: the row is inserted, and then pending under its lock, or it was
    there already. -/
theorem insertUnless {t : Stmt} {l : Lock} {conflict : Db → Bool} {v : Write} {H : Public ι → Prop}
    (hv : v.row = l) (hF : C.Keeps c.conn ls F)
    (hnew : ∀ p, C.inv p → F p → C.ok c.conn t p → conflict p.db = false → H p)
    (hold : ∀ p, C.inv p → F p → C.ok c.conn t p → conflict p.db = true → G p) :
    (C.rules c.pg).Triple c.conn (At c.pg c.conn [] ls F)
      (DTX.execute t (c.insertUnless l conflict v))
      (fun b => if b then At c.pg c.conn [v] (l :: ls) H else At c.pg c.conn [] ls G) E := by
  refine triple_execute (stable_at hF) fun w b srv hw hat hok hf => ?_
  unfold DTX.insertUnless at hf
  split_ifs at hf with hc
  · -- the conflicting row is visible: no lock is taken
    cases hf
    rw [view_eq hat.pending, Bool.and_eq_true] at hc
    exact ⟨.refl, hat.mono (fun l hl => hl) fun hF => hold w.pub hw hF hok hc.2⟩
  · obtain ⟨srv', hsrv, hr⟩ := Option.map_eq_some_iff.mp hf
    have hat' := hat.lock hsrv
    -- after the wait the row is looked up again, in what was committed meanwhile
    have hdb : srv'.db = w.server.db := TxServer.lock_db hsrv
    have hview : c.view srv' = w.server.db := by
      rw [← hdb]
      exact TxServer.view_of_pending_nil hat'.pending
    rw [hview] at hr
    have hpub : World.pub { w with server := srv' } = w.pub := by
      rw [World.pub, World.pub, hdb]
    split_ifs at hr with hcon
    · cases hr
      refine ⟨Quiet.lock hsrv, hat'.mono (fun l hl => List.mem_cons_of_mem _ hl) fun hF => ?_⟩
      rw [hpub] at hF ⊢
      exact hold w.pub hw hF hok hcon
    · cases hr
      have hl : srv'.locks (lockFor c.pg v.row) = some c.conn := by
        rw [hv]
        exact hat'.locks l List.mem_cons_self
      refine ⟨(Quiet.lock hsrv).trans (Quiet.write hl), ?_⟩
      refine (hat'.write (v := v)).mono (fun l hl => hl) fun _ => ?_
      have hwrite : World.pub { w with server := srv'.write c.conn v } = w.pub := by
        rw [World.pub, World.pub, TxServer.write_db, hdb]
      exact hwrite ▸ hnew w.pub hw hat.fact hok (Bool.eq_false_of_not_eq_true hcon)

omit [DecidableEq ι] in
/-- Values that are bound, or refused. -/
theorem bound {taken : Bool} {P : World ι → Prop} (hE : taken = false → ∀ w, P w → E .DataError w) :
    (C.rules pg).Triple i P (Prog.ofExcept (Driver.bound taken)) (fun _ w => taken = true ∧ P w) E := by
  refine .ofExcept (fun _ hok w _ hP => ⟨Driver.bound_ok hok, hP⟩) fun e he w _ hP => ?_
  obtain ⟨hrefused, rfl⟩ := Driver.bound_error he
  exact hE hrefused w hP

/-- `INSERT INTO actions`: the row is inserted, or was there already, or a column refuses it. -/
theorem insert_action [Driver] {aid : String} {row : ActionRow} {H : Public ι → Prop} (hF : C.Keeps c.conn ls F)
    (hE : row.taken = false → ∀ w, F w.pub → E .DataError w)
    (hnew : ∀ p, C.inv p → F p → C.ok c.conn (.insert_action aid) p → row.taken = true → p.db.actions aid = none → H p)
    (hold : ∀ p, C.inv p → F p → C.ok c.conn (.insert_action aid) p → row.taken = true →
      (p.db.actions aid).isSome → G p) :
    (C.rules c.pg).Triple c.conn (At c.pg c.conn [] ls F) (c.insert_action aid row)
      (fun b => if b then At c.pg c.conn [.insertAction aid row] (.action aid :: ls) H
        else At c.pg c.conn [] ls G) E := by
  refine (bound fun hrefused w hat => hE hrefused w hat.fact).bind fun _ w hw hat => ?_
  exact insertUnless (l := .action aid) rfl hF (fun p hp hf hok hnone => hnew p hp hf hok hat.1 (by simpa using hnone))
    (fun p hp hf hok => hold p hp hf hok hat.1) w hw hat.2

/-- An `UPDATE`, or an insert that cannot conflict: pending under its lock. -/
theorem lock_write {α : Type} {t : Stmt} {v : Write} {a : α} (hF : C.Keeps c.conn ls F)
    {f : Server ι → Option (α × Server ι)}
    (hf : ∀ srv, f srv = (c.lock srv v.row).map fun srv => (a, srv.write c.conn v)) :
    (C.rules c.pg).Triple c.conn (At c.pg c.conn ws ls F) (DTX.execute t f)
      (fun _ => At c.pg c.conn (ws ++ [v]) (v.row :: ls) F) E := by
  refine triple_execute (stable_at hF) fun w b srv hw hat _ h => ?_
  rw [hf] at h
  obtain ⟨srv', hsrv, hr⟩ := Option.map_eq_some_iff.mp h
  cases hr
  have hat' := hat.lock hsrv
  exact ⟨(Quiet.lock hsrv).trans (Quiet.write (hat'.locks _ List.mem_cons_self)), hat'.write⟩

/-- `INSERT INTO charges`, by the transaction that holds the claim. -/
theorem insert_charge [Driver] {row : ChargeRow} (hl : .action row.action_id ∈ ls) (hF : C.Keeps c.conn ls F)
    (hE : row.taken = false → ∀ w, F w.pub → E .DataError w) :
    (C.rules c.pg).Triple c.conn (At c.pg c.conn ws ls F) (c.insert_charge row)
      (fun _ w => row.taken = true ∧ At c.pg c.conn (ws ++ [.insertCharge row]) ls F w) E := by
  refine (bound fun hrefused w hat => hE hrefused w hat.fact).bind fun _ w hw hat => ?_
  obtain ⟨htaken, hat⟩ := hat
  refine RelyGuarantee.Triple.post ?_ (fun _ w _ hq => ⟨htaken, hq⟩) w hw hat
  refine triple_execute (stable_at hF) fun w b srv hw hat _ h => ?_
  obtain ⟨srv', hsrv, hr⟩ := Option.map_eq_some_iff.mp h
  cases hr
  split_ifs at hsrv with hpg
  · cases hsrv
    exact ⟨Quiet.write (hat.locks _ hl), hat.write⟩
  · have hat' := (hat.lock hsrv).mono (fun l hl => List.mem_cons_of_mem _ hl) id
    exact ⟨(Quiet.lock hsrv).trans (Quiet.write (hat'.locks _ hl)), hat'.write⟩

/-! ## The end of a transaction -/

/-- What a commit owes the contract. -/
theorem commit_step {Q : Public ι → Prop} {w : World ι} {t : Stmt} (hw : (C.rules c.pg).Inv w)
    (hat : At c.pg c.conn ws ls F w)
    (h : C.inv (w.pub.commit ws) ∧ C.may c.conn w.pub (w.pub.commit ws) ∧ Q (w.pub.commit ws)) :
    let w' : World ι := { w with server := w.server.commit (scheme c.pg) c.conn }
    (C.rules c.pg).Guar c.conn t w w' ∧ (C.rules c.pg).Inv w' ∧ At c.pg c.conn [] [] Q w' := by
  have hpub : World.pub { w with server := w.server.commit (scheme c.pg) c.conn } =
      w.pub.commit ws := by
    rw [← hat.pending]
    rfl
  obtain ⟨hinv, hmay, hQ⟩ := h
  rw [← hpub] at hinv hmay hQ
  refine ⟨⟨fun j hij => ⟨TxServer.commit_frame hw.1 hij, rfl⟩, hmay⟩,
    ⟨TxServer.commit_covered hw.1, hinv⟩, ⟨TxServer.commit_idle.pending, ?_, hQ⟩⟩
  exact fun l hl => absurd hl List.not_mem_nil

/-- **The commit rule.** The pending writes become public, which is what the contract answers for. -/
theorem commit {Q : Public ι → Prop} (hF : C.Keeps c.conn ls F)
    (h : ∀ p, C.inv p → F p → C.inv (p.commit ws) ∧ C.may c.conn p (p.commit ws) ∧ Q (p.commit ws)) :
    (C.rules c.pg).Triple c.conn (At c.pg c.conn ws ls F) c.commit
      (fun _ => At c.pg c.conn [] [] Q) E :=
  RelyGuarantee.Triple.modify (stable_at hF) fun w hw hat _ => commit_step hw hat (h w.pub hw.2 hat.fact)

/-- A rollback, from wherever the coordinator stands. -/
theorem rollback (hF : C.Keeps c.conn [] F) :
    (C.rules c.pg).Triple c.conn (fun w => F w.pub) c.rollback
      (fun _ => At c.pg c.conn [] [] F) E := by
  refine RelyGuarantee.Triple.modify (stable_fact hF) fun w hw hf _ => ?_
  refine ⟨⟨fun j hij => ⟨TxServer.rollback_frame hij, rfl⟩, C.may_refl _ _⟩,
    ⟨TxServer.release_covered hw.1, hw.2⟩, ⟨TxServer.release_idle.pending, ?_, hf⟩⟩
  exact fun l hl => absurd hl List.not_mem_nil

/-- `with c.db.transaction()`. -/
theorem transaction {α : Type} {body : DtxProg ι α} {P : World ι → Prop} {B Q : α → World ι → Prop}
    (hb : (C.rules c.pg).Triple c.conn P body B fun _ w => F w.pub)
    (hc : ∀ a, (C.rules c.pg).Triple c.conn (B a) c.commit (fun _ => Q a) fun _ w => F w.pub)
    (hF : C.Keeps c.conn [] F) :
    (C.rules c.pg).Triple c.conn P (c.transaction body) Q
      fun _ => At c.pg c.conn [] [] F := by
  refine RelyGuarantee.Triple.tryCatch (hb.bind fun a => (hc a).bind fun _ => fun _ _ hq => hq) fun e => ?_
  exact (rollback hF).bind fun _ => fun _ _ hq => hq

end Contract

/-! ## Systems of coordinators -/

variable [DecidableEq ι]

/-- Coordinators that run at once. One that dies loses its connection: the server rolls back. -/
def system (main : ι → DtxProg ι Unit) : System ι Empty Stmt (World ι) Exn Unit where
  main := main
  abort i w := { w with server := w.server.rollback i }
  env e := e.elim
  kills e := e.elim

/-- A machine crash: what it leaves of the entries, and of data that was not fsynced. -/
structure Outage where
  pick : FsPath → Nat
  lost : Nat → List UInt8

/-- What is left after it: what was committed, and the files. -/
def Outage.hit (e : Outage) (w : World ι) : World ι :=
  ⟨rest w.server.db, w.files.crash e.pick e.lost, w.held⟩

/-- Coordinators on a machine that may crash, and take all of them with it. -/
def machine (main : ι → DtxProg ι Unit) : System ι Outage Stmt (World ι) Exn Unit where
  main := main
  abort i w := { w with server := w.server.rollback i }
  env e w := some (e.hit w)
  kills _ := true

/-- No transaction is open, and nobody holds a token. -/
structure Quiescent (w : World ι) : Prop where
  pending : ∀ i, w.server.pending i = []
  locks : ∀ l, w.server.locks l = none
  held : ∀ i, w.held i = none

namespace Contract

variable {C : Contract ι} {pg : Bool}

/-- A coordinator that has not started. -/
def Unstarted (pg : Bool) (i : ι) : World ι → Prop := At pg i [] [] fun p => p.held i = none

omit [DecidableEq ι] in
/-- What the coordinator guarantees is what the others rely on. -/
theorem guar_rely {i j : ι} {t : Stmt} {w w' : World ι} (hij : i ≠ j) (hg : (C.rules pg).Guar i t w w') :
    (C.rules pg).Rely j w w' := by
  obtain ⟨hframe, hheld⟩ := hg.1 j hij
  exact ⟨hframe, hheld, i, hij, hg.2⟩

/-- So does a coordinator that dies. -/
theorem abort_rely {main : ι → DtxProg ι Unit} {i : ι} {w : World ι} (hw : (C.rules pg).Inv w) :
    (C.rules pg).Inv ((system main).abort i w) ∧
      ∀ j, i ≠ j → (C.rules pg).Rely j w ((system main).abort i w) := by
  refine ⟨⟨TxServer.release_covered hw.1, hw.2⟩, fun j hij => ?_⟩
  exact ⟨TxServer.rollback_frame hij, rfl, i, hij, C.may_refl i w.pub⟩

/-- **The contract of a system** is kept when every coordinator's program keeps it. -/
theorem verified {main : ι → DtxProg ι Unit}
    (h : ∀ i, (C.rules pg).Triple i (Unstarted pg i) (main i) (fun _ _ => True) fun _ _ => True) :
    RelyGuarantee.Verified (system main) (C.rules pg) (Unstarted pg) where
  main := h
  pre_stable _ := stable_at (keeps_held none)
  guar_rely _ _ _ _ _ hij _ _ hg := guar_rely hij hg
  abort _ _ hw := abort_rely hw
  env e := e.elim

/-- The same on a machine that may crash, when the invariant survives it. -/
theorem verified_machine {main : ι → DtxProg ι Unit}
    (h : ∀ i, (C.rules pg).Triple i (Unstarted pg i) (main i) (fun _ _ => True) fun _ _ => True)
    (hcrash : ∀ p (e : Outage), C.inv p → C.inv (p.withFiles (p.files.crash e.pick e.lost))) :
    RelyGuarantee.Verified (machine main) (C.rules pg) (Unstarted pg) where
  main := h
  pre_stable := (verified h).pre_stable
  guar_rely := (verified h).guar_rely
  abort := (verified h).abort
  env e w w' hw he := by
    cases he
    refine ⟨⟨fun i v hv => absurd hv List.not_mem_nil, hcrash w.pub e hw.2⟩, ?_⟩
    -- nobody runs on
    exact fun i hi => ⟨rfl, fun l hl => absurd hl List.not_mem_nil, hi.fact⟩

omit [DecidableEq ι] in
theorem unstarted_of_quiescent {w : World ι} (h : Quiescent w) (i : ι) : Unstarted pg i w :=
  ⟨h.pending i, fun _ hl => absurd hl List.not_mem_nil, h.held i⟩

omit [DecidableEq ι] in
theorem inv_of_quiescent {w : World ι} (h : Quiescent w) (hinv : C.inv w.pub) : (C.rules pg).Inv w := by
  refine ⟨fun i v hv => ?_, hinv⟩
  rw [h.pending i] at hv
  exact absurd hv List.not_mem_nil

variable (pg) in
omit [DecidableEq ι] in
/-- A system starts where nothing is going on and the invariant holds. -/
theorem init_of_quiescent {w₀ : World ι} (h : Quiescent w₀) (hinv : C.inv w₀.pub) :
    ∀ w, w = w₀ → (C.rules pg).Inv w ∧ ∀ i, Unstarted pg i w := by
  rintro w rfl
  exact ⟨inv_of_quiescent h hinv, unstarted_of_quiescent h⟩

/-- **A step of a system** is a statement within the contract, or nobody sees it. -/
theorem may_step {main : ι → DtxProg ι Unit} {c c' : Config ι Stmt (World ι) Exn Unit} {l : Label ι Empty Stmt}
    (hguar : ∀ i t, l = .next i t → (C.rules pg).Guar i t c.shared c'.shared)
    (hstep : (system main).step c l = some c') :
    (∃ i t, l = .next i t ∧ C.may i c.shared.pub c'.shared.pub) ∨ c'.shared.pub = c.shared.pub := by
  rcases System.step_cases hstep with ⟨i, rfl, -, rfl⟩ | ⟨i, t, β, act, k, b, s, rfl, -, -, rfl⟩ |
    ⟨i, p, rfl, -, rfl⟩ | ⟨e, s, rfl, -, rfl⟩
  · exact Or.inr rfl
  · exact Or.inl ⟨i, t, rfl, (hguar i t rfl).2⟩
  · -- what is rolled back was pending
    exact Or.inr rfl
  · exact e.elim

end Contract

end AgentTx.Dtx
