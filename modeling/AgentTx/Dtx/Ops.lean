import AgentTx.Dtx.Files

/-!
# `Dtx.Ops` — calls of the methods of `DTX`, as a caller makes them one after the other

A call that is not stopped leaves no transaction open on its connection, whether it returns or raises and
whatever the others do (`settles_op`): the caller can go on with the next one. `Contract.client` is the rule
for a caller that goes on so.

Layout of the proof:
* **Between calls** — `AtRest` for a connection. The others cannot end or begin its transaction, so that it is stable.
* **Calls** — a statement that writes is followed by a commit or a rollback on every path: by cases on the methods.
* **Clients** — the rule for a caller of any calls, with what a contract has to allow for each (`Allows`).
-/

namespace AgentTx.Dtx

/-- A call of a method. -/
inductive Op where
  | acquire (session turn : String)
  | begin_turn (session turn : String) (plan : List Json)
  | do_charge (session turn commit_id : String) (ordinal : Ordinal) (args : Json) (epoch : Nat) (mid : Bool)
  | do_overlay (session turn commit_id : String) (ordinal : Ordinal) (args : Json) (epoch : Nat) (store : String)
  | run_turn (session turn : String) (plan : Option (List Json)) (epoch : Option Nat) (crash_at : Option Int)

variable {ι : Type} [DecidableEq ι] [Driver]

namespace Op

variable (self : DTX ι)

/-- The call, whose result the caller does not use. -/
def run : Op → DtxProg ι Unit
  | acquire s t => do
      let _ ← self.acquire s t
      pure ()
  | begin_turn s t plan => do
      let _ ← self.begin_turn s t plan
      pure ()
  | do_charge s t cid o args ep mid => do
      let _ ← self.do_charge s t cid o args ep mid
      pure ()
  | do_overlay s t cid o args ep store => do
      let _ ← self.do_overlay s t cid o args ep store
      pure ()
  | run_turn s t plan epoch crash_at => do
      let _ ← self.run_turn s t plan epoch crash_at
      pure ()

end Op

/-- A caller that makes its calls one after the other, and handles the exceptions they raise. -/
def client (self : DTX ι) (ops : List Op) : DtxProg ι Unit := do
  Prog.forEach ops fun op => Prog.tryCatch (op.run self) fun _ => pure ()
  self.rollback

/-! ## Between calls -/

/-- Nothing is written on the connection and not committed. -/
abbrev AtRest (i : ι) (w : World ι) : Prop := w.server.pending i = []

/-- What the others do on their connections is nothing to this one's transaction. -/
def privately (ι : Type) : RelyGuarantee ι Stmt (World ι) where
  Inv _ := True
  Rely i w w' := w'.server.pending i = w.server.pending i
  Guar _ _ _ _ := True

section Settles

variable {x : DTX ι} {α β : Type} {s t cid : String}

/-- From a connection at rest, it is at rest again in the end. -/
abbrev Settles (i : ι) (p : DtxProg ι α) : Prop :=
  (privately ι).Triple i (AtRest i) p (fun _ => AtRest i) fun _ => AtRest i

omit [DecidableEq ι] [Driver] in
theorem stable_atRest (i : ι) : (privately ι).Stable i (AtRest i) :=
  fun _ _ _ _ hsame hw => hsame.trans hw

omit [DecidableEq ι] [Driver] in
theorem settles_pure (i : ι) (a : α) : Settles i (pure a) := fun _ _ hw => hw

omit [DecidableEq ι] [Driver] in
theorem settles_raise (i : ι) (e : Exn) : Settles i (.raise e : DtxProg ι α) := fun _ _ hw => hw

omit [DecidableEq ι] [Driver] in
theorem settles_ofExcept (i : ι) (r : Except Exn α) : Settles i (.ofExcept r : DtxProg ι α) :=
  .ofExcept (fun _ _ _ _ hw => hw) fun _ _ _ _ hw => hw

omit [DecidableEq ι] [Driver] in
/-- A step that writes nothing to the connection. -/
theorem settles_step {i : ι} {st : Stmt} {act : World ι → Option (α × World ι)}
    (h : ∀ w a w', act w = some (a, w') → AtRest i w → AtRest i w') : Settles i (.step st act) :=
  .step (stable_atRest i) fun w a w' _ hw _ hact => ⟨trivial, trivial, h w a w' hact hw⟩

omit [DecidableEq ι] [Driver] in
/-- Nothing asked. -/
theorem triple_any (i : ι) (p : DtxProg ι α) :
    (privately ι).Triple i (fun _ => True) p (fun _ _ => True) fun _ _ => True := by
  induction p with
  | ret a => exact fun _ _ _ => trivial
  | raise e => exact fun _ _ _ => trivial
  | op st act k ih => exact fun _ _ _ w _ _ b w' _ => ⟨trivial, trivial, ih b w' trivial trivial⟩

omit [DecidableEq ι] [Driver] in
/-- What ends a transaction, whatever is pending. -/
theorem triple_end {st : Stmt} {f : World ι → World ι} {E : Exn → World ι → Prop} (i : ι)
    (h : ∀ w, AtRest i (f w)) :
    (privately ι).Triple i (fun _ => True) (Prog.modify st f) (fun _ => AtRest i) E :=
  .modify (fun _ _ _ _ _ _ => trivial) fun w _ _ _ => ⟨trivial, trivial, h w⟩

omit [Driver] in
theorem triple_commit {E : Exn → World ι → Prop} :
    (privately ι).Triple x.conn (fun _ => True) x.commit (fun _ => AtRest x.conn) E :=
  triple_end x.conn fun _ => TxServer.commit_idle.pending

omit [Driver] in
/-- A statement and its commit. -/
theorem settles_committed {st : Stmt} {f : Server ι → Option (α × Server ι)} {k : α → DtxProg ι β}
    (hk : ∀ a, Settles x.conn (k a)) : Settles x.conn (DTX.execute st f >>= fun a => x.commit >>= fun _ => k a) := by
  have hany : (privately ι).Triple x.conn (AtRest x.conn) (DTX.execute st f) (fun _ _ => True)
      fun _ => AtRest x.conn :=
    .step (stable_atRest _) fun _ _ _ _ _ _ _ => ⟨trivial, trivial, trivial⟩
  exact hany.bind fun a => triple_commit.bind fun _ => hk a

omit [Driver] in
/-- A transaction is over when it ends, however it ends. -/
theorem settles_transaction {body : DtxProg ι α} : Settles x.conn (x.transaction body) := by
  have hbody : (privately ι).Triple x.conn (AtRest x.conn) body (fun _ _ => True) fun _ _ => True :=
    (triple_any x.conn body).pre fun _ _ _ => trivial
  refine RelyGuarantee.Triple.tryCatch (hbody.bind fun a => triple_commit.bind fun _ => ?_) fun e => ?_
  · exact fun _ _ hw => hw
  · exact (triple_end x.conn fun _ => TxServer.release_idle.pending).bind fun _ => fun _ _ hw => hw

omit [Driver] in
theorem settles_acquire : Settles x.conn (x.acquire s t) := by
  have hany : (privately ι).Triple x.conn (AtRest x.conn) (x.upsert_owner s t) (fun _ _ => True)
      fun _ => AtRest x.conn :=
    .step (stable_atRest _) fun _ _ _ _ _ _ _ => ⟨trivial, trivial, trivial⟩
  refine hany.bind fun ep => (triple_end x.conn fun _ => ?_).bind fun _ => fun _ _ hw => hw
  exact TxServer.commit_idle.pending

omit [Driver] in
theorem settles_begin_turn {plan : List Json} : Settles x.conn (x.begin_turn s t plan) :=
  (settles_ofExcept _ _).bind fun _ => settles_committed fun _ => settles_pure _ _

omit [DecidableEq ι] [Driver] in
theorem settles_load_plan : Settles x.conn (x.load_plan s t) := by
  refine (settles_step fun w a w' hact hw => ?_).bind fun r => ?_
  · cases hact
    exact hw
  · cases r with
    | none => exact settles_pure _ _
    | some r => exact (settles_ofExcept _ _).bind fun _ => settles_pure _ _

theorem settles_do_charge {o : Ordinal} {args : Json} {ep : Nat} {mid : Bool} :
    Settles x.conn (x.do_charge s t cid o args ep mid) :=
  (settles_ofExcept _ _).bind fun _ => settles_transaction

omit [DecidableEq ι] [Driver] in
theorem settles_writeBytes (i : ι) (n : Nat) :
    ∀ (bytes : List UInt8) (off : Nat), Settles i (Prog.writeBytes n off bytes)
  | [], _ => settles_pure _ _
  | _ :: bs, off => by
      refine (settles_step fun w a w' hact hw => ?_).bind fun _ => settles_writeBytes i n bs (off + 1)
      cases hact
      exact hw

omit [DecidableEq ι] [Driver] in
theorem settles_publish (i : ι) {tmp final : FsPath} {text : String} : Settles i (DTX.publish tmp final text) := by
  refine RelyGuarantee.Triple.bind (Q := fun _ => AtRest i) ?_ fun _ =>
    (settles_step fun w a w' hact hw => ?_).bind fun ok => ?_
  · refine (settles_step fun w a w' hact hw => ?_).bind fun n => (settles_writeBytes i n _ 0).bind fun _ =>
      settles_step fun w a w' hact hw => ?_
    · cases hact
      exact hw
    · cases hact
      exact hw
  · split at hact
    · cases hact
      exact hw
    · cases hact
      exact hw
  · cases ok
    · exact settles_raise _ _
    · exact settles_pure _ _

theorem settles_record_overlay {aid afp : String} {o : Ordinal} {ep : Nat} :
    Settles x.conn (x.record_overlay s t aid o afp ep) := by
  unfold DTX.record_overlay DTX.insert_action
  rw [Prog.bind_assoc]
  exact (settles_ofExcept _ _).bind fun _ => settles_committed fun _ => settles_pure _ ()

theorem settles_do_overlay {o : Ordinal} {args : Json} {ep : Nat} {store : String} :
    Settles x.conn (x.do_overlay s t cid o args ep store) := by
  refine (settles_ofExcept _ _).bind fun _ => (settles_step fun w a w' hact hw => ?_).bind fun found => ?_
  · cases hact
    exact hw
  · cases found with
    | true => exact settles_record_overlay.bind fun _ => settles_pure _ _
    | false =>
      refine (settles_ofExcept _ _).bind fun _ => (settles_publish _).bind fun _ => ?_
      refine (settles_step fun w a w' hact hw => ?_).bind fun _ => ?_
      · cases hact
        exact hw
      · exact settles_record_overlay.bind fun _ => settles_pure _ _

theorem settles_runSteps {ep : Nat} {crash_at : Option Int} (steps : List Json) :
    Settles x.conn (x.runSteps s t cid ep crash_at steps) := by
  induction steps with
  | nil => exact settles_pure _ _
  | cons step steps ih =>
    refine (settles_ofExcept _ _).bind fun o => (settles_ofExcept _ _).bind fun args => ?_
    exact settles_do_charge.bind fun r => ih.bind fun rs => settles_pure _ _

theorem settles_run_turn {plan : Option (List Json)} {epoch : Option Nat} {crash_at : Option Int} :
    Settles x.conn (x.run_turn s t plan epoch crash_at) := by
  refine RelyGuarantee.Triple.bind (Q := fun _ => AtRest x.conn) ?_ fun ep =>
    RelyGuarantee.Triple.bind (Q := fun _ => AtRest x.conn) ?_ fun r => ?_
  · cases epoch with
    | none => exact settles_acquire
    | some ep => exact settles_pure _ _
  · cases plan with
    | some plan => exact settles_begin_turn.bind fun _ => settles_pure _ _
    | none =>
      refine settles_load_plan.bind fun o => ?_
      cases o with
      | none => exact settles_raise _ _
      | some r => exact (settles_ofExcept _ _).bind fun _ => settles_pure _ _
  · refine (settles_runSteps r.2).bind fun _ =>
      RelyGuarantee.Triple.bind (Q := fun _ => AtRest x.conn) ?_ fun _ => settles_pure _ _
    exact settles_committed fun _ => settles_pure _ ()

/-- **A call that is not stopped leaves no transaction open**, whether it returns or raises. -/
theorem settles_op (op : Op) : Settles x.conn (op.run x) := by
  cases op with
  | acquire s t => exact settles_acquire.bind fun _ => settles_pure _ _
  | begin_turn s t plan => exact settles_begin_turn.bind fun _ => settles_pure _ _
  | do_charge s t cid o args ep mid => exact settles_do_charge.bind fun _ => settles_pure _ _
  | do_overlay s t cid o args ep store => exact settles_do_overlay.bind fun _ => settles_pure _ _
  | run_turn s t plan epoch crash_at => exact settles_run_turn.bind fun _ => settles_pure _ _

end Settles

/-! ## Clients -/

namespace Contract

variable {C : Contract ι} {x : DTX ι} {s t : String}

/-- What the contract has to allow for calls other than `do_overlay`, whoever makes them and whatever they are
    given. -/
structure Allows (C : Contract ι) (i : ι) : Prop where
  acquire : ∀ p s t ep, C.inv p → (p.db.turn_owner (s, t)).elim 1 (· + 1) = ep →
    C.inv (acquired i s t ep p) ∧ C.may i p (acquired i s t ep p)
  begin_turn : ∀ p s t row, C.inv p → p.db.turns (s, t) = none →
    C.inv (p.commit [.insertTurn s t row]) ∧ C.may i p (p.commit [.insertTurn s t row])
  commit_turn : ∀ p s t, C.inv p →
    C.inv (p.commit [.setCommitted s t]) ∧ C.may i p (p.commit [.setCommitted s t])
  charge : ∀ p aid row order amount, C.inv p → row.klass = .transactional → p.db.actions aid = none →
    C.inv (p.commit (chargeWrites aid row order amount)) ∧ C.may i p (p.commit (chargeWrites aid row order amount))

/-- Where a caller stands between two calls. -/
abbrev Between (pg : Bool) (i : ι) : World ι → Prop := At pg i [] [] fun _ => True

omit [Driver] in
theorem Allows.acquired (hC : C.Allows x.conn) {E : Exn → World ι → Prop} :
    (C.rules x.pg).Triple x.conn (Between x.pg x.conn) (x.acquire s t) (fun _ => Between x.pg x.conn) E := by
  refine Contract.acquire (Q := fun _ _ => True) (keeps_const True) fun p ep hp _ hep => ?_
  obtain ⟨hinv, hmay⟩ := hC.acquire p s t ep hp hep
  exact ⟨hinv, hmay, trivial⟩

omit [Driver] in
theorem Allows.begun (hC : C.Allows x.conn) {plan : List Json} :
    (C.rules x.pg).Triple x.conn (Between x.pg x.conn) (x.begin_turn s t plan) (fun _ => Between x.pg x.conn)
      fun _ _ => True := by
  refine (Contract.begin_turn (Q := fun _ _ => True) (keeps_const True) (fun _ => keeps_const True) ?_ ?_).conseq
    (fun _ _ h => h) (fun _ _ _ h => h) fun _ _ _ _ => trivial
  · intro p cid hp _ _ hnone
    obtain ⟨hinv, hmay⟩ := hC.begin_turn p s t _ hp hnone
    exact ⟨hinv, hmay, trivial⟩
  · exact fun _ _ _ _ _ _ _ _ => trivial

theorem Allows.chargeOk (hC : C.Allows x.conn) {cid : String} {o : Ordinal} {args : Json} {ep : Nat} :
    ChargeOk C x s t cid o args ep (fun _ => True) fun _ _ => True where
  win p afp order amount hp _ _ _ _ _ _ hnone := by
    obtain ⟨hinv, hmay⟩ := hC.charge p _ (DTX.chargeRow s t o afp ep) order amount hp rfl hnone
    exact ⟨hinv, hmay, trivial⟩
  found _ _ _ _ _ _ _ _ _ _ _ := trivial

theorem Allows.ran (hC : C.Allows x.conn) {plan : Option (List Json)} {epoch : Option Nat}
    {crash_at : Option Int} :
    (C.rules x.pg).Triple x.conn (Between x.pg x.conn) (x.run_turn s t plan epoch crash_at)
      (fun _ => Between x.pg x.conn) fun _ _ => True := by
  refine Contract.run_turn (A := fun _ _ => True) (F := fun _ _ _ _ _ => True) (Q := fun _ _ => True) ?_
    (fun _ => keeps_const True) (fun _ _ _ _ => keeps_const True) (fun _ => keeps_const True)
    (fun _ items _ => hC.begun) (fun _ _ _ _ _ _ _ _ _ _ => trivial) (fun _ _ _ _ _ _ _ _ _ => hC.chargeOk)
    (fun _ _ _ p hp _ => ?_) fun _ _ _ _ _ _ _ => trivial
  · cases epoch with
    | none => exact hC.acquired
    | some ep => exact fun _ _ hat => hat
  · obtain ⟨hinv, hmay⟩ := hC.commit_turn p s t hp
    exact ⟨hinv, hmay, trivial⟩

/-- **A call of any method**, in a contract that allows it. -/
theorem Allows.op (hC : C.Allows x.conn) {op : Op}
    (hoverlay : ∀ s t cid o args ep store, op = .do_overlay s t cid o args ep store →
      ∃ ph, (∀ p, ph.before p) ∧ OverlayOk C x s t cid o args ep store ph) :
    (C.rules x.pg).Triple x.conn (Between x.pg x.conn) (op.run x) (fun _ => Between x.pg x.conn)
      fun _ => Between x.pg x.conn := by
  have hcall : (C.rules x.pg).Triple x.conn (Between x.pg x.conn) (op.run x) (fun _ _ => True)
      fun _ _ => True := by
    cases op with
    | acquire s t => exact hC.acquired.bind fun _ => fun _ _ _ => trivial
    | begin_turn s t plan => exact hC.begun.bind fun _ => fun _ _ _ => trivial
    | do_charge s t cid o args ep mid =>
      have hcharge : (C.rules x.pg).Triple x.conn (Between x.pg x.conn) (x.do_charge s t cid o args ep mid)
          (fun _ => Between x.pg x.conn) fun _ => Between x.pg x.conn :=
        Contract.do_charge (keeps_const True) (fun _ => keeps_const True) hC.chargeOk
      refine (hcharge.conseq (fun _ _ h => h) (fun _ _ _ h => h) fun _ _ _ _ => trivial).bind fun _ => ?_
      exact fun _ _ _ => trivial
    | do_overlay s t cid o args ep store =>
      obtain ⟨ph, hbefore, hok⟩ := hoverlay s t cid o args ep store rfl
      refine ((Contract.do_overlay hok).pre fun w _ hat => ?_).bind fun _ => fun _ _ _ => trivial
      exact hat.mono (fun l hl => hl) fun _ => hbefore _
    | run_turn s t plan epoch crash_at => exact hC.ran.bind fun _ => fun _ _ _ => trivial
  -- the connection is at rest again: others have no part in that
  have hinterfere : ∀ w w', (C.rules x.pg).Interfere x.conn w w' → (privately ι).Interfere x.conn w w' := by
    intro w w' h
    induction h with
    | refl => exact .refl
    | tail _ hstep ih => exact ih.tail ⟨trivial, trivial, hstep.2.2.1.pending⟩
  intro w hw hat
  have hboth := (hcall w hw hat).and hinterfere (fun _ _ _ => trivial) (settles_op op w trivial hat.pending)
  refine hboth.mono (fun _ w' _ h => ?_) (fun _ w' _ h => ?_) hw
  · exact ⟨h.2, fun _ hl => absurd hl List.not_mem_nil, trivial⟩
  · exact ⟨h.2, fun _ hl => absurd hl List.not_mem_nil, trivial⟩

/-- **A client**, in a contract that allows its calls. -/
theorem Allows.client (hC : C.Allows x.conn) {ops : List Op}
    (hoverlay : ∀ s t cid o args ep store, .do_overlay s t cid o args ep store ∈ ops →
      ∃ ph, (∀ p, ph.before p) ∧ OverlayOk C x s t cid o args ep store ph) :
    (C.rules x.pg).Triple x.conn (Between x.pg x.conn) (client x ops) (fun _ _ => True) fun _ _ => True := by
  -- call after call; whatever one of them raises, the connection is at rest
  have hcalls : ∀ ops' : List Op, (∀ op ∈ ops', op ∈ ops) → (C.rules x.pg).Triple x.conn (Between x.pg x.conn)
      (Prog.forEach ops' fun op => Prog.tryCatch (op.run x) fun _ => pure ()) (fun _ => Between x.pg x.conn)
      fun _ _ => True := by
    intro ops' hmem
    induction ops' with
    | nil => exact fun _ _ hat => hat
    | cons op ops' ih =>
      have hop : (C.rules x.pg).Triple x.conn (Between x.pg x.conn) (op.run x) (fun _ => Between x.pg x.conn)
          fun _ => Between x.pg x.conn :=
        hC.op fun s t cid o args ep store he => hoverlay s t cid o args ep store (he ▸ hmem op List.mem_cons_self)
      have hgoes : (C.rules x.pg).Triple x.conn (Between x.pg x.conn)
          (Prog.tryCatch (op.run x) fun _ => pure ()) (fun _ => Between x.pg x.conn) fun _ _ => True :=
        hop.tryCatch fun _ => fun _ _ hat => hat
      refine hgoes.bind fun _ => ?_
      exact ih fun op' hop' => hmem op' (List.mem_cons_of_mem _ hop')
  refine (hcalls ops fun _ h => h).bind fun _ => ?_
  exact ((rollback (keeps_const True)).pre fun _ _ _ => trivial).post fun _ _ _ _ => trivial

end Contract

end AgentTx.Dtx
