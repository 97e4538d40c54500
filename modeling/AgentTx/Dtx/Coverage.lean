import AgentTx.Checker.Distributed
import AgentTx.Dtx.Alone
import AgentTx.Dtx.Files

/-!
# `Dtx.Coverage` — which states of the implementation the distributed model has

Coordinators acquire a turn and run one action of it, a charge or an overlay, dying anywhere; what is left
is the owner epoch, the effects, and whether the row is there (`Triple`). The model has every such triple of a
charge. Of an overlay it lacks one: `do_overlay` publishes the receipt and then records it, while the model
makes the effect durable and marks it committed in one step, so it has no state with an effect and no row
(`uncovered_receipt`). All others it has (`covered_iff`).

Layout of the proof:
* **The model** — which triples of epoch, effects and end it reaches, for the two classes that DTX implements:
  `covered_zero` and `covered_one` by runs of the model, `not_covered` by its invariant.
* **The implementation** — `triple` reads the same three off the tables and the receipts.
* **The contract** — row and effect are one commit for a charge; a receipt comes before its row. `Inv.covered` then
  says which states have a triple of the model, and `Unrecorded` names the others.

Main results: `covered_iff`, in every reachable state, and `uncovered_receipt`: a receipt that is published before its
row is there.
-/

namespace AgentTx.Dtx.Coverage

variable {ι : Type}

/-! ## The model

What the checker would see of a state if it looked at what is durable alone. -/

section Model

open Checker.Distributed

/-- The owner epoch, the durable effects, and whether the action is committed. -/
abbrev Triple := Nat × Nat × Bool

/-- The durable part of a state of the model. -/
def durable (s : State Bool) : Triple := (s.owner_epoch, s.durable_effect, s.committed)

/-- The model's class of the action. -/
def modelKlass : Dtx.Klass → Checker.Distributed.Klass
  | .transactional => .transactional
  | .overlay => .overlay

/-- Some state that two coordinators of the model reach, over an unbounded lease space, has the triple. -/
def Covered (klass : Dtx.Klass) (t : Triple) : Prop :=
  ∃ s : State Bool, Reachable none (modelKlass klass) s ∧ durable s = t

section Steps

variable {κ : Type} [DecidableEq κ] {k : Checker.Distributed.Klass} {s : State κ} {i : κ}

theorem step_crash (hpc : (s.c i).2 ≠ .start) : Step none k s i (s.with_c i none .start) := by
  simp [Step, successors, hpc]

theorem step_acquire (hpc : (s.c i).2 = .start) : Step none k s i
    ({ s with owner_epoch := s.owner_epoch + 1 }.with_c i (some (s.owner_epoch + 1)) .acquired) := by
  simp [Step, successors, hpc, below]

theorem step_transact (hc : s.c i = (some s.owner_epoch, .acquired)) (hcommitted : s.committed = false) :
    Step none .transactional s i ({ s with
      claimed_by := s.owner_epoch, committed := true, durable_effect := s.durable_effect + 1 }.with_c i
        (some s.owner_epoch) .done) := by
  simp [Step, successors, hc, hcommitted]

theorem step_claim (hc : s.c i = (some s.owner_epoch, .acquired)) (hcommitted : s.committed = false)
    (hfree : s.claimed_by = 0) (hk : k ≠ .transactional) :
    Step none k s i ({ s with claimed_by := s.owner_epoch }.with_c i (some s.owner_epoch) .claimed) := by
  simp [Step, successors, hc, hcommitted, hfree, hk]

theorem step_begin (hc : s.c i = (some s.owner_epoch, .claimed)) (hcommitted : s.committed = false) :
    Step none k s i ({ s with effect_started := true }.with_c i (some s.owner_epoch) .effecting) := by
  simp [Step, successors, hc, hcommitted]

theorem step_effect (hc : s.c i = (some s.owner_epoch, .effecting)) : Step none .overlay s i
    ({ s with durable_effect := min 1 (s.durable_effect + 1), committed := true }.with_c i
      (some s.owner_epoch) .done) := by
  simp [Step, successors, hc]

end Steps

/-- Nothing is claimed, and nobody is at work. -/
def idle (e : Nat) : State Bool := ⟨e, 0, false, false, 0, false, fun _ => (none, .start)⟩

/-- Every epoch is reached: acquire, and die. -/
theorem reachable_idle (k : Checker.Distributed.Klass) (e : Nat) : Reachable none k (idle e) := by
  induction e with
  | zero => exact Lts.Reachable.start rfl
  | succ e ih =>
    have hacquired := ih.step (step_acquire (i := true) rfl)
    have hcrashed := hacquired.step (step_crash (i := true) nofun)
    have hidle : ({ idle e with owner_epoch := e + 1 }.with_c true (some (e + 1)) .acquired).with_c true none
        .start = idle (e + 1) := by
      simp only [State.with_c, Function.update_idem, idle]
      congr 1
      exact Function.update_eq_self true _
    exact hidle ▸ hcrashed

theorem covered_zero (klass : Dtx.Klass) (e : Nat) : Covered klass (e, 0, false) :=
  ⟨idle e, reachable_idle (modelKlass klass) e, rfl⟩

/-- The owner of the epoch carries the action through. -/
theorem covered_one (klass : Dtx.Klass) {e : Nat} (he : 1 ≤ e) : Covered klass (e, 1, true) := by
  obtain ⟨e, rfl⟩ := Nat.exists_eq_add_of_le' he
  have hacquired := (reachable_idle (modelKlass klass) e).step (step_acquire (i := true) rfl)
  cases klass with
  | transactional => exact ⟨_, hacquired.step (step_transact (i := true) rfl rfl), rfl⟩
  | overlay =>
    have hclaimed := hacquired.step (step_claim (i := true) rfl rfl rfl nofun)
    have hbegun := hclaimed.step (step_begin (i := true) rfl rfl)
    exact ⟨_, hbegun.step (step_effect (i := true) rfl), rfl⟩

/-- The model has no effect without the mark. -/
theorem not_covered (klass : Dtx.Klass) (e : Nat) : ¬ Covered klass (e, 1, false) := by
  rintro ⟨s, hs, ht⟩
  have hiff := (inv_of_reachable hs).committed_iff
  have heffect : s.durable_effect = 1 := congrArg (fun t => t.2.1) ht
  have hcommitted : s.committed = false := congrArg (fun t => t.2.2) ht
  rw [hcommitted] at hiff
  exact Bool.false_ne_true (hiff.mpr heffect)

end Model

/-! ## The implementation

The same three of an action of the implementation, read off tables and files. -/

/-- One action, and the store of its receipt. -/
structure Action where
  session : String
  turn : String
  commit_id : String
  ordinal : Ordinal
  args : Json
  klass : Dtx.Klass
  store : String

namespace Action

variable (a : Action)

def key : String × String := (a.session, a.turn)

def id : String := action_id a.session a.turn a.commit_id a.ordinal

def receipt : FsPath := DTX.receipt a.store a.id

/-- The durable effects: charges of the action, or files published for it. -/
def effects (p : Public ι) : Nat :=
  match a.klass with
  | .transactional => (p.db.chargesOf a.id).length
  | .overlay => if p.files.pathExists a.receipt then 1 else 0

/-- What is durable of the action. -/
def triple (p : Public ι) : Triple :=
  ((p.db.turn_owner a.key).getD 0, a.effects p, (p.db.actions a.id).isSome)

/-- The receipt is published and not recorded. -/
def Unrecorded (p : Public ι) : Prop :=
  a.klass = .overlay ∧ p.files.pathExists a.receipt = true ∧ p.db.actions a.id = none

end Action

/-- Acquire the turn, and run the action. -/
def coordinator [DecidableEq ι] [Driver] (self : DTX ι) (a : Action) (mid : Bool) : DtxProg ι Unit := do
  let epoch ← self.acquire a.session a.turn
  match a.klass with
  | .transactional => do
      let _ ← self.do_charge a.session a.turn a.commit_id a.ordinal a.args epoch mid
      pure ()
  | .overlay => do
      let _ ← self.do_overlay a.session a.turn a.commit_id a.ordinal a.args epoch a.store
      pure ()

/-! ## The contract

About one action and any number of coordinators: the epoch grows, and what is published or charged stays. -/

section Contract

/-- The turn has been acquired. -/
def Owned (a : Action) (p : Public ι) : Prop := (p.db.turn_owner a.key).isSome

def Published (a : Action) (p : Public ι) : Prop := (p.files.dir a.receipt).isSome

/-- What holds of the action at every moment. -/
structure Inv (a : Action) (p : Public ι) : Prop where
  epoch : ∀ e, p.db.turn_owner a.key = some e → 1 ≤ e
  charge : a.klass = .transactional →
    (p.db.chargesOf a.id).length = if (p.db.actions a.id).isSome then 1 else 0
  receipt : a.klass = .overlay → (p.db.actions a.id).isSome → Published a p
  owned : (p.db.actions a.id).isSome ∨ Published a p → Owned a p

/-- What a coordinator may do: no owner row and no receipt goes away. -/
structure May (a : Action) (_ : ι) (p p' : Public ι) : Prop where
  owned : Owned a p → Owned a p'
  published : Published a p → Published a p'

def contract (a : Action) : Contract ι where
  inv := Inv a
  may := May a
  may_refl _ _ := ⟨fun h => h, fun h => h⟩

variable {a : Action} {i : ι} {p : Public ι} {ep pid : Nat} {pg : Bool}

theorem owned_keeps : (contract a).Keeps i [] (Owned a) := fun _ _ _ _ _ _ hmay _ _ h => hmay.owned h

theorem published_keeps : (contract a).Keeps i [] fun p => Owned a p ∧ Published a p :=
  fun _ _ _ _ _ _ hmay _ _ h => ⟨hmay.owned h.1, hmay.published h.2⟩

/-- A call on files that leaves the receipt where it is, or puts it there. -/
theorem files_ok (fs : FileSys) (hp : Inv a p) (howned : Owned a p)
    (h : Published a p → (fs.dir a.receipt).isSome) :
    Inv a (p.withFiles fs) ∧ May a i p (p.withFiles fs) := by
  refine ⟨⟨hp.epoch, hp.charge, fun hk hrow => h (hp.receipt hk hrow), fun _ => howned⟩, fun h => h, h⟩

/-- The stages of the overlay. -/
def phases (a : Action) : Contract.Phases ι where
  before := Owned a
  writing _ _ := Owned a
  written := Owned a
  published p := Owned a p ∧ Published a p
  ready p := Owned a p ∧ Published a p
  after := Owned a

theorem overlayOk (hk : a.klass = .overlay) : Contract.OverlayOk (contract a) (⟨i, pg, pid⟩ : DTX ι) a.session
    a.turn a.commit_id a.ordinal a.args ep a.store (phases a) where
  before := owned_keeps
  writing _ _ := owned_keeps
  written := owned_keeps
  published := published_keeps
  ready := published_keeps
  after := owned_keeps
  exists_ p _ howned _ hexists := ⟨howned, hexists⟩
  open_ p text _ hp howned := by
    have hok : Inv a (p.withFiles (p.files.openTrunc (DTX.overlayTmp a.store a.id pid ep))) ∧
        May a i p (p.withFiles (p.files.openTrunc (DTX.overlayTmp a.store a.id pid ep))) := by
      refine files_ok _ hp howned fun h => ?_
      rw [Action.receipt, FileSys.openTrunc_dir_of_ne p.files (receipt_ne_overlayTmp a.store a.id a.id pid ep)]
      exact h
    exact ⟨hok.1, hok.2, howned⟩
  write p text n k b _ _ hp howned := by
    have hok := files_ok (i := i) (p.files.write n k [b]) hp howned id
    exact ⟨hok.1, hok.2, howned⟩
  fsync p text n _ hp howned := by
    have hok := files_ok (i := i) (p.files.fsync n) hp howned id
    exact ⟨hok.1, hok.2, howned⟩
  replace p fs hp howned hr := by
    obtain ⟨n, -, hdir, -⟩ := FileSys.replace_eq_some hr
    have hpublished : (fs.dir a.receipt).isSome := by
      rw [hdir, Action.receipt, Action.id, Function.update_self]
      rfl
    have hok := files_ok (i := i) fs hp howned fun _ => hpublished
    exact ⟨hok.1, hok.2, howned, hpublished⟩
  fsyncDir p hp hpub := by
    have hok := files_ok (i := i) (p.files.fsyncDir (a.store ++ "/committed")) hp hpub.1 id
    exact ⟨hok.1, hok.2, hpub⟩
  record p afp hp hready _ _ := by
    -- the receipt's row is inserted behind a file that is published
    refine ⟨⟨hp.epoch, fun hk' => ?_, fun _ _ => hready.2, fun _ => hready.1⟩, ⟨id, id⟩, hready.1⟩
    rw [hk] at hk'
    cases hk'
  recorded p _ hready _ := hready.1

theorem chargeOk [Driver] (hk : a.klass = .transactional) :
    Contract.ChargeOk (contract a) (⟨i, pg, pid⟩ : DTX ι) a.session a.turn a.commit_id a.ordinal a.args ep (Owned a)
      (fun _ => Owned a) where
  win p afp order amount hp howned _ _ _ _ _ hnone := by
    refine ⟨⟨hp.epoch, fun _ => ?_, fun hk' => ?_, fun _ => howned⟩, ⟨id, id⟩, howned⟩
    · -- without a row there was no charge
      have hzero : (p.db.chargesOf a.id).length = 0 := by
        rw [hp.charge hk, Action.id, hnone]
        rfl
      rw [Action.id, Contract.charged_action_self, Contract.charged_chargesOf_self, List.length_append]
      rw [Action.id] at hzero
      rw [hzero]
      rfl
    · rw [hk] at hk'
      cases hk'
  found _ _ _ _ _ howned _ _ _ _ _ := howned

variable [DecidableEq ι] [Driver]

omit [Driver] in
/-- `acquire`: the epoch is at least 1. -/
theorem acquired_ok (hp : Inv a p) (hep : (p.db.turn_owner a.key).elim 1 (· + 1) = ep) :
    Inv a (Contract.acquired i a.session a.turn ep p) ∧ May a i p (Contract.acquired i a.session a.turn ep p) ∧
      Owned a (Contract.acquired i a.session a.turn ep p) := by
  have howner : (Contract.acquired i a.session a.turn ep p).db.turn_owner a.key = some ep :=
    Contract.acquired_owner
  have howned : Owned a (Contract.acquired i a.session a.turn ep p) := by
    rw [Owned, howner]
    rfl
  refine ⟨⟨fun e he => ?_, hp.charge, hp.receipt, fun _ => howned⟩, ⟨fun _ => howned, id⟩, howned⟩
  rw [howner] at he
  cases he
  cases hrow : p.db.turn_owner a.key with
  | none =>
    rw [hrow] at hep
    exact Nat.le_of_eq hep
  | some e =>
    rw [hrow] at hep
    exact hep ▸ Nat.succ_le_succ (Nat.zero_le e)

/-- **Every coordinator keeps the contract.** -/
theorem coordinator_spec {mid : Bool} :
    ((contract a).rules pg).Triple i (Contract.Unstarted pg i) (coordinator ⟨i, pg, pid⟩ a mid)
      (fun _ _ => True) fun _ _ => True := by
  have hacquire : ((contract a).rules pg).Triple i (Contract.Unstarted pg i)
      (DTX.acquire ⟨i, pg, pid⟩ a.session a.turn) (fun _ => Contract.At pg i [] [] (Owned a)) fun _ _ => True :=
    Contract.acquire (c := ⟨i, pg, pid⟩) (Contract.keeps_held none) fun p ep hp _ hep => acquired_ok hp hep
  refine hacquire.bind fun ep => ?_
  cases hk : a.klass with
  | transactional =>
    refine RelyGuarantee.Triple.bind (Q := fun _ => Contract.At pg i [] [] (Owned a)) ?_ fun _ => fun _ _ _ => trivial
    exact (Contract.do_charge (c := ⟨i, pg, pid⟩) owned_keeps (fun _ => owned_keeps) (chargeOk hk)).conseq
      (fun _ _ h => h) (fun _ _ _ h => h) fun _ _ _ _ => trivial
  | overlay =>
    exact (Contract.do_overlay (c := ⟨i, pg, pid⟩) (overlayOk hk)).bind fun _ => fun _ _ _ => trivial

end Contract

/-! ## Coverage

By cases on the row and the effect. With a row there is an effect, in every class; without one there is none for a
charge, and there may be one for an overlay. -/

section Coverage

variable {a : Action} {p : Public ι}

theorem effects_of_published (hk : a.klass = .overlay) (h : Published a p) : a.effects p = 1 := by
  rw [Action.effects, hk]
  exact if_pos h

theorem effects_of_not_published (hk : a.klass = .overlay) (h : ¬ Published a p) : a.effects p = 0 := by
  rw [Action.effects, hk]
  exact if_neg h

theorem effects_of_charge (hp : Inv a p) (hk : a.klass = .transactional) :
    a.effects p = if (p.db.actions a.id).isSome then 1 else 0 := by
  rw [Action.effects, hk]
  exact hp.charge hk

/-- With its row there, the action has one effect, and its turn an owner. -/
theorem Inv.covered_row (hp : Inv a p) (hrow : (p.db.actions a.id).isSome = true) :
    Covered a.klass (a.triple p) := by
  obtain ⟨e, he⟩ := Option.isSome_iff_exists.mp (hp.owned (Or.inl hrow))
  have heffects : a.effects p = 1 := by
    cases hk : a.klass with
    | transactional => rw [effects_of_charge hp hk, hrow, if_pos rfl]
    | overlay => exact effects_of_published hk (hp.receipt hk hrow)
  rw [Action.triple, heffects, hrow, he]
  exact covered_one a.klass (hp.epoch e he)

theorem Inv.covered (hp : Inv a p) : Covered a.klass (a.triple p) ↔ ¬ a.Unrecorded p := by
  cases hrow : p.db.actions a.id with
  | some r =>
    have hsome : (p.db.actions a.id).isSome = true := by rw [hrow]; rfl
    refine ⟨fun _ hu => ?_, fun _ => hp.covered_row hsome⟩
    rw [hu.2.2] at hrow
    cases hrow
  | none =>
    -- without a row the triple is settled by the number of effects alone
    have htriple : ∀ n, a.effects p = n → a.triple p = ((p.db.turn_owner a.key).getD 0, n, false) := by
      intro n hn
      rw [Action.triple, hn, hrow]
      rfl
    cases hk : a.klass with
    | transactional =>
      -- a charge and its row commit together, so no row means no charge
      have hzero : a.effects p = 0 := by rw [effects_of_charge hp hk, hrow]; rfl
      rw [htriple 0 hzero]
      refine ⟨fun _ hu => ?_, fun _ => covered_zero _ _⟩
      rw [hu.1] at hk
      cases hk
    | overlay =>
      by_cases hpub : Published a p
      · rw [htriple 1 (effects_of_published hk hpub)]
        exact ⟨fun hc => absurd hc (not_covered _ _), fun hu => absurd ⟨hk, hpub, hrow⟩ hu⟩
      · rw [htriple 0 (effects_of_not_published hk hpub)]
        exact ⟨fun _ hu => hpub hu.2.1, fun _ => covered_zero _ _⟩

end Coverage

/-! ## Runs

Every reachable state has the invariant, which is all that `Inv.covered` asks for. -/

/-- Nothing has been done of the action, and nobody has acquired its turn. -/
structure Start (a : Action) (w : World ι) : Prop where
  quiescent : Quiescent w
  unowned : w.server.db.turn_owner a.key = none
  no_row : w.server.db.actions a.id = none
  no_charge : w.server.db.chargesOf a.id = []
  no_receipt : w.files.dir a.receipt = none

/-- The coordinators of a run. -/
structure Crew (ι : Type) where
  pid : ι → Nat
  mid : ι → Bool

section Runs

variable [DecidableEq ι] [Driver]

def Crew.system (crew : Crew ι) (pg : Bool) (a : Action) : System ι Empty Stmt (World ι) Exn Unit :=
  Dtx.system fun i => coordinator ⟨i, pg, crew.pid i⟩ a (crew.mid i)

omit [DecidableEq ι] [Driver] in
theorem inv_start {a : Action} {w : World ι} (h : Start a w) : Inv a w.pub where
  epoch e he := by
    rw [show w.pub.db.turn_owner a.key = none from h.unowned] at he
    cases he
  charge _ := by
    rw [show w.pub.db.chargesOf a.id = [] from h.no_charge, show w.pub.db.actions a.id = none from h.no_row]
    rfl
  receipt _ hrow := by
    rw [show w.pub.db.actions a.id = none from h.no_row] at hrow
    cases hrow
  owned hor := by
    rw [show w.pub.db.actions a.id = none from h.no_row, Published,
      show w.pub.files.dir a.receipt = none from h.no_receipt] at hor
    rcases hor with hor | hor
    · cases hor
    · cases hor

/-- **What the model covers.** In every reachable state of the implementation, the durable triple is one of
    the model's exactly when no receipt is published and not recorded. -/
theorem covered_iff (crew : Crew ι) (pg : Bool) (a : Action) (w₀ : World ι) (h₀ : Start a w₀)
    (c : Config ι Stmt (World ι) Exn Unit) (hc : (crew.system pg a).Reachable (· = w₀) c) :
    Covered a.klass (a.triple c.shared.pub) ↔ ¬ a.Unrecorded c.shared.pub := by
  have hverified : RelyGuarantee.Verified (crew.system pg a) ((contract a).rules pg) (Contract.Unstarted pg) :=
    Contract.verified fun _ => coordinator_spec
  have hinit := Contract.init_of_quiescent (C := contract a) pg h₀.quiescent (inv_start h₀)
  have hinv : Inv a c.shared.pub := (hverified.inv (fun _ _ _ => trivial) hinit hc).2
  exact hinv.covered

/-! ## Runs of one coordinator

An overlay, step by step, up to the point where the receipt is published and not yet recorded. -/

section Alone

variable (x : DTX ι) {a : Action} {db : Db} {fs : FileSys} {held : ι → Option Nat} {ep : Nat}
  {afp text : String}

/-- The overlay, alone, to its end: the receipt is published and recorded. -/
theorem run_overlay (hk : a.klass = .overlay) (ho : a.ordinal.taken = true)
    (hep : (db.turn_owner a.key).elim 1 (· + 1) = ep) (hafp : args_fingerprint a.args = some afp)
    (htext : canonical_args a.args = some text) (hfile : fs.dir a.receipt = none) (mid : Bool) :
    ∃ fs', (coordinator x a mid).run ⟨rest db, fs, held⟩ = some (.ok (),
        ⟨rest (DTX.recorded a.id (DTX.receiptRow a.session a.turn a.ordinal afp ep)
          ((Write.setOwner a.session a.turn ep).apply db)), fs', Function.update held x.conn (some ep)⟩) ∧
      (fs'.dir a.receipt).isSome := by
  subst hep
  obtain ⟨fs', n, hoverlay, hdir, -⟩ := DTX.run_do_overlay_new x
    ((Write.setOwner a.session a.turn ((db.turn_owner a.key).elim 1 (· + 1))).apply db)
    (Function.update held x.conn (some ((db.turn_owner a.key).elim 1 (· + 1))))
    ((db.turn_owner a.key).elim 1 (· + 1)) hafp htext ho hfile
  have hsome : (fs'.dir a.receipt).isSome := by
    rw [hdir, Action.receipt, Action.id, Function.update_self]
    rfl
  refine ⟨fs', ?_, hsome⟩
  rw [Action.key] at hoverlay
  simp [coordinator, hk, DTX.run_acquire, hoverlay, Action.key, Action.id]

/-- The overlay, alone, up to its rename. -/
theorem steps_overlay (hk : a.klass = .overlay) (hep : (db.turn_owner a.key).elim 1 (· + 1) = ep)
    (hafp : args_fingerprint a.args = some afp) (htext : canonical_args a.args = some text)
    (hfile : fs.dir a.receipt = none) (mid : Bool) :
    ∃ fs' q, (coordinator x a mid).Steps (fun _ _ => True) ⟨rest db, fs, held⟩ q
        ⟨rest ((Write.setOwner a.session a.turn ep).apply db), fs', Function.update held x.conn (some ep)⟩ ∧
      (fs'.dir a.receipt).isSome := by
  subst hep
  obtain ⟨fs', ⟨q, hsteps⟩, hrenamed, -⟩ := DTX.steps_do_overlay x
    ((Write.setOwner a.session a.turn ((db.turn_owner a.key).elim 1 (· + 1))).apply db)
    (Function.update held x.conn (some ((db.turn_owner a.key).elim 1 (· + 1))))
    ((db.turn_owner a.key).elim 1 (· + 1)) hafp htext hfile
  have hcoordinator : ∃ q, (coordinator x a mid).Steps (fun _ _ => True) ⟨rest db, fs, held⟩ q
      ⟨rest ((Write.setOwner a.session a.turn ((db.turn_owner a.key).elim 1 (· + 1))).apply db), fs',
        Function.update held x.conn (some ((db.turn_owner a.key).elim 1 (· + 1)))⟩ := by
    unfold coordinator
    rw [hk]
    exact ⟨_, (Prog.Steps.part x.run_acquire).trans (hsteps.bind _)⟩
  obtain ⟨q', hq⟩ := hcoordinator
  exact ⟨fs', q', hq, hrenamed⟩

end Alone

end Runs

/-! One action, and two coordinators. -/

section Receipt

local instance driver : Driver := .postgres

def receiptOf : Action := ⟨"s", "t", "c", .int 0, .obj [(.str "order", .str "O")], .overlay, "/x"⟩

def crew : Crew Bool := ⟨fun i => if i then 1 else 2, fun _ => false⟩

def fresh : World Bool := ⟨rest Db.empty, .empty, fun _ => none⟩

theorem start_fresh (a : Action) : Start a fresh := ⟨quiescent_rest _ _, rfl, rfl, rfl, rfl⟩

theorem receiptOf_fp : ∃ afp text, args_fingerprint receiptOf.args = some afp ∧
    canonical_args receiptOf.args = some text := by
  obtain ⟨afp, hafp⟩ : ∃ afp, args_fingerprint receiptOf.args = some afp := exists_args_fingerprint rfl
  obtain ⟨text, htext, -⟩ := Option.map_eq_some_iff.mp hafp
  exact ⟨afp, text, hafp, htext⟩

def acquired : Db := (Write.setOwner "s" "t" 1).apply Db.empty

def firstToken : Bool → Option Nat := Function.update (fun _ => none) true (some 1)

/-- The first coordinator, alone, gets to the end. -/
theorem covered_iff_receipt : ∃ c, (crew.system true receiptOf).Reachable (· = fresh) c ∧
    Published receiptOf c.shared.pub ∧ Covered .overlay (receiptOf.triple c.shared.pub) := by
  obtain ⟨afp, text, hafp, htext⟩ := receiptOf_fp
  let row := DTX.receiptRow "s" "t" (.int 0) afp 1
  obtain ⟨fs, hrun, hpub⟩ : ∃ fs, (coordinator ⟨true, true, 1⟩ receiptOf false).run fresh =
      some (.ok (), ⟨rest (DTX.recorded receiptOf.id row acquired), fs, firstToken⟩) ∧
      (fs.dir receiptOf.receipt).isSome :=
    run_overlay ⟨true, true, 1⟩ rfl (Ordinal.taken_int (by decide) (by decide)) rfl hafp htext
      (start_fresh receiptOf).no_receipt false
  have hstart : (crew.system true receiptOf).Reachable (· = fresh) ⟨fresh, fun _ => .fresh⟩ :=
    Lts.Reachable.start ⟨rfl, fun _ => rfl⟩
  have hdone := (hstart.spawn (i := true) rfl).run (Function.update_self ..) hrun
  refine ⟨_, hdone, hpub, (covered_iff crew true receiptOf fresh (start_fresh _) _ hdone).mpr fun hu => ?_⟩
  have hrow : (DTX.recorded receiptOf.id row acquired).actions receiptOf.id = some row := DTX.recorded_self row rfl
  cases hrow.symm.trans hu.2.2

/-- It dies after its rename: the receipt is there, the row is not. -/
theorem uncovered_receipt : Start receiptOf fresh ∧ ∃ c, (crew.system true receiptOf).Reachable (· = fresh) c ∧
    ¬ Covered receiptOf.klass (receiptOf.triple c.shared.pub) := by
  obtain ⟨afp, text, hafp, htext⟩ := receiptOf_fp
  obtain ⟨fs, q, hsteps, hpub⟩ : ∃ fs q, (coordinator ⟨true, true, 1⟩ receiptOf false).Steps (fun _ _ => True)
      fresh q ⟨rest acquired, fs, firstToken⟩ ∧ (fs.dir receiptOf.receipt).isSome :=
    steps_overlay ⟨true, true, 1⟩ rfl rfl hafp htext (start_fresh receiptOf).no_receipt false
  have hstart : (crew.system true receiptOf).Reachable (· = fresh) ⟨fresh, fun _ => .fresh⟩ :=
    Lts.Reachable.start ⟨rfl, fun _ => rfl⟩
  have hdead := ((hstart.spawn (i := true) rfl).steps (Function.update_self ..) hsteps).die
    (Function.update_self ..)
  refine ⟨start_fresh _, _, hdead, ?_⟩
  have hnone : acquired.actions receiptOf.id = none := rfl
  have heffects : receiptOf.effects (⟨acquired, fs, firstToken⟩ : Public Bool) = 1 :=
    effects_of_published rfl hpub
  have htriple : receiptOf.triple (⟨acquired, fs, firstToken⟩ : Public Bool) =
      ((acquired.turn_owner receiptOf.key).getD 0, 1, false) := by
    rw [Action.triple, heffects, hnone]
    rfl
  have hnot : ¬ Covered receiptOf.klass (receiptOf.triple (⟨acquired, fs, firstToken⟩ : Public Bool)) := by
    rw [htriple]
    exact not_covered _ _
  exact hnot

end Receipt

end AgentTx.Dtx.Coverage
