import AgentTx.Gateway.Protocol

/-!
# `Gateway.Contract` — one specification for each operation of the gateway

A `Contract` is an invariant of what is durable (the committed tables and the outside world), and what a
step of an attempt may do to it. `CallOk` says what a contract has to allow for `Gateway.call`, stage by
stage of the tool's class; `Contract.call` is the specification that follows.

A call looks the action's row up, and what it does next depends on the row's status and the tool's class:
`Phases.found` states these cases once, so a contract answers for all of them by one analysis of its own
invariant. A tool's result reaches the row through a column that may not take it: `CallOk` asks for the steps that
record it only for what the column holds then.
-/

namespace AgentTx.Gateway

variable {R X : Type}

/-- An invariant of what is durable, and what a step may do to it. -/
structure Contract (R X : Type) where
  inv : Db R → X → Prop
  may : Db R → X → Db R → X → Prop
  may_refl : ∀ d x, may d x d x
  ok : Stmt → Db R → Prop := fun _ _ => True

namespace Contract

variable (C : Contract R X)

def rules : RelyGuarantee Unit Stmt (World R X) :=
  Serial.alone (fun w => C.inv w.committed w.ext)
    (fun _ w w' => C.may w.committed w.ext w'.committed w'.ext) fun t w => C.ok t w.working

/-- No transaction is open, and `F` holds. -/
structure Settled (F : Db R → X → Prop) (w : World R X) : Prop where
  idle : w.working = w.committed
  fact : F w.committed w.ext

/-- The open transaction has made `u` of the tables. -/
structure Pending (u : Db R → Db R) (F : Db R → X → Prop) (w : World R X) : Prop where
  working : w.working = u w.committed
  fact : F w.committed w.ext

variable {C} {F : Db R → X → Prop} {E : Exn → World R X → Prop} {t : Stmt}

theorem stable (P : World R X → Prop) : C.rules.Stable () P := Serial.stable_alone P

/-! ## Statements

Between the statements of a transaction the committed tables stand still: nobody else writes, and what is pending is
known as a function of them (`Pending`). So the invariant is asked for at commits only. -/

/-- A `SELECT`. -/
theorem select {α : Type} {g : Db R → α} {G : α → Db R → X → Prop}
    (h : ∀ d x, C.inv d x → F d x → C.ok t d → G (g d) d x) :
    C.rules.Triple () (Settled F) (execute t fun d => (g d, d)) (fun a => Settled (G a)) E := by
  refine RelyGuarantee.Triple.step (stable _) fun w a w' hw hF hok hact => ?_
  cases hact
  refine ⟨C.may_refl _ _, hw, hF.idle, ?_⟩
  have hok' : C.ok t w.working := hok
  rw [hF.idle] at hok' ⊢
  exact h w.committed w.ext hw hF.fact hok'

/-- A statement that writes. -/
theorem write {u : Db R → Db R} : C.rules.Triple () (Settled F) (execute t fun d => ((), u d))
    (fun _ => Pending u fun d x => F d x ∧ C.ok t d) E := by
  refine RelyGuarantee.Triple.step (stable _) fun w a w' hw hF hok hact => ?_
  cases hact
  have hok' : C.ok t w.working := hok
  rw [hF.idle] at hok'
  refine ⟨C.may_refl _ _, hw, ?_, hF.fact, hok'⟩
  show u w.working = u w.committed
  rw [hF.idle]

theorem commit {u : Db R → Db R} {G : Db R → X → Prop}
    (h : ∀ d x, C.inv d x → F d x → C.inv (u d) x ∧ C.may d x (u d) x ∧ G (u d) x) :
    C.rules.Triple () (Pending u F) commit (fun _ => Settled G) E := by
  refine RelyGuarantee.Triple.modify (stable _) fun w hw hF _ => ?_
  obtain ⟨hinv, hmay, hG⟩ := h w.committed w.ext hw hF.fact
  rw [← hF.working] at hinv hmay hG
  exact ⟨hmay, hinv, rfl, hG⟩

/-- A statement that writes, and its commit. -/
theorem write_commit {u : Db R → Db R} {G : Db R → X → Prop}
    (h : ∀ d x, C.inv d x → F d x → C.ok t d → C.inv (u d) x ∧ C.may d x (u d) x ∧ G (u d) x) :
    C.rules.Triple () (Settled F) (do execute t fun d => ((), u d); Gateway.commit)
      (fun _ => Settled G) E :=
  write.bind fun _ => commit fun d x hinv hF => h d x hinv hF.1 hF.2

/-- `clock.tick()`, which may raise. -/
theorem tick (hE : ∀ w, E .Crash w) : C.rules.Triple () (Settled F) tick (fun _ => Settled F) E := by
  refine RelyGuarantee.Triple.bind (Q := fun _ => Settled F) ?_ fun killed => ?_
  · refine RelyGuarantee.Triple.step (stable _) fun w a w' hw hF _ hact => ?_
    cases hact
    exact ⟨C.may_refl _ _, hw, hF.idle, hF.fact⟩
  · cases killed with
    | true => exact fun w _ _ => hE w
    | false => exact fun _ _ hF => hF

/-- `with self.db.transaction()` around a body that writes. -/
theorem transaction {α : Type} {body : GwProg R X α} {P : World R X → Prop} {Qb : α → World R X → Prop}
    {G : α → Db R → X → Prop} {E' : Exn → World R X → Prop} (hb : C.rules.Triple () P body Qb E')
    (hc : ∀ a, C.rules.Triple () (Qb a) Gateway.commit (fun _ => Settled (G a)) E')
    (hE : ∀ e w, E' e w → E e { w with working := w.committed }) :
    C.rules.Triple () P (transaction body) (fun a => Settled (G a)) E := by
  refine RelyGuarantee.Triple.tryCatch (hb.bind fun a => (hc a).bind fun _ => fun _ _ hq => hq) fun e => ?_
  have hroll : C.rules.Triple () (E' e) rollback (fun _ => E e) E :=
    RelyGuarantee.Triple.modify (stable _) fun w hw he _ => ⟨C.may_refl _ _, hw, hE e w he⟩
  exact hroll.bind fun _ => fun _ _ he => he

/-! ## Tools

A tool's effect is a program of its own. If the invariant does not speak of the outside world nothing has to be known
of it (`outside`); otherwise its triple is used at the tables as they are when it starts (`outside_alone`). -/

/-- A tool's program, when the invariant and what is known say nothing of the outside world. -/
theorem outside {α : Type} {key : String} {F : Db R → Prop} {E : Exn → World R X → Prop}
    (hinv : ∀ d x x', C.inv d x → C.inv d x') (hmay : ∀ d x x', C.may d x d x')
    (hE : ∀ m w, E (.raised m) w) (p : Prog Unit X String α) :
    C.rules.Triple () (Settled fun d _ => F d) (outside key p) (fun _ => Settled fun d _ => F d) E := by
  induction p with
  | ret a => exact fun _ _ hF => hF
  | raise e => exact fun w _ _ => hE e w
  | op t act k ih =>
    intro w hw hF w₁ hi hok b w₂ hact
    obtain ⟨⟨b', x⟩, hx, he⟩ := Option.map_eq_some_iff.mp hact
    cases he
    have hw₁ : C.inv w₁.committed w₁.ext := hi.inv hw
    have hF₁ : Settled (fun d _ => F d) w₁ := (stable _).interfere hi hF
    have hinv' : C.inv w₁.committed x := hinv _ _ x hw₁
    exact ⟨hmay _ _ x, hinv', ih b' _ hinv' ⟨hF₁.idle, hF₁.fact⟩⟩

variable (C) in
/-- The rules for a tool's program, on the outside world: the tables stay as they are. -/
def toolRules (d : Db R) : RelyGuarantee Unit Unit X :=
  Serial.alone (C.inv d) (fun _ x x' => C.may d x d x') fun _ _ => True

/-- A tool's program, from its triple on the outside world. -/
theorem outside_alone {α : Type} {key : String} {p : Prog Unit X String α} {G : α → Db R → X → Prop}
    (h : ∀ d, (C.toolRules d).Triple () (F d) p (fun a => G a d) fun _ _ => True)
    (hE : ∀ m w, E (.raised m) w) :
    C.rules.Triple () (Settled F) (Gateway.outside key p) (fun a => Settled (G a)) E := by
  intro w hw hF
  have hidle := hF.idle
  have hsafe := h w.committed w.ext hw hF.fact
  clear hF h
  induction p generalizing w with
  | ret a => exact ⟨hidle, hsafe⟩
  | raise e => exact hE e w
  | op t act k ih =>
    intro w₁ hi _ b w₂ hact
    obtain rfl : w₁ = w := (stable fun w' => w' = w).interfere hi rfl
    obtain ⟨⟨b', x⟩, hx, he⟩ := Option.map_eq_some_iff.mp hact
    cases he
    obtain ⟨hmay, hinv, hrest⟩ := hsafe w₁.ext .refl trivial b' x hx
    exact ⟨hmay, hinv, ih b' _ hinv hidle hrest⟩

/-- A tool's effect, from what its program does. -/
theorem callEffect {tool : Tool R X} {key : String} {args : Json} {G : Json → Db R → X → Prop}
    (h : C.rules.Triple () (Settled F) (Gateway.outside key (tool.effect key args))
      (fun v => Settled (G v)) E) :
    C.rules.Triple () (Settled F) (tool.callEffect key args) (fun v => Settled (G v)) E :=
  (RelyGuarantee.Triple.read (stable _) (fun w => C.may_refl w.committed w.ext)
    fun _ _ hF _ => hF).bind fun _ => h

/-- A tool's compensation, from what its program does. -/
theorem callCompensate {tool : Tool R X} {key : String} {args : Json} {G : Db R → X → Prop}
    (h : C.rules.Triple () (Settled F) (Gateway.outside key (tool.compensate key args))
      (fun _ => Settled G) E) :
    C.rules.Triple () (Settled F) (tool.callCompensate key args) (fun _ => Settled G) E :=
  (RelyGuarantee.Triple.read (stable _) (fun w => C.may_refl w.committed w.ext)
    fun _ _ hF _ => hF).bind fun _ => h

/-! ## `Gateway.call`

The stages of a call are the same for every class, but each class goes through some of them only. `Phases` names what
is known at each, and `CallOk` has one field for each way from one to the next. -/

/-- What is known at each stage of a call. -/
structure Phases (R X : Type) where
  /-- when it starts -/
  before : Db R → X → Prop
  /-- when the key has no row, or one that does not answer -/
  ready : Db R → X → Prop
  /-- when the intent of a compensatable tool is recorded -/
  prepared : Db R → X → Prop
  /-- when the effect is about to run -/
  starting : Db R → X → Prop
  /-- when it has run, with its value -/
  effected : Json → Db R → X → Prop
  /-- when the compensation is about to run -/
  undoing : Db R → X → Prop
  /-- when it has run -/
  undone : Db R → X → Prop
  /-- when the call returns -/
  after : Result → Db R → X → Prop

/-- **What a row that answers for the call leads to**, by its status and the class of the tool. -/
def Phases.found (ph : Phases R X) (key : String) (klass : ToolClass) (r : KeyRow) (d : Db R) (x : X) : Prop :=
  match r.status, klass with
  | .committed, k => ph.after ⟨.dedup_hit, Driver.read r.result, key, k⟩ d x
  | .compensated, k => ph.after ⟨.compensated, .null, key, k⟩ d x
  | .prepared, .irreversible | .effect_started, .irreversible => ph.after ⟨.uncertain, .null, key, .irreversible⟩ d x
  -- the effect may or may not be in place: it is taken back
  | .effect_started, .compensatable => ph.undoing d x
  | .prepared, _ | .effect_started, _ => ph.ready d x

/-- A row leads on whatever it says, when what is known is enough in each case. -/
theorem Phases.found_of {ph : Phases R X} {key : String} {klass : ToolClass} {r : KeyRow} {d : Db R} {x : X}
    (hready : ph.ready d x) (hafter : ∀ res, ph.after res d x) (hundoing : ph.undoing d x) :
    ph.found key klass r d x := by
  unfold found
  split
  case h_5 => exact hundoing
  case h_6 | h_7 => exact hready
  all_goals exact hafter _

/-- A transition between stages that is committed. -/
def Moves (C : Contract R X) (u : Db R → Db R) (F G : Db R → X → Prop) : Prop :=
  ∀ d x, C.inv d x → F d x → C.inv (u d) x ∧ C.may d x (u d) x ∧ G (u d) x

/-- The row answers for the call: its fingerprint is the call's, or it has none. -/
def Matches (r : KeyRow) (afp : String) : Prop := r.args_fp.isSome → r.args_fp = some afp

variable [Driver]

/-- What the contract has to allow for a call, stage by stage. -/
structure CallOk (C : Contract R X) (tool : Tool R X) (key afp : String) (args : Json) (ph : Phases R X)
    (E : Exn → World R X → Prop) : Prop where
  raises : ∀ e w, e ≠ .ContentMismatch → E e w
  mismatch : ∀ w r, C.inv w.committed w.ext → Settled ph.before w → w.committed.gw_keys key = some r →
    ¬ Matches r afp → E .ContentMismatch w
  new : ∀ d x, C.inv d x → ph.before d x → d.gw_keys key = none → ph.ready d x
  found : ∀ d x r, C.inv d x → ph.before d x → C.ok (.seen key afp tool.klass) d → d.gw_keys key = some r →
    Matches r afp → ph.found key tool.klass r d x
  compensate : tool.klass = .compensatable → C.rules.Triple () (Settled ph.undoing)
    (Gateway.outside key (tool.compensate key args)) (fun _ => Settled ph.undone) E
  undo : tool.klass = .compensatable → C.Moves (·.record key afp .compensated .compensatable none) ph.undone
    (ph.after ⟨.compensated, .null, key, .compensatable⟩)
  db_effect : tool.klass = .transactional → ∀ d x v rows stored, C.inv d x → ph.ready d x →
    tool.db_effect key args d.app = .ok (v, rows) → Driver.text v = some stored →
    let d' := Db.record { d with app := d.app ++ rows } key afp .committed .transactional stored
    C.inv d' x ∧ C.may d x d' x ∧ ph.after ⟨.committed, v, key, .transactional⟩ d' x
  prepare : tool.klass = .compensatable →
    C.Moves (·.record key afp .prepared .compensatable none) ph.ready ph.prepared
  begin : tool.klass = .compensatable →
    C.Moves (·.record key afp .effect_started .compensatable none) ph.prepared ph.starting
  intend : tool.klass = .irreversible →
    C.Moves (·.record key afp .prepared .irreversible none) ph.ready ph.starting
  direct : tool.klass ≠ .compensatable → tool.klass ≠ .irreversible → tool.klass ≠ .transactional →
    ∀ d x, C.inv d x → ph.ready d x → ph.starting d x
  effect : tool.klass ≠ .transactional → C.rules.Triple () (Settled ph.starting)
    (Gateway.outside key (tool.effect key args)) (fun v => Settled (ph.effected v)) E
  finish : tool.klass ≠ .transactional → ∀ v stored, Driver.text v = some stored →
    C.Moves (·.record key afp .committed tool.klass stored) (ph.effected v)
      (ph.after ⟨.committed, v, key, tool.klass⟩)

variable {tool : Tool R X} {key afp : String} {args : Json} {ph : Phases R X}

/-- What the column holds of a result, if it takes it. -/
theorem stored {v : Json} {P : World R X → Prop} (hE : ∀ w, P w → E .DataError w) :
    C.rules.Triple () P (Prog.ofOption .DataError (Driver.text v))
      (fun stored w => Driver.text v = some stored ∧ P w) E :=
  .ofOption (fun _ hstored _ _ hP => ⟨hstored, hP⟩) fun _ w _ hP => hE w hP

/-- A result that the column takes is recorded. -/
theorem record {status : KeyStatus} {klass : ToolClass} {result : Json} {F G : Db R → X → Prop}
    (hE : ∀ w, E .DataError w)
    (h : ∀ stored, Driver.text result = some stored → C.Moves (·.record key afp status klass stored) F G) :
    C.rules.Triple () (Settled F) (record key afp status klass result) (fun _ => Settled G) E := by
  have hwrite : C.rules.Triple () (Settled F) (recordInTx key afp status klass result)
      (fun _ w => ∃ stored, Driver.text result = some stored ∧
        Pending (·.record key afp status klass stored) F w) E := by
    refine (stored fun w _ => hE w).bind fun stored w hw hF => ?_
    refine (write (t := .record key status) (u := (·.record key afp status klass stored))).conseq
      (fun _ _ hF => hF) (fun _ _ _ hpending => ?_) (fun _ _ _ he => he) w hw hF.2
    exact ⟨stored, hF.1, hpending.working, hpending.fact.1⟩
  refine hwrite.bind fun _ w hw hpending => ?_
  obtain ⟨stored, hstored, hpending⟩ := hpending
  exact commit (h stored hstored) w hw hpending

/-- So is the absence of one. -/
theorem record_null {status : KeyStatus} {klass : ToolClass} {F G : Db R → X → Prop}
    (hE : ∀ w, E .DataError w) (h : C.Moves (·.record key afp status klass none) F G) :
    C.rules.Triple () (Settled F) (Gateway.record key afp status klass .null) (fun _ => Settled G) E := by
  refine record hE fun stored hstored => ?_
  cases Driver.text_null.symm.trans hstored
  exact h

/-- The transaction of a transactional tool. -/
theorem perform_tx (hok : CallOk C tool key afp args ph E) (hk : tool.klass = .transactional) :
    C.rules.Triple () (Settled ph.ready)
      (Gateway.transaction do
        let res ← tool.callDbEffect key args
        recordInTx key afp .committed .transactional res
        pure res)
      (fun v => Settled (ph.after ⟨.committed, v, key, .transactional⟩)) E := by
  -- what `db_effect` inserts is pending, and then the record too
  let effected (v : Json) (w : World R X) : Prop := ∃ rows,
    tool.db_effect key args w.committed.app = .ok (v, rows) ∧
    w.working = { w.committed with app := w.committed.app ++ rows } ∧ ph.ready w.committed w.ext
  let recorded (v : Json) (w : World R X) : Prop := ∃ rows stored,
    tool.db_effect key args w.committed.app = .ok (v, rows) ∧ Driver.text v = some stored ∧
    w.working = Db.record { w.committed with app := w.committed.app ++ rows } key afp .committed
      .transactional stored ∧ ph.ready w.committed w.ext
  have hE : ∀ e (w : World R X), e ≠ .ContentMismatch → E e { w with working := w.committed } :=
    fun e w he => hok.raises e _ he
  have heffect : C.rules.Triple () (Settled ph.ready) (tool.callDbEffect key args) effected
      fun e _ => e ≠ .ContentMismatch := by
    refine RelyGuarantee.Triple.bind (Q := fun r w => match r with
      | .ok v => effected v w
      | .error e => e ≠ .ContentMismatch) ?_ fun r => ?_
    · refine RelyGuarantee.Triple.step (stable _) fun w r w' hw hF _ hact => ?_
      cases hact
      refine ⟨C.may_refl _ _, hw, ?_⟩
      dsimp only
      rw [hF.idle]
      cases hres : tool.db_effect key args w.committed.app with
      | error m => exact fun h => nomatch h
      | ok r => exact ⟨r.2, hres, rfl, hF.fact⟩
    · cases r with
      | ok v => exact fun _ _ h => h
      | error e => exact fun _ _ h => h
  have hbody : C.rules.Triple () (Settled ph.ready) (do
      let res ← tool.callDbEffect key args
      recordInTx key afp .committed .transactional res
      pure res) recorded fun e _ => e ≠ .ContentMismatch := by
    refine heffect.bind fun v => ?_
    refine RelyGuarantee.Triple.bind (Q := fun _ => recorded v) ?_ fun _ => fun _ _ h => h
    refine (stored (P := effected v) fun _ _ => nofun).bind fun stored => ?_
    refine RelyGuarantee.Triple.step (stable _) fun w a w' hw hF _ hact => ?_
    obtain ⟨hstored, rows, hres, hworking, hready⟩ := hF
    cases hact
    refine ⟨C.may_refl _ _, hw, rows, stored, hres, hstored, ?_, hready⟩
    show Db.record w.working _ _ _ _ _ = _
    rw [hworking]
  refine transaction hbody (fun v => ?_) hE
  refine RelyGuarantee.Triple.modify (stable _) fun w hw hF _ => ?_
  obtain ⟨rows, stored, hres, hstored, hworking, hready⟩ := hF
  obtain ⟨hinv, hmay, hafter⟩ := hok.db_effect hk w.committed w.ext v rows stored hw hready hres hstored
  rw [← hworking] at hinv hmay hafter
  exact ⟨hmay, hinv, rfl, hafter⟩

/-- **The mechanism of each class.** -/
theorem perform (hok : CallOk C tool key afp args ph E) :
    C.rules.Triple () (Settled ph.ready) (perform tool key afp args) (fun r => Settled (ph.after r)) E := by
  have htick : ∀ {F : Db R → X → Prop}, C.rules.Triple () (Settled F) Gateway.tick (fun _ => Settled F) E :=
    tick fun w => hok.raises .Crash w nofun
  have hrefused : ∀ w, E .DataError w := fun w => hok.raises .DataError w nofun
  -- the classes that record nothing before the effect
  have hdirect : tool.klass ≠ .compensatable → tool.klass ≠ .irreversible → tool.klass ≠ .transactional →
      C.rules.Triple () (Settled ph.ready) (do
        let res ← tool.callEffect key args
        Gateway.tick
        Gateway.record key afp .committed tool.klass res
        Gateway.tick
        pure ⟨.committed, res, key, tool.klass⟩) (fun r => Settled (ph.after r)) E := by
    intro hc hi ht
    have hstart : ∀ w, C.rules.Inv w → Settled ph.ready w → Settled ph.starting w :=
      fun w hw hF => ⟨hF.idle, hok.direct hc hi ht _ _ hw hF.fact⟩
    refine ((callEffect (hok.effect ht)).pre hstart).bind fun v => ?_
    refine htick.bind fun _ => (record hrefused (hok.finish ht v)).bind fun _ => ?_
    exact htick.bind fun _ => fun _ _ h => h
  unfold Gateway.perform
  split
  · rename_i hk
    refine htick.bind fun _ => (perform_tx hok hk).bind fun v => ?_
    exact htick.bind fun _ => fun _ _ h => h
  · rename_i hk
    have ht : tool.klass ≠ .transactional := by simp [hk]
    refine (record_null hrefused (hok.prepare hk)).bind fun _ => htick.bind fun _ => ?_
    refine (record_null hrefused (hok.begin hk)).bind fun _ => htick.bind fun _ => ?_
    refine (callEffect (hok.effect ht)).bind fun v => ?_
    have hfinish := hok.finish ht v
    rw [hk] at hfinish
    exact (record hrefused hfinish).bind fun _ => htick.bind fun _ => fun _ _ h => h
  · rename_i hk
    have ht : tool.klass ≠ .transactional := by simp [hk]
    refine (record_null hrefused (hok.intend hk)).bind fun _ => htick.bind fun _ => ?_
    refine (callEffect (hok.effect ht)).bind fun v => htick.bind fun _ => ?_
    have hfinish := hok.finish ht v
    rw [hk] at hfinish
    exact (record hrefused hfinish).bind fun _ => htick.bind fun _ => fun _ _ h => h
  · rename_i ht hc hi
    exact hdirect hc hi ht

/-- What a row of the key leads to. -/
theorem replay (hok : CallOk C tool key afp args ph E) (r : KeyRow) :
    C.rules.Triple () (Settled fun d x => ph.before d x ∧ C.ok (.seen key afp tool.klass) d ∧
        d.gw_keys key = some r)
      (replay tool key afp args r)
      (fun o => Settled fun d x => match o with
        | some res => ph.after res d x
        | none => ph.ready d x) E := by
  have hfound : Matches r afp → ∀ w, C.rules.Inv w → Settled (fun d x => ph.before d x ∧
      C.ok (.seen key afp tool.klass) d ∧ d.gw_keys key = some r) w →
      Settled (ph.found key tool.klass r) w := by
    rintro hmatch w hw ⟨hidle, hbefore, hseen, hr⟩
    exact ⟨hidle, hok.found _ _ r hw hbefore hseen hr hmatch⟩
  unfold Gateway.replay
  split_ifs with hm hcom hcomp hirr hamb
  · -- the content check
    rintro w hw ⟨hidle, hbefore, -, hr⟩
    exact hok.mismatch w r hw ⟨hidle, hbefore⟩ hr fun hmatch => hm.2 (hmatch hm.1)
  all_goals
    replace hfound := hfound fun hsome => by_contra fun hne => hm ⟨hsome, hne⟩
    unfold Phases.found at hfound
  · rw [hcom] at hfound
    exact hfound
  · rw [hcomp] at hfound
    exact hfound
  · -- an irreversible tool with an intent: nothing is run, and the answer is `uncertain`
    have hst : r.status = .prepared ∨ r.status = .effect_started := by
      cases hs : r.status <;> simp_all
    rw [hirr] at hfound ⊢
    rcases hst with hst | hst
    all_goals
      rw [hst] at hfound
      exact hfound
  · -- an intent of a compensatable tool: it is undone
    have hundoing : ∀ w, C.rules.Inv w → Settled (fun d x => ph.before d x ∧ C.ok (.seen key afp tool.klass) d ∧
        d.gw_keys key = some r) w → Settled ph.undoing w := by
      simpa only [hamb.1, hamb.2] using hfound
    have hundo := hok.undo hamb.1
    rw [← hamb.1] at hundo
    refine ((callCompensate (hok.compensate hamb.1)).pre hundoing).bind fun _ => ?_
    exact (record_null (fun w => hok.raises .DataError w nofun) hundo).bind fun _ => fun _ _ h => h
  · -- no other row answers: the mechanism runs
    have hready : ∀ w, C.rules.Inv w → Settled (fun d x => ph.before d x ∧ C.ok (.seen key afp tool.klass) d ∧
        d.gw_keys key = some r) w → Settled ph.ready w := by
      cases hs : r.status <;> cases hk : tool.klass <;> simp_all
    exact hready

/-- **`Gateway.call`.** -/
theorem call {session turn cid : String} {ordinal : Int}
    (hok : ∀ afp, args_fingerprint args = some afp →
      CallOk C tool (action_id session turn cid ordinal) afp args ph E)
    (hraise : ∀ w, E .TypeError w) :
    C.rules.Triple () (Settled ph.before) (call tool args session turn ordinal cid)
      (fun r => Settled (ph.after r)) E := by
  refine RelyGuarantee.Triple.bind (Q := fun afp w => args_fingerprint args = some afp ∧
    Settled ph.before w) ?_ fun afp => ?_
  · exact .ofOption (fun afp hafp w _ hF => ⟨hafp, hF⟩) fun _ w _ _ => hraise w
  intro w hw hpre
  obtain ⟨hafp, hF⟩ := hpre
  have hseen : C.rules.Triple () (Settled ph.before) (seen (action_id session turn cid ordinal) afp tool.klass)
      (fun o => Settled fun d x => ph.before d x ∧
        C.ok (.seen (action_id session turn cid ordinal) afp tool.klass) d ∧
        d.gw_keys (action_id session turn cid ordinal) = o) E :=
    select fun d x _ hbefore hok => ⟨hbefore, hok, rfl⟩
  refine RelyGuarantee.Triple.bind hseen (fun o => ?_) w hw hF
  cases o with
  | none =>
    refine (perform (hok afp hafp)).pre fun w hw hF => ?_
    exact ⟨hF.idle, (hok afp hafp).new _ _ hw hF.fact.1 hF.fact.2.2⟩
  | some r =>
    refine (replay (hok afp hafp) r).bind fun o => ?_
    cases o with
    | none => exact perform (hok afp hafp)
    | some res => exact fun _ _ h => h

/-- **What a call keeps of the tables**, whatever the tool does: what its records and the rows that the tool
    inserts keep. -/
theorem call_frame {F : Db R → Prop} {session turn cid : String} {ordinal : Int}
    (hrecord : ∀ afp status klass result,
      C.Moves (·.record (action_id session turn cid ordinal) afp status klass result) (fun d _ => F d) fun d _ => F d)
    (hinsert : ∀ afp rows stored,
      C.Moves (fun d => Db.record { d with app := d.app ++ rows } (action_id session turn cid ordinal) afp
        .committed .transactional stored) (fun d _ => F d) fun d _ => F d)
    (hinv : ∀ d x x', C.inv d x → C.inv d x') (hmay : ∀ d x x', C.may d x d x') (hE : ∀ e w, E e w) :
    C.rules.Triple () (Settled fun d _ => F d) (Gateway.call tool args session turn ordinal cid)
      (fun _ => Settled fun d _ => F d) E := by
  let known (d : Db R) (_ : X) : Prop := F d
  -- one fact holds in every phase
  let ph : Phases R X := ⟨known, known, known, known, fun _ => known, known, known, fun _ => known⟩
  have houtside : ∀ {α : Type} (key : String) (p : Prog Unit X String α),
      C.rules.Triple () (Settled known) (Gateway.outside key p) (fun _ => Settled known) E := by
    intro α key p
    exact outside hinv hmay (fun m w => hE _ w) p
  have hok : ∀ afp, CallOk C tool (action_id session turn cid ordinal) afp args ph E := by
    intro afp
    constructor
    case raises => exact fun e w _ => hE e w
    case mismatch => exact fun w r _ _ _ _ => hE _ w
    case new => exact fun d x _ hF _ => hF
    case found =>
      intro d x r _ hF _ _ _
      exact ph.found_of hF (fun _ => hF) hF
    case compensate => exact fun _ => houtside _ _
    case undo => exact fun _ => hrecord _ _ _ _
    case db_effect => exact fun _ d x v rows stored hd hF _ _ => hinsert afp rows stored d x hd hF
    case prepare => exact fun _ => hrecord _ _ _ _
    case begin => exact fun _ => hrecord _ _ _ _
    case intend => exact fun _ => hrecord _ _ _ _
    case direct => exact fun _ _ _ d x _ hF => hF
    case effect => exact fun _ => houtside _ _
    case finish => exact fun _ v stored _ => hrecord _ _ _ _
  exact call (fun afp _ => hok afp) fun w => hE _ w

/-- **A call does not touch the WAL**: what is known of the WAL alone stays known. -/
theorem call_wal {F : List WalRecord → Prop} {session turn cid : String} {ordinal : Int}
    (hinv : ∀ d d' x x', d'.wal = d.wal → C.inv d x → C.inv d' x')
    (hmay : ∀ d d' x x', d'.wal = d.wal → C.may d x d' x') (hE : ∀ e w, E e w) :
    C.rules.Triple () (Settled fun d _ => F d.wal) (Gateway.call tool args session turn ordinal cid)
      (fun _ => Settled fun d _ => F d.wal) E := by
  refine call_frame (F := fun d => F d.wal) ?_ ?_ (fun d x x' => hinv d d x x' rfl)
    (fun d x x' => hmay d d x x' rfl) hE
  · exact fun afp status klass result d x hd hF => ⟨hinv d _ x x rfl hd, hmay d _ x x rfl, hF⟩
  · exact fun afp rows v d x hd hF => ⟨hinv d _ x x rfl hd, hmay d _ x x rfl, hF⟩

/-! ## Answers

What a call answers is not always what its effect gave: a replay reads the value from a `TEXT` column. -/

/-- An answer to a call whose effect gave `v`: that value, or what the column gives back of it. -/
def Answers (res : Result) (v : Json) : Prop :=
  res.status = .committed ∧ res.value = v ∨
    res.status = .dedup_hit ∧ ∃ stored, Driver.text v = some stored ∧ res.value = Driver.read stored

/-- Such an answer is the value of the effect, unless it is read back from a column that does not keep it. -/
theorem Answers.value_iff {res : Result} {v : Json} (h : Answers res v) :
    (res.status = .committed ∨ res.status = .dedup_hit) ∧
      (res.value = v ↔ res.status = .dedup_hit → Driver.Keeps v) := by
  rcases h with ⟨hst, hv⟩ | ⟨hst, stored, hstored, hv⟩
  · refine ⟨Or.inl hst, fun _ hdedup => ?_, fun _ => hv⟩
    cases hst.symm.trans hdedup
  · refine ⟨Or.inr hst, fun hvalue _ stored' hstored' => ?_, fun hkeeps => ?_⟩
    · cases hstored.symm.trans hstored'
      exact hv.symm.trans hvalue
    · exact hv.trans (hkeeps hst stored hstored)

/-! ## The content check

No contract has to allow a mismatch: it is raised before anything is written. -/

variable (R X) in
/-- The contract that asks for nothing. -/
def unrestricted : Contract R X where
  inv _ _ := True
  may _ _ _ _ := True
  may_refl _ _ := trivial

/-- **A call raises `ContentMismatch` only for a key that has a row**, whatever the tool does. -/
theorem mismatch_seen {tool : Tool R X} {args : Json} {session turn cid : String} {ordinal : Int} {w w' : World R X}
    (hidle : w.working = w.committed)
    (hrun : (Gateway.call tool args session turn ordinal cid).run w = some (.error .ContentMismatch, w')) :
    ∃ r, w.committed.gw_keys (action_id session turn cid ordinal) = some r := by
  -- the postcondition for exceptions is what is to be shown; only the phase before the row is read needs an assertion
  let E (e : Exn) (_ : World R X) : Prop := e = .ContentMismatch →
    ∃ r, w.committed.gw_keys (action_id session turn cid ordinal) = some r
  let anything (_ : Db R) (_ : X) : Prop := True
  let ph : Phases R X := ⟨fun d _ => d = w.committed, anything, anything, anything, fun _ => anything, anything,
    anything, fun _ => anything⟩
  have houtside : ∀ {α : Type} (key : String) (p : Prog Unit X String α),
      (unrestricted R X).rules.Triple () (Settled anything) (Gateway.outside key p)
        (fun _ => Settled anything) E := by
    intro α key p
    refine outside (F := fun _ => True) (fun _ _ _ h => h) (fun _ _ _ => trivial) ?_ p
    intro m w hm
    cases hm
  have hmoves : ∀ u : Db R → Db R, (unrestricted R X).Moves u anything anything :=
    fun u d x _ _ => ⟨trivial, trivial, trivial⟩
  have hok : ∀ afp, CallOk (unrestricted R X) tool (action_id session turn cid ordinal) afp args ph E := by
    intro afp
    constructor
    case raises => exact fun e _ hne heq => absurd heq hne
    case mismatch =>
      rintro w₁ r - ⟨-, (hd : w₁.committed = w.committed)⟩ hr - -
      rw [hd] at hr
      exact ⟨r, hr⟩
    case new => exact fun _ _ _ _ _ => trivial
    case found => exact fun _ _ _ _ _ _ _ _ => ph.found_of trivial (fun _ => trivial) trivial
    case compensate => exact fun _ => houtside _ _
    case undo => exact fun _ => hmoves _
    case db_effect => exact fun _ _ _ _ _ _ _ _ _ _ => ⟨trivial, trivial, trivial⟩
    case prepare => exact fun _ => hmoves _
    case begin => exact fun _ => hmoves _
    case intend => exact fun _ => hmoves _
    case direct => exact fun _ _ _ _ _ _ _ => trivial
    case effect => exact fun _ => houtside _ _
    case finish => exact fun _ _ _ _ => hmoves _
  have hcall : (unrestricted R X).rules.Triple () (Settled ph.before)
      (Gateway.call tool args session turn ordinal cid) (fun r => Settled (ph.after r)) E := by
    refine call (fun afp _ => hok afp) ?_
    intro w h
    cases h
  exact (Serial.triple_run hcall trivial ⟨hidle, rfl⟩ hrun).2.2 _ rfl rfl

end Contract

end AgentTx.Gateway
