import AgentTx.Gateway.Calls
import AgentTx.Gateway.ExactlyOnce

/-!
# `Gateway.ContentCheck` — the content check on replay

The row of an action holds the fingerprint of the arguments it was recorded for, and a call with other
arguments raises `ContentMismatch`. The check is as good as the row is early: a transactional tool records it
with the effect, a compensatable or irreversible one before, and then the arguments of every effect executed
are those of the row. The other classes record it after the effect; there a call with other arguments is not
noticed while an effect is executed and its row is not there yet.

`logging` is a tool that writes its arguments down as its effect begins, so that an attempt that stops anywhere in the
effect has executed it. `Law` says what the row then says of the effects executed; every stage of a call keeps it, if
the call `Meets` no effect that has no row yet, and `content_check` reads both halves of the claim off it.
-/

namespace AgentTx.Gateway.ContentCheck

variable {R X : Type}

/-! ## The arguments that effects were executed with

A list of arguments beside the outside world, to which the tool adds its own as its effect begins. -/

/-- A program of a tool, beside a list of arguments. -/
def beside {α : Type} (p : Prog Unit X String α) : Prog Unit (X × List Json) String α :=
  p.zoom () Prod.fst (fun x s => (x, s.2)) id

/-- The tool, which also writes down the arguments of each effect it executes: in a row of its own in the
    database, or in a list beside the outside world, as the effect begins. -/
def logging (tool : Tool R X) : Tool (R ⊕ Json) (X × List Json) where
  name := tool.name
  klass := tool.klass
  db_effect key args rows := do
    let (v, new) ← tool.db_effect key args (rows.filterMap Sum.getLeft?)
    pure (v, new.map .inl ++ [.inr args])
  effect key args := do
    Prog.modify () fun s => (s.1, s.2 ++ [args])
    beside (tool.effect key args)
  compensate key args := beside (tool.compensate key args)

theorem run_beside {α : Type} (p : Prog Unit X String α) (s : X × List Json) :
    (beside p).run s = (p.run s.1).map fun r => (r.1, r.2, s.2) := by
  refine (Prog.run_zoom () Prod.fst (fun x s => (x, s.2)) id (fun _ _ => rfl) (fun _ _ _ => rfl) (fun _ => rfl)
    p s).trans ?_
  congr 1
  funext r
  obtain ⟨res, x⟩ := r
  cases res <;> rfl

/-- Writing them down does not change what the effect does. -/
theorem run_logging_effect (tool : Tool R X) (key : String) (args : Json) (s : X × List Json) :
    ((logging tool).effect key args).run s =
      ((tool.effect key args).run s.1).map fun r => (r.1, r.2, s.2 ++ [args]) := by
  unfold logging
  simp only [Prog.run_bind, Prog.run_modify, Option.bind_some, Prog.andThen_ok, run_beside]

/-- The arguments of the effects executed. -/
def executed (d : Db (R ⊕ Json)) (s : X × List Json) : List Json := d.app.filterMap Sum.getRight? ++ s.2

/-- What a transactional tool inserts has its arguments too. -/
theorem mem_executed_insert {tool : Tool R X} {key : String} {v args a : Json} {d : Db (R ⊕ Json)}
    {rows : List (R ⊕ Json)} {s : X × List Json}
    (h : (logging tool).db_effect key args d.app = .ok (v, rows)) :
    a ∈ executed { d with app := d.app ++ rows } s ↔ a ∈ executed d s ∨ a = args := by
  have hrows : rows.filterMap Sum.getRight? = [args] := by
    unfold logging at h
    dsimp only at h
    cases hres : tool.db_effect key args (d.app.filterMap Sum.getLeft?) with
    | error e =>
      rw [hres] at h
      cases h
    | ok r =>
      rw [hres] at h
      cases h
      have hinl : (r.2.map (Sum.inl : R → R ⊕ Json)).filterMap Sum.getRight? = [] := by simp
      rw [List.filterMap_append, hinl]
      rfl
  unfold executed
  rw [List.filterMap_append, hrows]
  simp only [List.mem_append, List.mem_singleton]
  tauto

/-! ## The law of the row

`Law` is about the row and the list together. For a class that records afterwards it says less: effects may have been
executed while there is no row. -/

/-- The classes that record the row after the effect. -/
def RecordsAfter (klass : ToolClass) : Prop := klass = .overlay ∨ klass = .idempotent ∨ klass = .pure

/-- What the row of the action says of the effects executed. -/
structure Law (klass : ToolClass) (row : Option KeyRow) (ran : List Json) : Prop where
  recorded : ∀ r, row = some r → r.args_fp.isSome ∧ ∀ a ∈ ran, args_fingerprint a = r.args_fp
  done : ∀ r, row = some r → r.status = .committed → ran ≠ []
  first : ¬ RecordsAfter klass → ran ≠ [] → row ≠ none

/-- The row and the effects executed are those of calls with such arguments. -/
structure Held (args : Json) (row : Option KeyRow) (ran : List Json) : Prop where
  row : ∀ r, row = some r → r.args_fp = args_fingerprint args
  ran : ∀ a ∈ ran, args_fingerprint a = args_fingerprint args

variable {klass : ToolClass} {row : Option KeyRow} {ran : List Json} {afp key : String} {args : Json}
  {d : Db (R ⊕ Json)} {s : X × List Json}

section Held

variable (hafp : args_fingerprint args = some afp)

include hafp

/-- A row that answers for the call. -/
theorem Law.held {r : KeyRow} (h : Law klass row ran) (hr : row = some r) (hmatch : Contract.Matches r afp) :
    Held args row ran := by
  obtain ⟨hsome, hran⟩ := h.recorded r hr
  have hfp : r.args_fp = args_fingerprint args := by rw [hafp, hmatch hsome]
  constructor
  · intro r' hr'
    rw [hr] at hr'
    cases hr'
    exact hfp
  · intro a ha
    rw [hran a ha, hfp]

/-- The row is written. -/
theorem Held.record (h : Held args (d.gw_keys key) ran) (status : KeyStatus) (klass' : ToolClass)
    (result : Option String) :
    Held args ((d.record key afp status klass' result).gw_keys key) ran := by
  refine ⟨?_, h.ran⟩
  intro r' hr'
  cases hr : d.gw_keys key with
  | none =>
    rw [Db.record_of_none hr] at hr'
    cases hr'
    exact hafp.symm
  | some r =>
    rw [Db.record_of_some hr] at hr'
    cases hr'
    exact h.row r hr

/-- What is held is lawful, when there is a row. -/
theorem Held.law {r : KeyRow} (h : Held args row ran) (hr : row = some r)
    (hdone : r.status = .committed → ran ≠ []) : Law klass row ran := by
  constructor
  · intro r' hr'
    have hfp := h.row r' hr'
    refine ⟨by rw [hfp, hafp]; rfl, ?_⟩
    intro a ha
    rw [h.ran a ha, hfp]
  · intro r' hr' hst
    rw [hr] at hr'
    cases hr'
    exact hdone hst
  · intro _ _
    rw [hr]
    nofun

/-- **The row is written for a call.** -/
theorem Held.law_record (h : Held args (d.gw_keys key) ran) (status : KeyStatus) (klass' : ToolClass)
    (result : Option String) (hdone : status = .committed → ran ≠ []) :
    Law klass ((d.record key afp status klass' result).gw_keys key) ran := by
  obtain ⟨r, hr, hst⟩ := Db.record_status d key afp status klass' result
  refine (h.record hafp status klass' result).law hafp hr ?_
  rw [hst]
  exact hdone

end Held

/-- **The effect is executed** with the arguments of the call. -/
theorem Held.execute (h : Held args row ran) : Held args row (ran ++ [args]) := by
  refine ⟨h.row, ?_⟩
  intro a ha
  rcases List.mem_append.mp ha with ha | ha
  · exact h.ran a ha
  · rw [List.mem_singleton.mp ha]

/-! ## A call

The same cases as for every contract (`Contract.CallOk`): the row that is found decides whether the arguments are
compared, and the comparison is what the law is used for. -/

section Contract

variable (R X) (klass : ToolClass) (key : String)

def contract : Contract (R ⊕ Json) (X × List Json) where
  inv d s := Law klass (d.gw_keys key) (executed d s)
  may _ _ _ _ := True
  may_refl _ _ := trivial

/-- A call with these arguments meets no effect whose row is still to be recorded and is another's. -/
def Meets (args : Json) (d : Db (R ⊕ Json)) (s : X × List Json) : Prop :=
  RecordsAfter klass → d.gw_keys key = none →
    ∀ afp, args_fingerprint args = some afp → ∀ a ∈ executed d s, args_fingerprint a = some afp

/-- What is known at each stage of a call. -/
def phases (args : Json) : Contract.Phases (R ⊕ Json) (X × List Json) where
  before d s := Meets R X klass key args d s
  ready d s := Held args (d.gw_keys key) (executed d s)
  prepared d s := Held args (d.gw_keys key) (executed d s)
  starting d s := Held args (d.gw_keys key) (executed d s) ∧ (¬ RecordsAfter klass → d.gw_keys key ≠ none)
  effected _ d s := Held args (d.gw_keys key) (executed d s) ∧ executed d s ≠ []
  undoing d s := Held args (d.gw_keys key) (executed d s)
  undone d s := Held args (d.gw_keys key) (executed d s)
  after _ _ _ := True

end Contract

variable {tool : Tool R X}

/-- While a program of the tool runs, nothing is written down. -/
theorem beside_spec {α : Type} {F : List Json → Prop} (p : Prog Unit X String α) :
    ((contract R X klass key).toolRules d).Triple () (fun s => F (executed d s)) (beside p)
      (fun _ s => F (executed d s)) fun _ _ => True := by
  let frame (s : X × List Json) : Prop := F (executed d s) ∧ Law klass (d.gw_keys key) (executed d s)
  have hzoom : ((contract R X klass key).toolRules d).Triple () (fun s => frame s ∧ True ∧ True) (beside p)
      (fun _ s => frame s ∧ True ∧ True) fun e s => ∃ e', e = id e' ∧ frame s ∧ True := by
    refine Serial.triple_zoom (Serial.triple_any p) (fun _ _ => rfl) ?_
    intro s x _ hframe _ _
    exact ⟨trivial, hframe.2, hframe⟩
  refine hzoom.conseq ?_ (fun _ _ _ h => h.1.1) fun _ _ _ _ => trivial
  intro s hs hF
  exact ⟨⟨hF, hs⟩, trivial, trivial⟩

/-- **The effect**: its arguments are written down, and it is executed. -/
theorem effect_spec :
    ((contract R X klass key).toolRules d).Triple () ((phases R X klass key args).starting d)
      ((logging tool).effect key args) (fun v => (phases R X klass key args).effected v d)
      fun _ _ => True := by
  refine RelyGuarantee.Triple.bind (Q := fun _ s => Held args (d.gw_keys key) (executed d s) ∧ executed d s ≠ []) ?_
    fun _ => beside_spec (F := fun ran => Held args (d.gw_keys key) ran ∧ ran ≠ []) _
  refine RelyGuarantee.Triple.modify (Serial.stable_alone _) ?_
  intro s hlaw hpre _
  obtain ⟨hheld, hrow⟩ := hpre
  have hran : executed d (s.1, s.2 ++ [args]) = executed d s ++ [args] := by
    unfold executed
    rw [List.append_assoc]
  have hheld' : Held args (d.gw_keys key) (executed d (s.1, s.2 ++ [args])) := by
    rw [hran]
    exact hheld.execute
  have hne : executed d (s.1, s.2 ++ [args]) ≠ [] := by
    rw [hran]
    simp
  refine ⟨trivial, ?_, hheld', hne⟩
  show Law klass (d.gw_keys key) (executed d (s.1, s.2 ++ [args]))
  constructor
  · intro r hr
    refine ⟨(hlaw.recorded r hr).1, ?_⟩
    intro a ha
    rw [hheld'.ran a ha, hheld'.row r hr]
  · intro r _ _
    exact hne
  · intro hafter _
    exact hrow hafter

/-- **The transaction**: the row is recorded with what is inserted. -/
theorem insert_spec {v : Json} {stored : Option String} {rows : List (R ⊕ Json)}
    (hafp : args_fingerprint args = some afp)
    (hheld : Held args (d.gw_keys key) (executed d s))
    (h : (logging tool).db_effect key args d.app = .ok (v, rows)) :
    Law klass (Db.gw_keys (Db.record { d with app := d.app ++ rows } key afp .committed .transactional stored) key)
      (executed { d with app := d.app ++ rows } s) := by
  have hheld' : Held args (({ d with app := d.app ++ rows } : Db (R ⊕ Json)).gw_keys key)
      (executed { d with app := d.app ++ rows } s) := by
    refine ⟨hheld.row, ?_⟩
    intro a ha
    rcases (mem_executed_insert h).mp ha with ha | rfl
    · exact hheld.ran a ha
    · rfl
  refine hheld'.law_record hafp .committed .transactional stored fun _ => ?_
  exact List.ne_nil_of_mem ((mem_executed_insert h).mpr (Or.inr rfl))

section Call

variable [Driver]

theorem callOk (hk : tool.klass = klass) (hafp : args_fingerprint args = some afp) :
    Contract.CallOk (contract R X klass key) (logging tool) key afp args (phases R X klass key args)
      fun _ _ => True := by
  subst hk
  -- once something is recorded under the key, there is a row
  have hrow : ∀ {d : Db (R ⊕ Json)} status klass' result,
      (d.record key afp status klass' result).gw_keys key ≠ none := by
    intro d status klass' result hnone
    obtain ⟨r, hr, -⟩ := Db.record_status d key afp status klass' result
    rw [hnone] at hr
    cases hr
  constructor
  case raises => exact fun _ _ _ => trivial
  case mismatch => exact fun _ _ _ _ _ _ => trivial
  case new =>
    intro d s hlaw hmeets hnone
    refine ⟨by rw [hnone]; nofun, ?_⟩
    intro a ha
    by_cases hafter : RecordsAfter tool.klass
    · rw [hafp]
      exact hmeets hafter hnone afp hafp a ha
    · -- the row of an executed effect is there already
      exact absurd hnone (hlaw.first hafter (List.ne_nil_of_mem ha))
  case found =>
    intro d s r hlaw _ _ hr hmatch
    have hheld := hlaw.held hafp hr hmatch
    exact Contract.Phases.found_of hheld (fun _ => trivial) hheld
  case compensate =>
    intro _
    exact Contract.outside_alone (fun d => beside_spec _) fun _ _ => trivial
  case undo =>
    intro _ d s _ hheld
    exact ⟨hheld.law_record hafp .compensated .compensatable none nofun, trivial, trivial⟩
  case db_effect =>
    intro _ d s v rows stored _ hheld hres _
    exact ⟨insert_spec hafp hheld hres, trivial, trivial⟩
  case prepare =>
    intro _ d s _ hheld
    exact ⟨hheld.law_record hafp .prepared .compensatable none nofun, trivial, hheld.record hafp ..⟩
  case begin =>
    intro _ d s _ hheld
    exact ⟨hheld.law_record hafp .effect_started .compensatable none nofun, trivial, hheld.record hafp ..,
      fun _ => hrow _ _ _⟩
  case intend =>
    intro _ d s _ hheld
    exact ⟨hheld.law_record hafp .prepared .irreversible none nofun, trivial, hheld.record hafp .., fun _ => hrow _ _ _⟩
  -- for the other classes the row comes after the effect, and the condition does not apply
  case direct =>
    intro hc hi ht d s _ hheld
    refine ⟨hheld, fun hafter => absurd ?_ hafter⟩
    unfold RecordsAfter
    cases hk : tool.klass with
    | transactional => exact absurd hk ht
    | compensatable => exact absurd hk hc
    | irreversible => exact absurd hk hi
    | _ => simp
  case effect =>
    intro _
    exact Contract.outside_alone (fun d => effect_spec) fun _ _ => trivial
  case finish =>
    intro _ v stored _ d s _ ⟨hheld, hran⟩
    exact ⟨hheld.law_record hafp .committed tool.klass stored fun _ => hran, trivial, trivial⟩

/-! ## Runs

A run of attempts with different arguments. The condition says of which attempts the effects are alone until their row
is there. -/

/-- Attempts at calls on one action id, each with arguments of its own and the tick at which its clock kills
    it. What an attempt leaves open is rolled back. -/
def replays (tool : Tool R X) (session turn : String) (ordinal : Int) (commit_id : String) :
    Serial (Json × Nat) Stmt (World R X) Exn Result where
  main k := call tool k.1 session turn ordinal commit_id
  start k w := { w with clock := ⟨0, k.2⟩ }
  close w := { w with working := w.committed }

/-- Nothing was recorded or executed for this action. -/
structure Unused (key : String) (w : World (R ⊕ Json) (X × List Json)) : Prop where
  idle : w.working = w.committed
  unrecorded : w.committed.gw_keys key = none
  unexecuted : executed w.committed w.ext = []

theorem triple_call (tool : Tool R X) (args : Json) (session turn cid : String) (ordinal : Int) :
    (contract R X tool.klass (action_id session turn cid ordinal)).rules.Triple ()
      (Contract.Settled (Meets R X tool.klass (action_id session turn cid ordinal) args))
      (call (logging tool) args session turn ordinal cid) (fun _ => Contract.Settled fun _ _ => True)
      fun _ _ => True := by
  let key := action_id session turn cid ordinal
  have hok : ∀ afp, args_fingerprint args = some afp →
      Contract.CallOk (contract R X tool.klass key) (logging tool) key afp args (phases R X tool.klass key args)
        fun _ _ => True := fun _ hafp => callOk rfl hafp
  exact Contract.call hok fun _ => trivial

/-- **The law holds all along**, when every call is made where it meets no effect of another's. -/
theorem stateOk {tool : Tool R X} {session turn cid : String} {ordinal : Int}
    {w₀ : World (R ⊕ Json) (X × List Json)} (h₀ : Unused (action_id session turn cid ordinal) w₀)
    {c : Serial.State Stmt (World (R ⊕ Json) (X × List Json)) Exn Result}
    (hc : (replays (logging tool) session turn ordinal cid).ReachableWhen (fun k w =>
      Meets R X tool.klass (action_id session turn cid ordinal) k.1 w.committed w.ext) (· = w₀) c) :
    Law tool.klass (c.shared.committed.gw_keys (action_id session turn cid ordinal))
        (executed c.shared.committed c.shared.ext) ∧
      (c.proc = none → c.shared.working = c.shared.committed) := by
  let rest : World (R ⊕ Json) (X × List Json) → Prop := Contract.Settled fun _ _ => True
  have hclose : ∀ w, (contract R X tool.klass (action_id session turn cid ordinal)).rules.Inv w →
      (contract R X tool.klass (action_id session turn cid ordinal)).rules.Inv { w with working := w.committed } ∧
        rest { w with working := w.committed } := fun w hw => ⟨hw, rfl, trivial⟩
  have hstate := Serial.ReachableWhen.stateOk (fun k => triple_call tool k.1 session turn cid ordinal)
    ?_ hclose (fun _ _ => trivial) ?_ hc
  · refine ⟨hstate.1, fun hp => ?_⟩
    have hrest := hstate.2
    rw [hp] at hrest
    exact hrest.idle
  · intro k w hw hrest hmeets
    exact ⟨hw, hrest.idle, hmeets⟩
  · rintro w rfl
    refine ⟨?_, h₀.idle, trivial⟩
    show Law tool.klass (w.committed.gw_keys _) (executed w.committed w.ext)
    rw [h₀.unrecorded, h₀.unexecuted]
    exact ⟨nofun, nofun, fun _ h => absurd rfl h⟩

/-- A call whose row is another's raises, and does nothing else. -/
theorem run_call_mismatch {tool : Tool R X} {session turn cid : String} {ordinal : Int} {d : Db R} {x : X}
    {clk : Clock} {r : KeyRow} (hafp : args_fingerprint args = some afp)
    (hr : d.gw_keys (action_id session turn cid ordinal) = some r) (hsome : r.args_fp.isSome)
    (hne : r.args_fp ≠ some afp) :
    (call tool args session turn ordinal cid).run (settled d x clk) =
      some (.error .ContentMismatch, settled d x clk) := by
  simp [call, hafp, hr, replay, hsome, hne]

/-- **The content check.** A call with other arguments than those of an effect that was executed raises
    `ContentMismatch`, and does nothing else, if and only if it does not meet an effect whose row is still to
    be recorded; and the fingerprint of a committed row is that of the arguments of the effects executed. -/
theorem content_check (tool : Tool R X) (session turn cid : String) (ordinal : Int)
    (w₀ : World (R ⊕ Json) (X × List Json)) (h₀ : Unused (action_id session turn cid ordinal) w₀)
    (c : Serial.State Stmt (World (R ⊕ Json) (X × List Json)) Exn Result)
    (hc : (replays (logging tool) session turn ordinal cid).ReachableWhen (fun k w =>
      Meets R X tool.klass (action_id session turn cid ordinal) k.1 w.committed w.ext) (· = w₀) c) :
    let key := action_id session turn cid ordinal
    (∀ args afp kill_at, c.proc = none → args_fingerprint args = some afp →
      (∃ a ∈ executed c.shared.committed c.shared.ext, args_fingerprint a ≠ some afp) →
      let w := { c.shared with clock := ⟨0, kill_at⟩ }
      ((call (logging tool) args session turn ordinal cid).run w = some (.error .ContentMismatch, w) ↔
        Meets R X tool.klass key args c.shared.committed c.shared.ext)) ∧
    ∀ row, c.shared.committed.gw_keys key = some row → row.status = .committed →
      executed c.shared.committed c.shared.ext ≠ [] ∧
      ∀ a ∈ executed c.shared.committed c.shared.ext, args_fingerprint a = row.args_fp := by
  intro key
  obtain ⟨hlaw, hidle⟩ := stateOk h₀ hc
  constructor
  · intro args afp kill_at hp hafp hother w
    obtain ⟨a, ha, hne⟩ := hother
    constructor
    · -- a mismatch is raised by the row that was found
      intro hrun hafter hnone
      obtain ⟨r, hr⟩ := Contract.mismatch_seen (w := w) (hidle hp) hrun
      rw [hnone] at hr
      cases hr
    · intro hmeets
      -- an effect with other arguments has run: without a row the condition fails
      have hrow : c.shared.committed.gw_keys key ≠ none := by
        intro hnone
        by_cases hafter : RecordsAfter tool.klass
        · exact hne (hmeets hafter hnone afp hafp a ha)
        · exact hlaw.first hafter (List.ne_nil_of_mem ha) hnone
      obtain ⟨r, hr⟩ := Option.ne_none_iff_exists'.mp hrow
      obtain ⟨hsome, hran⟩ := hlaw.recorded r hr
      have hmismatch : r.args_fp ≠ some afp := by
        rw [← hran a ha]
        exact hne
      have hw : w = settled c.shared.committed c.shared.ext ⟨0, kill_at⟩ := by
        show (⟨c.shared.committed, c.shared.working, c.shared.ext, ⟨0, kill_at⟩⟩ : World _ _) = _
        rw [hidle hp]
        rfl
      rw [hw]
      exact run_call_mismatch hafp hr hsome hmismatch
  · intro row hrow hst
    exact ⟨hlaw.done row hrow hst, (hlaw.recorded row hrow).2⟩

end Call

/-! A receipt, of which another order is asked afterwards. -/

local instance receiptDriver : Driver := .sqlite

abbrev receipt : Tool ChargeRow (Outside (List Request)) := ReceiptTool ExactlyOnce.strText "/x"

/-- Other arguments than `ExactlyOnce.order`. -/
def other : Json := .obj [(.str "order", .str "P")]

def unsent : World (ChargeRow ⊕ Json) (Outside (List Request) × List Json) :=
  settled ⟨fun _ => none, [], []⟩ (⟨.empty, []⟩, []) ⟨0, 0⟩

theorem fingerprints : ∃ afp afp', args_fingerprint ExactlyOnce.order = some afp ∧
    args_fingerprint other = some afp' ∧ afp ≠ afp' := by
  have h : (args_fingerprint ExactlyOnce.order).elim false (fun afp =>
      (args_fingerprint other).elim false fun afp' => decide (afp ≠ afp')) = true := by decide +kernel
  cases ho : args_fingerprint ExactlyOnce.order with
  | none =>
    rw [ho] at h
    cases h
  | some afp =>
    cases ho' : args_fingerprint other with
    | none =>
      rw [ho, ho'] at h
      cases h
    | some afp' =>
      rw [ho, ho'] at h
      exact ⟨afp, afp', rfl, rfl, of_decide_eq_true h⟩

theorem unused_unsent (key : String) : Unused key unsent := ⟨rfl, rfl, rfl⟩

/-- The receipt is published. -/
theorem run_receipt (key : String) : ∃ fs,
    ((logging receipt).effect key ExactlyOnce.order).run (⟨.empty, []⟩, []) =
      some (.ok (ReceiptTool.value "/x" key), ⟨fs, []⟩, [ExactlyOnce.order]) := by
  obtain ⟨fs, hrun⟩ := ExactlyOnce.run_receipt key
  refine ⟨fs, ?_⟩
  rw [run_logging_effect, hrun]
  rfl

theorem content_check_replayed :
    ∃ c, (replays (logging receipt) "s" "t" 0 "c").ReachableWhen (fun k w =>
        Meets _ _ receipt.klass (action_id "s" "t" "c" (.int 0)) k.1 w.committed w.ext) (· = unsent) c ∧ c.proc = none ∧
      let w := { c.shared with clock := ⟨0, 0⟩ }
      (call (logging receipt) other "s" "t" 0 "c").run w = some (.error .ContentMismatch, w) := by
  obtain ⟨afp, afp', hafp, hafp', hne⟩ := fingerprints
  obtain ⟨fs, hrun⟩ := run_receipt (action_id "s" "t" "c" (.int 0))
  have hcall : (call (logging receipt) ExactlyOnce.order "s" "t" 0 "c").run
      (settled unsent.committed (⟨.empty, []⟩, []) ⟨0, 0⟩) = some (.ok _, _) :=
    run_call_direct rfl (Or.inl rfl) hafp rfl hrun rfl
  have hstart : (replays (logging receipt) "s" "t" 0 "c").ReachableWhen (fun k w =>
      Meets _ _ receipt.klass (action_id "s" "t" "c" (.int 0)) k.1 w.committed w.ext) (· = unsent) ⟨unsent, none⟩ :=
    Lts.Reachable.start ⟨rfl, rfl⟩
  have hdone := hstart.attempt (k := (ExactlyOnce.order, 0)) (fun _ _ _ _ a ha => absurd ha (by exact List.not_mem_nil))
    hcall
  obtain ⟨hraise, -⟩ := content_check receipt "s" "t" "c" 0 unsent (unused_unsent _) _ hdone
  refine ⟨_, hdone, rfl, ?_⟩
  refine (hraise other afp' 0 rfl hafp' ⟨ExactlyOnce.order, List.mem_singleton_self _, ?_⟩).mpr ?_
  · rw [hafp]
    exact fun h => hne (Option.some.inj h)
  · intro _ hnone
    obtain ⟨r, hr, -⟩ := Db.record_status unsent.committed (action_id "s" "t" "c" (.int 0)) afp .committed receipt.klass
      (some ("/x/committed/" ++ action_id "s" "t" "c" (.int 0) ++ ".receipt"))
    exact absurd (hr.symm.trans hnone) nofun

/-- A receipt is published, and the attempt is killed before it is recorded: the next call, for another order,
    does not raise. -/
theorem not_content_check :
    ¬ ∀ (c : Serial.State Stmt (World (ChargeRow ⊕ Json) (Outside (List Request) × List Json)) Exn Result),
      (replays (logging receipt) "s" "t" 0 "c").ReachableWhen (fun _ _ => True) (· = unsent) c → c.proc = none →
      ∀ args afp kill_at, args_fingerprint args = some afp →
      (∃ a ∈ executed c.shared.committed c.shared.ext, args_fingerprint a ≠ some afp) →
      let w := { c.shared with clock := ⟨0, kill_at⟩ }
      (call (logging receipt) args "s" "t" 0 "c").run w = some (.error .ContentMismatch, w) := by
  intro h
  obtain ⟨afp, afp', hafp, hafp', hne⟩ := fingerprints
  obtain ⟨fs, hrun⟩ := run_receipt (action_id "s" "t" "c" (.int 0))
  have heffect : ((logging receipt).callEffect (action_id "s" "t" "c" (.int 0)) ExactlyOnce.order).run
      (settled unsent.committed (⟨.empty, []⟩, []) ⟨0, 1⟩) =
        some (.ok (ReceiptTool.value "/x" (action_id "s" "t" "c" (.int 0))),
          settled unsent.committed (⟨fs, []⟩, [ExactlyOnce.order]) ⟨0, 1⟩) := by
    simp [Tool.callEffect, run_outside hrun]
  have hkilled : (call (logging receipt) ExactlyOnce.order "s" "t" 0 "c").run
      (settled unsent.committed (⟨.empty, []⟩, []) ⟨0, 1⟩) =
        some (.error .Crash, settled unsent.committed (⟨fs, []⟩, [ExactlyOnce.order]) ⟨1, 1⟩) := by
    have hnone : unsent.committed.gw_keys (action_id "s" "t" "c" (.int 0)) = none := rfl
    have hklass : (logging receipt).klass = .overlay := rfl
    simp [call, hafp, hnone, perform, hklass, heffect, run_tick_crash]
  have hstart : (replays (logging receipt) "s" "t" 0 "c").ReachableWhen (fun _ _ => True) (· = unsent)
      ⟨unsent, none⟩ := Lts.Reachable.start ⟨rfl, rfl⟩
  have hdone := hstart.attempt (k := (ExactlyOnce.order, 1)) trivial hkilled
  have hraise := h _ hdone rfl other afp' 0 hafp' ⟨ExactlyOnce.order, List.mem_singleton_self _, ?_⟩
  · obtain ⟨r, hr⟩ := Contract.mismatch_seen rfl hraise
    cases hr
  · rw [hafp]
    exact fun heq => hne (Option.some.inj heq)

end AgentTx.Gateway.ContentCheck
