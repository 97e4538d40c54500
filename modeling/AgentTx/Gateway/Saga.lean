import AgentTx.Gateway.Alone
import AgentTx.Gateway.Calls

/-!
# `Gateway.Saga` — committed or compensated

A compensatable action is recorded as `prepared`, `effect_started` and `committed`. A call that finds
`effect_started` cannot tell whether the effect ran, so it compensates it; and what is committed or
compensated stays so.

`Story` says, status by status, how often the effect was invoked and whether it is in place, and `May` what a step may
do: a final status stays, and only an effect that was started is compensated. `effect_spec` and `compensate_spec` keep
both while the tool runs, and `committed_or_compensated` is the two over any number of attempts.
-/

namespace AgentTx.Gateway.Saga

variable {R X : Type}

/-- What is asked of a tool whose effect can be undone. `net` is how often the effect of the action is in
    place outside. It may be cut off anywhere; compensation takes back an effect that is in place, and
    does no harm when there is none. -/
structure Undoable (net : X → Nat) (tool : Tool R X) (key : String) (args : Json) : Prop where
  effect : (Serial.alone (fun x => net x ≤ 1) (fun _ _ _ => True) fun _ _ => True).Triple ()
    (fun x => net x = 0) (tool.effect key args) (fun _ x => net x = 1) fun _ _ => True
  compensate : (Serial.alone (fun x => net x ≤ 1) (fun _ _ _ => True) fun _ _ => True).Triple ()
    (fun _ => True) (tool.compensate key args) (fun _ x => net x = 0) fun _ _ => True

section Contract

variable (key : String) (net : X → Nat)

/-- What the row of the action says of the effect in place, and of the invocations of the effect. -/
def Story (s : X × List Event) : Option KeyRow → Prop
  | none => net s.1 = 0 ∧ s.2.count (.effect key) = 0
  | some row =>
      match row.status with
      | .prepared => net s.1 = 0 ∧ s.2.count (.effect key) = 0
      | .effect_started => net s.1 ≤ 1 ∧ s.2.count (.effect key) ≤ 1
      | .committed => net s.1 = 1 ∧ s.2.count (.effect key) = 1
      | .compensated => net s.1 = 0 ∧ s.2.count (.effect key) ≤ 1

/-- What a step may do: a status that is final stays, and the compensation is only invoked for an effect
    that was started. -/
structure May (d : Db R) (s : X × List Event) (d' : Db R) (s' : X × List Event) : Prop where
  final : ∀ row, d.gw_keys key = some row → row.status = .committed ∨ row.status = .compensated →
    ∃ row', d'.gw_keys key = some row' ∧ row'.status = row.status
  compensates : ∃ new, s'.2 = s.2 ++ new ∧
    (.compensate key ∈ new → ∃ row, d.gw_keys key = some row ∧ row.status = .effect_started)

def contract (R : Type) : Contract R (X × List Event) where
  inv d s := Story key net s (d.gw_keys key)
  may := May key
  may_refl _ _ := ⟨fun row hrow _ => ⟨row, hrow, rfl⟩, [], by simp, nofun⟩

/-- The action has this status. -/
def Is (status : KeyStatus) (d : Db R) : Prop := ∃ row, d.gw_keys key = some row ∧ row.status = status

/-- What is known at each stage of a call. -/
def phases (R : Type) : Contract.Phases R (X × List Event) where
  before _ _ := True
  ready d s := (d.gw_keys key = none ∨ Is key .prepared d) ∧ net s.1 = 0 ∧ s.2.count (.effect key) = 0
  prepared d s := Is key .prepared d ∧ net s.1 = 0 ∧ s.2.count (.effect key) = 0
  starting d s := Is key .effect_started d ∧ net s.1 = 0 ∧ s.2.count (.effect key) = 0
  effected _ d s := Is key .effect_started d ∧ net s.1 = 1 ∧ s.2.count (.effect key) = 1
  undoing d s := Is key .effect_started d ∧ net s.1 ≤ 1 ∧ s.2.count (.effect key) ≤ 1
  undone d s := Is key .effect_started d ∧ net s.1 = 0 ∧ s.2.count (.effect key) ≤ 1
  after res d _ := Is key .committed d ∧ (res.status = .committed ∨ res.status = .dedup_hit) ∨
    Is key .compensated d ∧ res.status = .compensated

end Contract

variable {key : String} {net : X → Nat} {d d' : Db R} {s s' : X × List Event} {tool : Tool R X} {args : Json}

/-- The effect is invoked at most once, whatever the row. -/
theorem Story.count_le {r : Option KeyRow} (h : Story key net s r) : s.2.count (.effect key) ≤ 1 := by
  cases r with
  | none => exact Nat.le_of_eq h.2 |>.trans (Nat.zero_le 1)
  | some row =>
    obtain ⟨args_fp, status, klass, result⟩ := row
    cases status with
    | prepared => exact Nat.le_of_eq h.2 |>.trans (Nat.zero_le 1)
    | effect_started => exact h.2
    | committed => exact Nat.le_of_eq h.2
    | compensated => exact h.2

/-- A row of this status tells the story of this status. -/
theorem Is.story {status : KeyStatus} (h : Is key status d) :
    Story key net s (d.gw_keys key) = Story key net s (some ⟨none, status, .compensatable, none⟩) := by
  obtain ⟨row, hrow, rfl⟩ := h
  rw [hrow]
  rfl

/-- The invariant, once the status is known. -/
theorem Is.inv_iff {status : KeyStatus} (h : Is key status d) : (contract key net R).inv d s ↔
    Story key net s (some ⟨none, status, .compensatable, none⟩) := by
  show Story key net s (d.gw_keys key) ↔ _
  rw [h.story]

theorem Is.unique {status status' : KeyStatus} (h : Is key status d) (h' : Is key status' d) :
    status = status' := by
  obtain ⟨row, hrow, rfl⟩ := h
  obtain ⟨row', hrow', rfl⟩ := h'
  rw [hrow] at hrow'
  cases hrow'
  rfl

theorem is_record (afp : String) (status : KeyStatus) (klass : ToolClass) (result : Option String) :
    Is key status (d.record key afp status klass result) := Db.record_status _ _ _ _ _ _

/-- A step of the tables, from a status that is not final. -/
theorem may_record (h : d.gw_keys key = none ∨ Is key .prepared d ∨ Is key .effect_started d) :
    May key d s d' s := by
  refine ⟨fun row hrow hfinal => ?_, [], by simp, nofun⟩
  rcases h with h | h | h
  · rw [h] at hrow
    cases hrow
  · obtain ⟨row', hrow', hst⟩ := h
    rw [hrow] at hrow'
    cases hrow'
    rw [hst] at hfinal
    rcases hfinal with hf | hf <;> cases hf
  · obtain ⟨row', hrow', hst⟩ := h
    rw [hrow] at hrow'
    cases hrow'
    rw [hst] at hfinal
    rcases hfinal with hf | hf <;> cases hf

/-- A step of the tool or of the notes, while the effect is started. -/
theorem may_notes (h : Is key .effect_started d) {x x' : X} {l new : List Event} :
    May key d (x, l) d (x', l ++ new) :=
  ⟨fun row hrow _ => ⟨row, hrow, rfl⟩, new, rfl, fun _ => h⟩

theorem may_tool {x x' : X} {l : List Event} : May key d (x, l) d (x', l) :=
  ⟨fun row hrow _ => ⟨row, hrow, rfl⟩, [], by simp, nofun⟩

/-! ## The tool

The effect and its compensation are programs of the tool, and may be stopped or may raise. `net` counts how often the
effect is in place outside; after the compensation it is not, whether it was before or not (`Undoable`). -/

/-- **The effect**, invoked for the first time. -/
theorem effect_spec (htool : Undoable net tool key args) (hd : Is key .effect_started d) :
    ((contract key net R).toolRules d).Triple ()
      (fun s => s.2.count (.effect key) = 0 ∧ net s.1 ≤ 1 ∧ net s.1 = 0) (tool.spy.effect key args)
      (fun v s => (∃ l, l.count (.effect key) = 0 ∧ s.2 = l ++ [.effect key] ++ [.effected key v]) ∧
        net s.1 ≤ 1 ∧ net s.1 = 1) fun _ _ => True := by
  have hinv : ∀ {x : X} {l : List Event}, net x ≤ 1 → l.count (.effect key) ≤ 1 →
      (contract key net R).inv d (x, l) := fun hnet hl => hd.inv_iff.mpr ⟨hnet, hl⟩
  refine Contract.spied (A := fun l => l.count (.effect key) = 0) htool.effect ?_ ?_ ?_
  · intro x l hl hnet _
    exact ⟨may_notes hd, hinv hnet (by simp [hl])⟩
  · intro x x' l hl _ hnet
    exact ⟨may_tool, hinv hnet (by simp [hl])⟩
  · intro v x l hl hnet _
    exact ⟨may_notes hd, hinv hnet (by simp [hl])⟩

/-- **The compensation**, of an effect that was started. -/
theorem compensate_spec (htool : Undoable net tool key args) (hd : Is key .effect_started d) :
    ((contract key net R).toolRules d).Triple ()
      (fun s => s.2.count (.effect key) ≤ 1 ∧ net s.1 ≤ 1 ∧ True) (tool.spy.compensate key args)
      (fun _ s => (∃ l, l.count (.effect key) ≤ 1 ∧ s.2 = l ++ [.compensate key] ++ [.compensated key]) ∧
        net s.1 ≤ 1 ∧ net s.1 = 0) fun _ _ => True := by
  have hinv : ∀ {x : X} {l : List Event}, net x ≤ 1 → l.count (.effect key) ≤ 1 →
      (contract key net R).inv d (x, l) := fun hnet hl => hd.inv_iff.mpr ⟨hnet, hl⟩
  refine Contract.spied (A := fun l => l.count (.effect key) ≤ 1) htool.compensate ?_ ?_ ?_
  · intro x l hl hnet _
    exact ⟨may_notes hd, hinv hnet (by simp [hl])⟩
  · intro x x' l hl _ hnet
    exact ⟨may_tool, hinv hnet (by simp [hl])⟩
  · intro v x l hl hnet _
    exact ⟨may_notes hd, hinv hnet (by simp [hl])⟩

/-! ## A call

A row that is `effect_started` is compensated whether the effect ran or not, so the story does not have to tell. -/

section Call

variable [Driver]

theorem callOk (hk : tool.klass = .compensatable) (htool : Undoable net tool key args) (afp : String) :
    Contract.CallOk (contract key net R) tool.spy key afp args (phases key net R) fun _ _ => True := by
  have hk' : tool.spy.klass = .compensatable := hk
  constructor
  case raises => exact fun _ _ _ => trivial
  case mismatch => exact fun _ _ _ _ _ _ => trivial
  -- no row: nothing has happened
  case new =>
    rintro d s (hinv : Story key net s (d.gw_keys key)) - hnone
    rw [hnone] at hinv
    exact ⟨Or.inl hnone, hinv⟩
  case found =>
    intro d s row hinv _ _ hrow _
    -- the status of the row decides what the story is
    have his : ∀ {status}, row.status = status → Is key status d := fun hst => ⟨row, hrow, hst⟩
    cases hst : row.status with
    | committed =>
      simp only [Contract.Phases.found, hst]
      exact Or.inl ⟨his hst, Or.inr rfl⟩
    | compensated =>
      simp only [Contract.Phases.found, hst]
      exact Or.inr ⟨his hst, rfl⟩
    | effect_started =>
      simp only [Contract.Phases.found, hst, hk']
      exact ⟨his hst, (his hst).inv_iff.mp hinv⟩
    | prepared =>
      simp only [Contract.Phases.found, hst, hk']
      exact ⟨Or.inr (his hst), (his hst).inv_iff.mp hinv⟩
  case compensate =>
    intro _
    refine Contract.outside_alone (fun d s hs hundoing => ?_) fun _ _ => trivial
    obtain ⟨his, hnet, hcount⟩ := hundoing
    refine ((compensate_spec htool his).conseq (fun _ _ h => h) ?_ fun _ _ _ h => h) s hs ⟨hcount, hnet, trivial⟩
    rintro _ s - ⟨⟨l, hl, hnotes⟩, -, hnet⟩
    refine ⟨his, hnet, ?_⟩
    rw [hnotes]
    simp [hl]
  case undo =>
    rintro - d s - ⟨his, hnet, hcount⟩
    have hundone : Is key .compensated (d.record key afp .compensated .compensatable none) := is_record ..
    exact ⟨hundone.inv_iff.mpr ⟨hnet, hcount⟩, may_record (Or.inr (Or.inr his)), Or.inr ⟨hundone, rfl⟩⟩
  case db_effect => exact fun hc => by simp [hk'] at hc
  case prepare =>
    rintro - d s - ⟨hearly, hnet, hcount⟩
    have hprepared : Is key .prepared (d.record key afp .prepared .compensatable none) := is_record ..
    exact ⟨hprepared.inv_iff.mpr ⟨hnet, hcount⟩, may_record (hearly.imp_right Or.inl), hprepared, hnet, hcount⟩
  case begin =>
    rintro - d s - ⟨hprepared, hnet, hcount⟩
    have hstarted : Is key .effect_started (d.record key afp .effect_started .compensatable none) := is_record ..
    refine ⟨hstarted.inv_iff.mpr ?_, may_record (Or.inr (Or.inl hprepared)), hstarted, hnet, hcount⟩
    exact ⟨Nat.le_of_eq hnet |>.trans (Nat.zero_le 1), Nat.le_of_eq hcount |>.trans (Nat.zero_le 1)⟩
  case intend => exact fun hi => by simp [hk'] at hi
  case direct => exact fun hc => absurd hk' hc
  case effect =>
    intro _
    refine Contract.outside_alone (fun d s hs hstarting => ?_) fun _ _ => trivial
    obtain ⟨his, hnet, hcount⟩ := hstarting
    -- the effect runs at most once, from a net effect of zero
    have hpre : s.2.count (.effect key) = 0 ∧ net s.1 ≤ 1 ∧ net s.1 = 0 :=
      ⟨hcount, Nat.le_of_eq hnet |>.trans (Nat.zero_le 1), hnet⟩
    refine ((effect_spec htool his).conseq (fun _ _ h => h) ?_ fun _ _ _ h => h) s hs hpre
    rintro v s - ⟨⟨l, hl, hnotes⟩, -, hnet⟩
    refine ⟨his, hnet, ?_⟩
    rw [hnotes]
    simp [hl]
  case finish =>
    rintro - v stored - d s - ⟨his, hnet, hcount⟩
    have hcommitted : Is key .committed (d.record key afp .committed tool.spy.klass stored) := is_record ..
    exact ⟨hcommitted.inv_iff.mpr ⟨hnet, hcount⟩, may_record (Or.inr (Or.inr his)), Or.inl ⟨hcommitted, Or.inl rfl⟩⟩

/-! ## Runs

Raising is one more way for an attempt to end: the row stays where it was, and the next call compensates. -/

/-- Nothing was recorded, invoked or put in place for this action. -/
structure Unused (key : String) (net : X → Nat) (w : World R (X × List Event)) : Prop where
  idle : w.working = w.committed
  unrecorded : w.committed.gw_keys key = none
  silent : w.ext.2 = []
  absent : net w.ext.1 = 0

omit [Driver] in
theorem Unused.inv {w : World R (X × List Event)} (h : Unused key net w) :
    (contract key net R).inv w.committed w.ext := by
  show Story key net w.ext (w.committed.gw_keys key)
  rw [h.unrecorded]
  refine ⟨h.absent, ?_⟩
  rw [h.silent]
  rfl

/-- **A compensatable action is committed or compensated.** Its effect is invoked at most once; it is in
    place once when the action is committed, and not at all when it is compensated; a call that returns
    leaves it one or the other; both are final; and the compensation is only invoked after the effect was
    durably started, and before it was committed. -/
theorem committed_or_compensated (tool : Tool R X) (hk : tool.klass = .compensatable) (args : Json)
    (session turn cid : String) (ordinal : Int) (net : X → Nat)
    (htool : Undoable net tool (action_id session turn cid ordinal) args) (w₀ : World R (X × List Event))
    (h₀ : Unused (action_id session turn cid ordinal) net w₀)
    (c : Serial.State Stmt (World R (X × List Event)) Exn Result)
    (hc : (calls tool.spy args session turn ordinal cid).Reachable (fun _ _ => True) (· = w₀) c) :
    let key := action_id session turn cid ordinal
    c.shared.ext.2.count (.effect key) ≤ 1 ∧
    (Is key .committed c.shared.committed → net c.shared.ext.1 = 1) ∧
    (Is key .compensated c.shared.committed → net c.shared.ext.1 = 0) ∧
    (∀ res, c.proc = some (.ret res) →
      Is key .committed c.shared.committed ∧ (res.status = .committed ∨ res.status = .dedup_hit) ∨
      Is key .compensated c.shared.committed ∧ res.status = .compensated) ∧
    ∀ l c', (calls tool.spy args session turn ordinal cid).step c l = some c' →
      May key c.shared.committed c.shared.ext c'.shared.committed c'.shared.ext := by
  intro key
  have hcall : (contract key net R).rules.Triple () (Contract.Settled (phases key net R).before)
      (call tool.spy args session turn ordinal cid)
      (fun res => Contract.Settled ((phases key net R).after res)) fun _ _ => True :=
    Contract.call (fun afp _ => callOk hk htool afp) fun _ => trivial
  have hverified := Contract.verified_calls (fun _ _ _ => trivial) hcall
  have hinit : ∀ w, w = w₀ → (contract key net R).rules.Inv w ∧
      Contract.Settled (phases key net R).before w := by
    rintro w rfl
    exact ⟨h₀.inv, h₀.idle, trivial⟩
  have hstate := hverified.stateOk hinit hc
  -- what has happened outside is what the row says
  have hstory : Story key net c.shared.ext (c.shared.committed.gw_keys key) := hstate.1
  refine ⟨hstory.count_le, ?_, ?_, ?_, ?_⟩
  · intro his
    exact (his.inv_iff.mp hstory).1
  · intro his
    exact (his.inv_iff.mp hstory).1
  · exact fun res hret => (hverified.post hinit hc hret).fact
  · intro l c' hstep
    have hguar := (hverified.step hstate (l := l) (by cases l <;> exact trivial) hstep).2
    exact Serial.step_within (fun w w' => (contract key net R).may w.committed w.ext w'.committed w'.ext)
      (fun _ _ => (contract key net R).may_refl _ _) hguar (fun _ => (contract key net R).may_refl _ _) hstep

end Call

/-! A booking whose first attempt is killed right after `effect_started` is recorded. -/

local instance bookingDriver : Driver := .sqlite

def booking : Tool Unit Nat where
  name := "book"
  klass := .compensatable
  effect _ _ := do
    Prog.modify () fun n => n + 1
    pure (.str "booked")
  compensate _ _ := Prog.modify () fun n => n - 1

theorem undoable_booking (key : String) (args : Json) : Undoable id booking key args := by
  constructor
  · refine RelyGuarantee.Triple.bind (Q := fun _ n => n = 1) ?_ fun _ => fun _ _ h => h
    refine RelyGuarantee.Triple.modify (Serial.stable_alone _) ?_
    rintro n - rfl -
    exact ⟨trivial, Nat.le_refl 1, rfl⟩
  · refine RelyGuarantee.Triple.modify (Serial.stable_alone _) ?_
    intro n (hn : n ≤ 1) _ _
    have hzero : n - 1 = 0 := by omega
    exact ⟨trivial, by show n - 1 ≤ 1; omega, hzero⟩

def unbooked : World Unit (Nat × List Event) := settled ⟨fun _ => none, [], []⟩ (0, []) ⟨0, 0⟩

theorem committed_or_compensated_killed :
    ∃ c res, (calls booking.spy (.obj []) "s" "t" 0 "c").Reachable (fun _ _ => True) (· = unbooked) c ∧
      c.proc = some (.ret res) ∧ res.status = .compensated ∧
      Is (action_id "s" "t" "c" (.int 0)) .compensated c.shared.committed ∧ c.shared.ext.1 = 0 := by
  obtain ⟨afp, hafp⟩ : ∃ afp, args_fingerprint (.obj []) = some afp := exists_args_fingerprint rfl
  let key := action_id "s" "t" "c" (.int 0)
  let d : Db Unit := ⟨fun _ => none, [], []⟩
  let d₁ : Db Unit :=
    (d.record key afp .prepared .compensatable none).record key afp .effect_started .compensatable none
  have htick : (tick : GwProg Unit (Nat × List Event) Unit).run
      (settled (d.record key afp .prepared .compensatable none) (0, []) ⟨0, 2⟩) =
      some (.ok (), settled (d.record key afp .prepared .compensatable none) (0, []) ⟨1, 2⟩) :=
    run_tick (Or.inr (by decide))
  -- the first attempt is killed before the effect, with its intent recorded
  have hkilled : (call booking.spy (.obj []) "s" "t" 0 "c").run (settled d (0, []) ⟨0, 2⟩) =
      some (.error .Crash, settled d₁ (0, []) ⟨2, 2⟩) := by
    simp [call, hafp, perform, booking, Tool.spy, htick, run_tick_crash, d, d₁, key]
  have hrow : d₁.gw_keys key = some ⟨some afp, .effect_started, .compensatable, none⟩ :=
    Db.record_of_some (Db.record_of_none rfl _ _ _ _) _ _ _ _
  have hundo : (booking.spy.compensate key (.obj [])).run (0, []) =
      some (.ok (), 0, [.compensate key, .compensated key]) := by
    refine (run_spied _ _ _ _ _).trans ?_
    simp [booking]
  -- the second one finds the intent, and undoes what may have happened
  have hcompensated : (call booking.spy (.obj []) "s" "t" 0 "c").run (settled d₁ (0, []) ⟨0, 0⟩) =
      some (.ok ⟨.compensated, .null, key, .compensatable⟩,
        settled (d₁.record key afp .compensated .compensatable none) (0, [.compensate key, .compensated key])
          ⟨0, 0⟩) := by
    have hklass : booking.spy.klass = .compensatable := rfl
    have hcall : (booking.spy.callCompensate key (.obj [])).run (settled d₁ (0, []) ⟨0, 0⟩) =
        some (.ok (), settled d₁ (0, [.compensate key, .compensated key]) ⟨0, 0⟩) := by
      simp [Tool.callCompensate, run_outside hundo]
    simp [call, hafp, key, hrow, replay, hklass, hcall]
  have hstart : (calls booking.spy (.obj []) "s" "t" 0 "c").Reachable (fun _ _ => True) (· = unbooked)
      ⟨unbooked, none⟩ := Lts.Reachable.start ⟨rfl, rfl⟩
  have hok : ∀ (p : GwProg Unit (Nat × List Event) Result) w, p.Guarded (fun _ _ => True) w :=
    Prog.guarded_of_forall fun _ _ => trivial
  have hstopped := ((hstart.begin rfl 2).run rfl (hok _ _) hkilled).halt rfl
  have hdone := (hstopped.begin rfl 0).run rfl (hok _ _) hcompensated
  obtain ⟨-, -, habsent, -⟩ := committed_or_compensated booking rfl (.obj []) "s" "t" "c" 0 id
    (undoable_booking _ _) unbooked ⟨rfl, rfl, rfl, rfl⟩ _ hdone
  have his : Is key .compensated (d₁.record key afp .compensated .compensatable none) := is_record ..
  exact ⟨_, _, hdone, rfl, rfl, his, habsent his⟩

end AgentTx.Gateway.Saga
