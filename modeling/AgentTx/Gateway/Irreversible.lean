import AgentTx.Gateway.Alone
import AgentTx.Gateway.Calls

/-!
# `Gateway.Irreversible` — at most once, and honest

The intent of an irreversible action is durable before its effect is invoked. A call that finds the intent
without the record cannot tell whether the effect ran: it answers `uncertain`, and from then on every call
does.

`Story` ties the row to the notes of a spied tool: no row and no note, an intent and the beginning of one effect, or
a record and all of it. Every stage of a call goes from one to the next, so the effect is invoked at most once, and
an answer that it took place is true (`irreversible_at_most_once`). A replay answers with what the row holds of the
effect's value, which is the value itself for a text and for nothing else (`not_irreversible_at_most_once`).
-/

namespace AgentTx.Gateway.Irreversible

variable {R X : Type}

section Attempts

variable [Driver]

/-- What the row of the action says of the tool's invocations. -/
inductive Story (key : String) (args : Json) : Option KeyRow → List Event → Prop
  | fresh : Story key args none []
  | prepared {row : KeyRow} {afp : String} {notes : List Event} {v : Json}
      (hafp : args_fingerprint args = some afp) (hfp : row.args_fp = some afp) (hst : row.status = .prepared)
      (hnotes : notes <+: [.effect key, .effected key v]) : Story key args (some row) notes
  | committed {row : KeyRow} {v : Json} (hst : row.status = .committed) (hstored : Driver.text v = some row.result) :
      Story key args (some row) [.effect key, .effected key v]

section Contract

variable (key : String) (args : Json)

def contract (R X : Type) : Contract R (X × List Event) where
  inv d s := Story key args (d.gw_keys key) s.2
  may _ _ _ _ := True
  may_refl _ _ := trivial

/-- The intent is recorded. -/
def Prepared (d : Db R) : Prop :=
  ∃ row afp, d.gw_keys key = some row ∧ args_fingerprint args = some afp ∧ row.args_fp = some afp ∧
    row.status = .prepared

/-- What is known at each stage of a call. -/
def phases (R X : Type) : Contract.Phases R (X × List Event) where
  before _ _ := True
  ready d s := d.gw_keys key = none ∧ s.2 = []
  prepared _ _ := False
  starting d s := Prepared key args d ∧ s.2 = []
  effected v d s := Prepared key args d ∧ s.2 = [.effect key, .effected key v]
  undoing _ _ := False
  undone _ _ := False
  after res _ s := res.status = .uncertain ∨
    ∃ v, Contract.Answers res v ∧ s.2 = [.effect key, .effected key v]

end Contract

variable {key : String} {args : Json} {d : Db R} {x : X} {notes : List Event} {v : Json} {tool : Tool R X}

/-- The notes of a prepared action are fine as long as they are the beginning of one effect. -/
theorem Prepared.story (h : Prepared key args d) (hnotes : notes <+: [.effect key, .effected key v]) :
    Story key args (d.gw_keys key) notes := by
  obtain ⟨row, afp, hrow, hafp, hfp, hst⟩ := h
  rw [hrow]
  exact .prepared hafp hfp hst hnotes

theorem Story.count_le {o : Option KeyRow} (h : Story key args o notes) : notes.count (.effect key) ≤ 1 := by
  cases h with
  | fresh => simp
  | prepared hafp hfp hst hnotes => exact Nat.le_trans (hnotes.sublist.count_le _) (by simp)
  | committed hst hstored => simp

/-- A row that is prepared is that of these arguments. -/
theorem Story.of_prepared {row : KeyRow} (h : Story key args (some row) notes) (hst : row.status = .prepared) :
    ∃ afp, args_fingerprint args = some afp ∧ row.args_fp = some afp := by
  cases h with
  | prepared hafp hfp _ hnotes => exact ⟨_, hafp, hfp⟩
  | committed hst' hstored =>
    rw [hst] at hst'
    cases hst'

theorem callOk (hk : tool.klass = .irreversible) {afp : String} (hafp : args_fingerprint args = some afp) :
    Contract.CallOk (contract key args R X) tool.spy key afp args (phases key args R X) fun _ _ => True := by
  have hk' : tool.spy.klass = .irreversible := hk
  constructor
  case raises => exact fun _ _ _ => trivial
  case mismatch => exact fun _ _ _ _ _ _ => trivial
  case new =>
    rintro d ⟨x, notes⟩ (hinv : Story key args (d.gw_keys key) notes) - hnone
    rw [hnone] at hinv
    cases hinv
    exact ⟨hnone, rfl⟩
  case found =>
    rintro d ⟨x, notes⟩ row (hinv : Story key args (d.gw_keys key) notes) - - hrow -
    rw [hrow] at hinv
    cases hinv with
    | prepared hafp hfp hst hnotes =>
      simp only [Contract.Phases.found, hst, hk']
      exact Or.inl rfl
    | committed hst hstored =>
      simp only [Contract.Phases.found, hst]
      exact Or.inr ⟨_, Or.inr ⟨rfl, _, hstored, rfl⟩, rfl⟩
  case compensate => exact fun hc => by simp [hk'] at hc
  case undo => exact fun hc => by simp [hk'] at hc
  case db_effect => exact fun hc => by simp [hk'] at hc
  case prepare => exact fun hc => by simp [hk'] at hc
  case begin => exact fun hc => by simp [hk'] at hc
  case intend =>
    rintro - d ⟨x, notes⟩ - ⟨hnone, rfl⟩
    have hprepared : Prepared key args (d.record key afp .prepared .irreversible none) :=
      ⟨_, afp, Db.record_of_none hnone _ _ _ _, hafp, rfl, rfl⟩
    exact ⟨hprepared.story (v := .null) List.nil_prefix, trivial, hprepared, rfl⟩
  case direct => exact fun _ hi => absurd hk' hi
  case effect =>
    intro _
    refine Contract.outside_alone (fun d => ?_) fun _ _ => trivial
    have hspied : ∀ hd : Prepared key args d, ((contract key args R X).toolRules d).Triple ()
        (fun s => s.2 = [] ∧ True ∧ True) (tool.spy.effect key args)
        (fun v s => (∃ l, l = [] ∧ s.2 = l ++ [.effect key] ++ [.effected key v]) ∧ True ∧ True)
        fun _ _ => True := by
      intro hd
      -- nothing is assumed of the tool
      refine Contract.spied (A := (· = [])) (Serial.triple_any _) ?_ ?_ ?_
      · rintro x _ rfl - -
        exact ⟨trivial, hd.story ⟨[.effected key .null], rfl⟩⟩
      · rintro x x' _ rfl - -
        exact ⟨trivial, hd.story ⟨[.effected key .null], rfl⟩⟩
      · rintro v x _ rfl - -
        exact ⟨trivial, hd.story (List.prefix_refl _)⟩
    intro s hs hstart
    refine ((hspied hstart.1).conseq (fun _ _ h => h) ?_ fun _ _ _ h => h) s hs ⟨hstart.2, trivial, trivial⟩
    rintro v s - ⟨⟨_, rfl, hnotes⟩, -⟩
    exact ⟨hstart.1, hnotes⟩
  case finish =>
    rintro - v stored hstored d ⟨x, notes⟩ - ⟨⟨row, _, hrow, -, -, hst⟩, rfl⟩
    have hrecord : (d.record key afp .committed tool.spy.klass stored).gw_keys key = _ :=
      Db.record_of_some hrow _ _ _ _
    refine ⟨?_, trivial, Or.inr ⟨v, Or.inl ⟨rfl, rfl⟩, rfl⟩⟩
    show Story key args ((d.record key afp .committed tool.spy.klass stored).gw_keys key) _
    rw [hrecord]
    exact .committed rfl hstored

/-! ## A call that finds the intent

A call by itself, on a world in which the row is `prepared`: it answers and changes nothing, so that the next call is
on the same world again. -/

/-- Neither the keys nor the notes change. -/
def frozen (keys : Table String KeyRow) (notes : List Event) (R X : Type) : Contract R (X × List Event) where
  inv d s := d.gw_keys = keys ∧ s.2 = notes
  may _ _ _ _ := True
  may_refl _ _ := trivial

/-- **It answers `uncertain`**, and does nothing. -/
theorem call_prepared {tool : Tool R (X × List Event)} {session turn cid : String} {ordinal : Int}
    {keys : Table String KeyRow} {row : KeyRow} {afp : String} (hk : tool.klass = .irreversible)
    (hafp : args_fingerprint args = some afp) (hrow : keys (action_id session turn cid ordinal) = some row)
    (hfp : row.args_fp = some afp) (hst : row.status = .prepared) :
    (frozen keys notes R X).rules.Triple ()
      (Contract.Settled fun d s => d.gw_keys = keys ∧ s.2 = notes)
      (call tool args session turn ordinal cid)
      (fun res => Contract.Settled fun _ _ => res.status = .uncertain) fun _ _ => False := by
  have hseen : (frozen keys notes R X).rules.Triple ()
      (Contract.Settled fun d s => d.gw_keys = keys ∧ s.2 = notes)
      (seen (action_id session turn cid ordinal) afp tool.klass)
      (fun o => Contract.Settled fun _ _ => o = some row) fun _ _ => False := by
    refine Contract.select fun d s _ hF _ => ?_
    rw [hF.1, hrow]
  unfold call
  refine RelyGuarantee.Triple.bind (Q := fun afp' => Contract.Settled fun d s =>
    afp' = afp ∧ d.gw_keys = keys ∧ s.2 = notes) ?_ fun afp' => ?_
  · refine RelyGuarantee.Triple.ofOption (fun afp' hafp' w _ hkeys => ?_) fun hnone => ?_
    · exact ⟨hkeys.1, Option.some.inj (hafp'.symm.trans hafp), hkeys.2⟩
    · rw [hafp] at hnone
      cases hnone
  rintro w hw ⟨hidle, hafp', hkeys⟩
  rw [hafp']
  refine RelyGuarantee.Triple.bind hseen (fun o => ?_) w hw ⟨hidle, hkeys⟩
  intro w hw ho
  obtain ⟨hidle, rfl⟩ := ho
  -- the branch of `replay` for an irreversible intent
  have hreplay : replay tool (action_id session turn cid ordinal) afp args row =
      pure (some ⟨.uncertain, .null, action_id session turn cid ordinal, tool.klass⟩) := by
    unfold replay
    simp [hfp, hst, hk]
  have hanswer : Contract.Settled (fun _ _ => (⟨.uncertain, .null, action_id session turn cid ordinal,
      tool.klass⟩ : Result).status = .uncertain) w := ⟨hidle, rfl⟩
  simp only [hreplay]
  exact hanswer

/-- **So do all later calls**, and nothing changes. -/
theorem stays_uncertain {session turn cid : String} {ordinal : Int} {w : World R (X × List Event)} {row : KeyRow}
    {afp : String} {c' : Serial.State Stmt (World R (X × List Event)) Exn Result} (hidle : w.working = w.committed)
    (hk : tool.klass = .irreversible) (hafp : args_fingerprint args = some afp)
    (hrow : w.committed.gw_keys (action_id session turn cid ordinal) = some row) (hfp : row.args_fp = some afp)
    (hst : row.status = .prepared)
    (hc' : (calls tool.spy args session turn ordinal cid).Reachable (fun _ _ => True) (· = w) c') :
    c'.shared.committed.gw_keys = w.committed.gw_keys ∧ c'.shared.ext.2 = w.ext.2 ∧
      (∀ res, c'.proc = some (.ret res) → res.status = .uncertain) ∧ ∀ e, c'.proc ≠ some (.raise e) := by
  have hfrozen : ∀ w', w' = w → (frozen w.committed.gw_keys w.ext.2 R X).rules.Inv w' ∧
      Contract.Settled (fun d s => d.gw_keys = w.committed.gw_keys ∧ s.2 = w.ext.2) w' := by
    rintro w' rfl
    exact ⟨⟨rfl, rfl⟩, hidle, rfl, rfl⟩
  have hprepared : (frozen w.committed.gw_keys w.ext.2 R X).rules.Triple ()
      (Contract.Settled fun d s => d.gw_keys = w.committed.gw_keys ∧ s.2 = w.ext.2)
      (call tool.spy args session turn ordinal cid)
      (fun res => Contract.Settled fun _ _ => res.status = .uncertain) fun _ _ => False :=
    call_prepared hk hafp hrow hfp hst
  have hverified := Contract.verified_calls (fun _ _ h => h) hprepared
  obtain ⟨hkeys, hnotes⟩ := (hverified.stateOk hfrozen hc').1
  exact ⟨hkeys, hnotes, fun res hret => (hverified.post hfrozen hc' hret).fact,
    fun e hraise => hverified.err hfrozen hc' hraise⟩

/-! ## Runs

Attempts at the call, each with a clock. Between two of them the story is that of the row, wherever the last one was
stopped. -/

/-- Nothing was recorded or invoked for this action. -/
structure Unused (key : String) (w : World R (X × List Event)) : Prop where
  idle : w.working = w.committed
  unrecorded : w.committed.gw_keys key = none
  silent : w.ext.2 = []

theorem Unused.inv {w : World R (X × List Event)} (h : Unused key w) :
    (contract key args R X).inv w.committed w.ext := by
  show Story key args (w.committed.gw_keys key) w.ext.2
  rw [h.unrecorded, h.silent]
  exact .fresh

/-- **An irreversible effect is invoked at most once**, an answer that it took place is true, and an action
    that was left between its intent and its record stays uncertain. The answer comes with the value of the effect,
    unless it is a replay and the column has not kept the value. -/
theorem irreversible_at_most_once (tool : Tool R X) (hk : tool.klass = .irreversible) (args : Json)
    (session turn cid : String) (ordinal : Int) (w₀ : World R (X × List Event))
    (h₀ : Unused (action_id session turn cid ordinal) w₀)
    (c : Serial.State Stmt (World R (X × List Event)) Exn Result)
    (hc : (calls tool.spy args session turn ordinal cid).Reachable (fun _ _ => True) (· = w₀) c) :
    let key := action_id session turn cid ordinal
    c.shared.ext.2.count (.effect key) ≤ 1 ∧
    (∀ res, c.proc = some (.ret res) → res.status = .committed ∨ res.status = .dedup_hit →
      ∃ v, c.shared.ext.2 = [.effect key, .effected key v] ∧
        (res.value = v ↔ res.status = .dedup_hit → Driver.Keeps v)) ∧
    (∀ row, c.proc = none → c.shared.committed.gw_keys key = some row → row.status = .prepared →
      ∀ c', (calls tool.spy args session turn ordinal cid).Reachable (fun _ _ => True) (· = c.shared) c' →
        c'.shared.committed.gw_keys = c.shared.committed.gw_keys ∧ c'.shared.ext.2 = c.shared.ext.2 ∧
        (∀ res, c'.proc = some (.ret res) → res.status = .uncertain) ∧ ∀ e, c'.proc ≠ some (.raise e)) := by
  intro key
  have hcall : (contract key args R X).rules.Triple () (Contract.Settled (phases key args R X).before)
      (call tool.spy args session turn ordinal cid)
      (fun res => Contract.Settled ((phases key args R X).after res)) fun _ _ => True :=
    Contract.call (fun afp hafp => callOk hk hafp) fun _ => trivial
  have hverified := Contract.verified_calls (fun _ _ _ => trivial) hcall
  have hinit : ∀ w, w = w₀ → (contract key args R X).rules.Inv w ∧
      Contract.Settled (phases key args R X).before w := by
    rintro w rfl
    exact ⟨h₀.inv, h₀.idle, trivial⟩
  have hstory : Story key args (c.shared.committed.gw_keys key) c.shared.ext.2 :=
    (hverified.stateOk hinit hc).1
  refine ⟨hstory.count_le, ?_, ?_⟩
  · intro res hret hst
    rcases (hverified.post hinit hc hret).fact with hunc | ⟨v, hanswers, hnotes⟩
    · rcases hst with hst | hst <;> simp [hst] at hunc
    · exact ⟨v, hnotes, hanswers.value_iff.2⟩
  · intro row hrest hrow hst c' hc'
    have hidle := (hverified.stateOk hinit hc).2
    rw [hrest] at hidle
    rw [hrow] at hstory
    -- from here on every call is one that finds this intent
    obtain ⟨afp, hafp, hfp⟩ := hstory.of_prepared hst
    exact stays_uncertain hidle.idle hk hafp hrow hfp hst hc'

end Attempts

/-! A mail whose first attempt is killed right after its intent is recorded. -/

local instance mailDriver : Driver := .sqlite

def mailer : Tool Unit Unit where
  name := "send_email"
  klass := .irreversible
  effect _ _ := pure (.str "sent")

def unsent : World Unit (Unit × List Event) := settled ⟨fun _ => none, [], []⟩ ((), []) ⟨0, 0⟩

theorem irreversible_at_most_once_killed :
    ∃ c, (calls mailer.spy (.obj []) "s" "t" 0 "c").Reachable (fun _ _ => True) (· = unsent) c ∧
      c.proc = none ∧
      (∃ row, c.shared.committed.gw_keys (action_id "s" "t" "c" (.int 0)) = some row ∧ row.status = .prepared) ∧
      ∀ c', (calls mailer.spy (.obj []) "s" "t" 0 "c").Reachable (fun _ _ => True) (· = c.shared) c' →
        c'.shared.ext.2 = [] ∧ ∀ res, c'.proc = some (.ret res) → res.status = .uncertain := by
  obtain ⟨afp, hafp⟩ : ∃ afp, args_fingerprint (.obj []) = some afp := exists_args_fingerprint rfl
  let d : Db Unit := ⟨fun _ => none, [], []⟩
  have hkilled : (call mailer.spy (.obj []) "s" "t" 0 "c").run (settled d ((), []) ⟨0, 1⟩) =
      some (.error .Crash,
        settled (d.record (action_id "s" "t" "c" (.int 0)) afp .prepared .irreversible none) ((), []) ⟨1, 1⟩) := by
    simp [call, hafp, perform, mailer, Tool.spy, run_tick_crash, d]
  have hstart : (calls mailer.spy (.obj []) "s" "t" 0 "c").Reachable (fun _ _ => True) (· = unsent)
      ⟨unsent, none⟩ := Lts.Reachable.start ⟨rfl, rfl⟩
  have hstopped := ((hstart.begin rfl 1).run rfl (Prog.guarded_of_forall (fun _ _ => trivial) _ _) hkilled).halt rfl
  have hrow : (d.record (action_id "s" "t" "c" (.int 0)) afp .prepared .irreversible none).gw_keys
      (action_id "s" "t" "c" (.int 0)) = some ⟨some afp, .prepared, .irreversible, none⟩ :=
    Db.record_of_none rfl afp .prepared .irreversible none
  obtain ⟨-, -, hlater⟩ :=
    irreversible_at_most_once mailer rfl (.obj []) "s" "t" "c" 0 unsent ⟨rfl, rfl, rfl⟩ _ hstopped
  refine ⟨_, hstopped, rfl, ⟨_, hrow, rfl⟩, fun c' hc' => ?_⟩
  obtain ⟨-, hnotes, hunc, -⟩ := hlater _ rfl hrow rfl c' hc'
  exact ⟨hnotes, hunc⟩

/-! A send whose result is a number: it is sent, and the call is repeated. -/

def numbered : Tool Unit Unit where
  name := "send_email"
  klass := .irreversible
  effect _ _ := pure (.int 7)

/-- The row, once the number is recorded. -/
def sentRow (afp : String) : KeyRow := ⟨some afp, .committed, .irreversible, some "7"⟩

/-- The first call returns 7. -/
theorem run_numbered {afp : String} (hafp : args_fingerprint (.obj []) = some afp) :
    ∃ d, d.gw_keys (action_id "s" "t" "c" (.int 0)) = some (sentRow afp) ∧
      (call numbered.spy (.obj []) "s" "t" 0 "c").run unsent =
        some (.ok ⟨.committed, .int 7, action_id "s" "t" "c" (.int 0), .irreversible⟩,
          settled d ((), [.effect (action_id "s" "t" "c" (.int 0)),
            .effected (action_id "s" "t" "c" (.int 0)) (.int 7)]) ⟨3, 0⟩) := by
  let key := action_id "s" "t" "c" (.int 0)
  let d₀ : Db Unit := ⟨fun _ => none, [], []⟩
  let d₁ := d₀.record key afp .prepared .irreversible none
  have hprepared : d₁.gw_keys key = some ⟨some afp, .prepared, .irreversible, none⟩ := Db.record_of_none rfl ..
  have heffect : (numbered.spy.effect key (.obj [])).run ((), []) =
      some (.ok (.int 7), ((), [.effect key, .effected key (.int 7)])) := run_spied ..
  have hstored : Driver.text (.int 7) = some (some "7") := rfl
  have hcall : (numbered.spy.callEffect key (.obj [])).run (settled d₁ ((), []) ⟨1, 0⟩) =
      some (.ok (.int 7), settled d₁ ((), [.effect key, .effected key (.int 7)]) ⟨1, 0⟩) := by
    simp [Tool.callEffect, run_outside heffect]
  have hklass : numbered.spy.klass = .irreversible := rfl
  refine ⟨d₁.record key afp .committed .irreversible (some "7"), Db.record_of_some hprepared .., ?_⟩
  unfold unsent
  simp [call, hafp, perform, hklass, hcall, run_tick, run_record hstored, d₁, d₀, key]

/-- The value of an answer is not always that of the effect. -/
theorem not_irreversible_at_most_once :
    ¬ ∀ (c : Serial.State Stmt (World Unit (Unit × List Event)) Exn Result) res,
      (calls numbered.spy (.obj []) "s" "t" 0 "c").Reachable (fun _ _ => True) (· = unsent) c →
      c.proc = some (.ret res) → res.status = .committed ∨ res.status = .dedup_hit →
      c.shared.ext.2 = [.effect (action_id "s" "t" "c" (.int 0)),
        .effected (action_id "s" "t" "c" (.int 0)) res.value] := by
  intro h
  obtain ⟨afp, hafp⟩ : ∃ afp, args_fingerprint (.obj []) = some afp := exists_args_fingerprint rfl
  obtain ⟨d, hrow, hrun⟩ := run_numbered hafp
  have hreplay : ∀ x, (call numbered.spy (.obj []) "s" "t" 0 "c").run (settled d x ⟨0, 0⟩) =
      some (.ok ⟨.dedup_hit, .str "7", action_id "s" "t" "c" (.int 0), .irreversible⟩, settled d x ⟨0, 0⟩) :=
    fun _ => run_call_dedup (r := sentRow afp) hafp hrow rfl rfl
  have hstart : (calls numbered.spy (.obj []) "s" "t" 0 "c").Reachable (fun _ _ => True) (· = unsent)
      ⟨unsent, none⟩ := Lts.Reachable.start ⟨rfl, rfl⟩
  have hsent := ((hstart.begin rfl 0).run rfl (Prog.guarded_of_forall (fun _ _ => trivial) _ _) hrun).halt rfl
  have hreplayed := (hsent.begin rfl 0).run rfl (Prog.guarded_of_forall (fun _ _ => trivial) _ _)
    (hreplay _)
  cases h _ _ hreplayed rfl (Or.inr rfl)

end AgentTx.Gateway.Irreversible
