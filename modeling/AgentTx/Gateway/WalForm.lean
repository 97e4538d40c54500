import AgentTx.Gateway.Observation

/-!
# `Gateway.WalForm` — the records of a finished turn

A turn's records are to be one `BEGIN_TURN`, the actions, and one `TURN_COMMITTED` at the end. The two ends
are appended once (`if not self.wal.has(…)`), but an attempt at a turn that is finished appends the records
of its actions all the same, after the end (`actions_after_end`). As long as no attempt does that, the
records are well formed whenever an attempt completes (`wal_well_formed`).

Layout of the proof:
* **The shape** — `Shape` is an inductive description of the records of a turn, so that each append is one
  constructor; `Shape.wellFormed` counts.
* **The contract** — the condition on a run is that nothing is appended for an action of a turn that is over; with it
  every append of `run_turn` keeps the shape (`turnOk`).

Main results: `wal_well_formed`, and `actions_after_end` for the attempt that comes too late.
-/

namespace AgentTx.Gateway.WalForm

variable {R X : Type}

/-- `TurnWAL.records`. -/
def records (session turn : String) (wal : List WalRecord) : List WalRecord :=
  wal.filter fun r => r.session = session ∧ r.turn = turn

/-- The records of a finished turn. -/
structure WellFormed (rs : List WalRecord) : Prop where
  first : rs.head?.map WalRecord.type = some .BEGIN_TURN
  one_begin : rs.countP (fun r => r.type = .BEGIN_TURN) = 1
  one_end : rs.countP (fun r => r.type = .TURN_COMMITTED) = 1
  last : rs.getLast?.map WalRecord.type = some .TURN_COMMITTED

/-- A record of the loop over the plan. -/
def IsAction (type : WalType) : Prop := type = .ACTION_PREPARED ∨ type = .OBSERVATION_COMMITTED

/-- No record of an action is appended to the turn once it is finished. -/
def ActsBeforeEnd (session turn : String) (t : Stmt) (d : Db R) : Prop :=
  ∀ type key, t = .append type key → IsAction type → ¬ Logged session turn .TURN_COMMITTED d.wal

/-! ## The shape of a turn's records -/

/-- The records of a turn that has not begun, is under way, or is finished. -/
inductive Shape : List WalRecord → Prop
  | fresh : Shape []
  | open_ {b : WalRecord} {acts : List WalRecord} (hb : b.type = .BEGIN_TURN)
      (hacts : ∀ r ∈ acts, IsAction r.type) : Shape (b :: acts)
  | finished {b e : WalRecord} {acts : List WalRecord} (hb : b.type = .BEGIN_TURN)
      (hacts : ∀ r ∈ acts, IsAction r.type) (he : e.type = .TURN_COMMITTED) : Shape (b :: acts ++ [e])

variable {session turn : String} {d : Db R}

theorem logged_iff_records {type : WalType} {wal : List WalRecord} :
    Logged session turn type wal ↔ ∃ r ∈ records session turn wal, r.type = type := by
  constructor
  · rintro ⟨r, hmem, hs, ht, htype⟩
    exact ⟨r, List.mem_filter.mpr ⟨hmem, by simp [hs, ht]⟩, htype⟩
  · rintro ⟨r, hmem, htype⟩
    obtain ⟨hmem, hr⟩ := List.mem_filter.mp hmem
    obtain ⟨hs, ht⟩ := of_decide_eq_true hr
    exact ⟨r, hmem, hs, ht, htype⟩

theorem records_append (wal : List WalRecord) (type : WalType) (key : String) :
    records session turn (wal ++ [⟨session, turn, type, key⟩]) =
      records session turn wal ++ [⟨session, turn, type, key⟩] := by
  simp [records]

variable {rs : List WalRecord} {key : String}

/-- A turn that has not begun begins. -/
theorem Shape.begin (h : Shape rs) (hnot : ¬ ∃ r ∈ rs, r.type = .BEGIN_TURN) :
    Shape (rs ++ [⟨session, turn, .BEGIN_TURN, key⟩]) := by
  cases h with
  | fresh => exact .open_ rfl nofun
  | open_ hb hacts => exact absurd ⟨_, List.mem_cons_self, hb⟩ hnot
  | finished hb hacts he => exact absurd ⟨_, List.mem_cons_self, hb⟩ hnot

/-- A turn under way goes on. -/
theorem Shape.act {type : WalType} (h : Shape rs) (hbegun : ∃ r ∈ rs, r.type = .BEGIN_TURN)
    (hopen : ¬ ∃ r ∈ rs, r.type = .TURN_COMMITTED) (ht : IsAction type) :
    Shape (rs ++ [⟨session, turn, type, key⟩]) := by
  cases h with
  | fresh =>
    obtain ⟨r, hmem, -⟩ := hbegun
    cases hmem
  | open_ hb hacts =>
    refine .open_ hb fun r hmem => ?_
    rcases List.mem_append.mp hmem with hmem | hmem
    · exact hacts r hmem
    · rw [List.mem_singleton.mp hmem]
      exact ht
  | finished hb hacts he =>
    exact absurd ⟨_, List.mem_append_right _ (List.mem_singleton.mpr rfl), he⟩ hopen

/-- A turn under way ends. -/
theorem Shape.end_ (h : Shape rs) (hbegun : ∃ r ∈ rs, r.type = .BEGIN_TURN)
    (hopen : ¬ ∃ r ∈ rs, r.type = .TURN_COMMITTED) :
    Shape (rs ++ [⟨session, turn, .TURN_COMMITTED, key⟩]) := by
  cases h with
  | fresh =>
    obtain ⟨r, hmem, -⟩ := hbegun
    cases hmem
  | open_ hb hacts => exact .finished hb hacts rfl
  | finished hb hacts he =>
    exact absurd ⟨_, List.mem_append_right _ (List.mem_singleton.mpr rfl), he⟩ hopen

/-- No action is a begin or an end. -/
theorem countP_acts {acts : List WalRecord} (hacts : ∀ r ∈ acts, IsAction r.type) {type : WalType}
    (ht : ¬ IsAction type) : acts.countP (fun r => r.type = type) = 0 := by
  refine List.countP_eq_zero.mpr fun r hmem htype => ?_
  rw [← of_decide_eq_true htype] at ht
  exact ht (hacts r hmem)

/-- The records of a turn that has its end are well formed. -/
theorem Shape.wellFormed (h : Shape rs) (hend : ∃ r ∈ rs, r.type = .TURN_COMMITTED) : WellFormed rs := by
  cases h with
  | fresh =>
    obtain ⟨r, hmem, -⟩ := hend
    cases hmem
  | open_ hb hacts =>
    obtain ⟨r, hmem, hr⟩ := hend
    rcases List.mem_cons.mp hmem with rfl | hmem
    · rw [hb] at hr
      cases hr
    · have hact := hacts r hmem
      rw [hr] at hact
      simp [IsAction] at hact
  | @finished b e acts hb hacts he =>
    have hbegins : acts.countP (fun r => r.type = .BEGIN_TURN) = 0 := countP_acts hacts (by simp [IsAction])
    have hends : acts.countP (fun r => r.type = .TURN_COMMITTED) = 0 := countP_acts hacts (by simp [IsAction])
    constructor
    case first => simp [hb]
    case one_begin => simp [hb, he, hbegins]
    case one_end => simp [hb, he, hends]
    case last =>
      rw [List.getLast?_concat]
      simp [he]

/-! ## The contract -/

def contract (session turn : String) (R X : Type) : Contract R X where
  inv d _ := Shape (records session turn d.wal)
  may _ _ _ _ := True
  may_refl _ _ := trivial
  ok := ActsBeforeEnd session turn

/-- A record of an action, appended to a turn that is not finished. -/
theorem shape_act {type : WalType} (ht : IsAction type) (h : Shape (records session turn d.wal))
    (hbegun : Logged session turn .BEGIN_TURN d.wal)
    (hok : ActsBeforeEnd session turn (.append type key) d) :
    Shape (records session turn (d.wal ++ [⟨session, turn, type, key⟩])) := by
  rw [records_append]
  refine h.act (logged_iff_records.mp hbegun) (fun hend => ?_) ht
  exact hok type key rfl ht (logged_iff_records.mpr hend)

section Attempts

variable [Driver]

theorem turnOk (session turn cid : String) (plan : List (Tool R X × Json)) :
    Contract.TurnOk (contract session turn R X) session turn plan cid (fun _ _ => True)
      (fun _ _ d _ => Logged session turn .BEGIN_TURN d.wal)
      (fun _ _ _ d _ => Logged session turn .BEGIN_TURN d.wal)
      (fun _ d _ => Logged session turn .TURN_COMMITTED d.wal) fun _ _ => True := by
  constructor
  case crash => exact fun _ => trivial
  case begun => exact fun d x _ _ hbegun => hbegun
  case begin =>
    rintro d x (hinv : Shape _) ⟨-, hnot⟩
    have hshape : Shape (records session turn (d.wal ++ [⟨session, turn, .BEGIN_TURN, ""⟩])) := by
      rw [records_append]
      exact hinv.begin fun hbegun => hnot (logged_iff_records.mpr hbegun)
    exact ⟨hshape, trivial, logged_self ..⟩
  case prepare =>
    rintro o rs tool args - d x (hinv : Shape _) ⟨hbegun, hok⟩
    exact ⟨shape_act (Or.inl rfl) hinv hbegun hok, trivial, hbegun.append _⟩
  case call =>
    intro o rs tool args _
    refine Contract.call_wal (F := Logged session turn .BEGIN_TURN) ?_ (fun _ _ _ _ _ => trivial) fun _ _ => trivial
    intro d d' x x' hwal (hinv : Shape _)
    show Shape (records session turn d'.wal)
    rw [hwal]
    exact hinv
  case observe =>
    rintro o rs res - d x (hinv : Shape _) ⟨hbegun, hok⟩
    exact ⟨shape_act (Or.inr rfl) hinv hbegun hok, trivial, hbegun.append _⟩
  case ended => exact fun rs d x _ _ hend => hend
  case end_ =>
    rintro rs d x (hinv : Shape _) ⟨hbegun, hnot⟩
    have hshape : Shape (records session turn (d.wal ++ [⟨session, turn, .TURN_COMMITTED, ""⟩])) := by
      rw [records_append]
      exact hinv.end_ (logged_iff_records.mp hbegun) fun hend => hnot (logged_iff_records.mpr hend)
    exact ⟨hshape, trivial, logged_self ..⟩

/-! ## Runs -/

/-- **The records are well formed whenever an attempt completes**, in every run in which no attempt appends
    the record of an action to the turn once it is finished. -/
theorem wal_well_formed (session turn : String) (plan : List (Tool R X × Json)) (w₀ : World R X)
    (h₀ : w₀.working = w₀.committed) (hfresh : records session turn w₀.committed.wal = [])
    (c : Serial.State Stmt (World R X) Exn (List Result))
    (hc : (attempts session turn plan).Reachable (fun t w => ActsBeforeEnd session turn t w.working) (· = w₀) c)
    (results : List Result) (hret : c.proc = some (.ret results)) :
    WellFormed (records session turn c.shared.committed.wal) := by
  have hturn : (contract session turn R X).rules.Triple () (Contract.Settled fun _ _ => True)
      (run_turn session turn plan)
      (fun _ => Contract.Settled fun d _ => Logged session turn .TURN_COMMITTED d.wal) fun _ _ => True :=
    Contract.run_turn (fun _ => trivial) fun cid _ => turnOk session turn cid plan
  have hverified := Contract.verified (fun _ _ _ => trivial) hturn
  have hinit : ∀ w, w = w₀ → (contract session turn R X).rules.Inv w ∧
      Contract.Settled (fun _ _ => True) w := by
    rintro w rfl
    refine ⟨?_, h₀, trivial⟩
    show Shape (records session turn w.committed.wal)
    rw [hfresh]
    exact .fresh
  have hshape : Shape (records session turn c.shared.committed.wal) := (hverified.stateOk hinit hc).1
  have hdone := hverified.post hinit hc hret
  exact hshape.wellFormed (logged_iff_records.mp hdone.fact)

end Attempts

open Observation (charge charges uncharged)

local instance chargeDriver : Driver := .sqlite

theorem text_charged : Driver.text (.str "charged") = some (some "charged") := rfl

/-- The turn of one charge, in one attempt. -/
theorem wal_well_formed_charge : ∃ (c : Serial.State Stmt (World Nat Unit) Exn (List Result)) (results : List Result),
    c.proc = some (.ret results) ∧ WellFormed (records "s" "t" c.shared.committed.wal) := by
  obtain ⟨cid, hcid⟩ : ∃ cid, commit_id_of (planJson charges) = some cid := exists_commit_id rfl
  obtain ⟨afp, hafp⟩ : ∃ afp, args_fingerprint (.obj []) = some afp := exists_args_fingerprint rfl
  have hguard : (run_turn "s" "t" charges).Guarded (fun t w => ActsBeforeEnd "s" "t" t w.working) uncharged := by
    unfold run_turn
    rw [hcid]
    simp [charges, charge, uncharged, runActions, appendUnlessHas, append, has, execute, commit, tick, call, hafp,
      ActsBeforeEnd, IsAction, Logged, settled, perform, transaction, seen, Tool.callDbEffect, recordInTx, text_charged,
      Db.record]
  have hrun : ∃ rs w, (run_turn "s" "t" charges).run uncharged = some (.ok rs, w) := by
    unfold run_turn
    rw [hcid]
    simp [charges, charge, uncharged, runActions, appendUnlessHas, append, has, execute, commit, tick, call, hafp,
      settled, perform, transaction, seen, Tool.callDbEffect, recordInTx, text_charged,
      Db.record]
  obtain ⟨rs, w, hrun⟩ := hrun
  have hstart : (attempts "s" "t" charges).Reachable (fun t w => ActsBeforeEnd "s" "t" t w.working)
      (· = uncharged) ⟨uncharged, none⟩ := Lts.Reachable.start ⟨rfl, rfl⟩
  have hdone := (hstart.begin rfl 0).run rfl hguard hrun
  exact ⟨_, rs, rfl, wal_well_formed "s" "t" charges uncharged rfl rfl _ hdone rs rfl⟩

/-- The first attempt is killed at the tick after `TURN_COMMITTED`. The second one completes, and leaves two
    records after the end. -/
theorem actions_after_end : ∃ c results,
    (attempts "s" "t" charges).Reachable (fun _ _ => True) (· = uncharged) c ∧ c.proc = some (.ret results) ∧
      ¬ WellFormed (records "s" "t" c.shared.committed.wal) := by
  obtain ⟨cid, hcid⟩ : ∃ cid, commit_id_of (planJson charges) = some cid := exists_commit_id rfl
  obtain ⟨afp, hafp⟩ : ∃ afp, args_fingerprint (.obj []) = some afp := exists_args_fingerprint rfl
  let key := action_id "s" "t" cid (.int 0)
  let keys : Table String KeyRow :=
    Function.update (fun _ => none) key (some ⟨some afp, .committed, .transactional, some "charged"⟩)
  let acts : List WalRecord := [⟨"s", "t", .ACTION_PREPARED, "charge"⟩, ⟨"s", "t", .OBSERVATION_COMMITTED, key⟩]
  let wal₁ : List WalRecord := ⟨"s", "t", .BEGIN_TURN, ""⟩ :: acts ++ [⟨"s", "t", .TURN_COMMITTED, ""⟩]
  have hfirst : (run_turn "s" "t" charges).run (settled ⟨fun _ => none, [], []⟩ () ⟨0, 6⟩) =
      some (.error .Crash, settled ⟨keys, wal₁, [100]⟩ () ⟨6, 6⟩) := by
    unfold run_turn
    rw [hcid]
    simp [charges, charge, runActions, appendUnlessHas, append, has, execute, commit, tick, call, hafp, settled,
      perform, transaction, seen, Tool.callDbEffect, recordInTx, text_charged, record_new, keys, key, wal₁, acts]
  have hsecond : ∃ rs, (run_turn "s" "t" charges).run (settled ⟨keys, wal₁, [100]⟩ () ⟨0, 0⟩) =
      some (.ok rs, settled ⟨keys, wal₁ ++ acts, [100]⟩ () ⟨4, 0⟩) := by
    unfold run_turn
    rw [hcid]
    simp [charges, charge, runActions, appendUnlessHas, run_tick, call, hafp, replay, keys, key, wal₁, acts]
  obtain ⟨rs, hsecond⟩ := hsecond
  have hany : ∀ {w}, (run_turn "s" "t" charges).Guarded (fun _ _ => True) w :=
    Prog.guarded_of_forall (fun _ _ => trivial) _ _
  have hstart : (attempts "s" "t" charges).Reachable (fun _ _ => True) (· = uncharged) ⟨uncharged, none⟩ :=
    Lts.Reachable.start ⟨rfl, rfl⟩
  have hdied := ((hstart.begin rfl 6).run rfl hany hfirst).halt rfl
  have hdone := (hdied.begin rfl 0).run rfl hany hsecond
  refine ⟨_, rs, hdone, rfl, fun hwell => ?_⟩
  have hlast := hwell.last
  simp [records, settled, wal₁, acts] at hlast

end AgentTx.Gateway.WalForm
