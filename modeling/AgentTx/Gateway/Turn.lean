import AgentTx.Gateway.Contract

/-!
# `Gateway.Turn` — the specification of a turn, and of the attempts at it

`TurnOk` says what a contract has to allow for `Coordinator.run_turn`; `Contract.verified` turns the
specification of one attempt into a proof about any number of them.
-/

namespace AgentTx.Gateway

variable {R X : Type}

/-- The WAL has a record of this type for the turn. -/
def Logged (session turn : String) (type : WalType) (wal : List WalRecord) : Prop :=
  ∃ r ∈ wal, r.session = session ∧ r.turn = turn ∧ r.type = type

theorem Logged.append {session turn : String} {type : WalType} {wal : List WalRecord}
    (h : Logged session turn type wal) (new : List WalRecord) : Logged session turn type (wal ++ new) := by
  obtain ⟨r, hmem, hr⟩ := h
  exact ⟨r, List.mem_append_left _ hmem, hr⟩

theorem logged_self (session turn : String) (type : WalType) (key : String) (wal : List WalRecord) :
    Logged session turn type (wal ++ [⟨session, turn, type, key⟩]) :=
  ⟨_, List.mem_append_right _ (List.mem_singleton.mpr rfl), rfl, rfl, rfl⟩

/-- What `has` answers. -/
theorem any_eq_true_iff_logged {session turn : String} {type : WalType} {wal : List WalRecord} :
    (wal.any fun r => r.session = session ∧ r.turn = turn ∧ r.type = type) = true ↔
      Logged session turn type wal := by
  simp [Logged]

namespace Contract

variable [Driver] {C : Contract R X} {F : Db R → X → Prop} {E : Exn → World R X → Prop}

variable {session turn cid : String} {plan : List (Tool R X × Json)}

/-- What the contract has to allow for a turn. `at_ o rs` is what is known before position `o`, when the
    calls before it have returned `rs`, and `called o rs res` when the call at `o` has returned `res`. -/
structure TurnOk (C : Contract R X) (session turn : String) (plan : List (Tool R X × Json))
    (cid : String) (start : Db R → X → Prop) (at_ : Nat → List Result → Db R → X → Prop)
    (called : Nat → List Result → Result → Db R → X → Prop) (done : List Result → Db R → X → Prop)
    (E : Exn → World R X → Prop) : Prop where
  crash : ∀ w, E .Crash w
  begun : ∀ d x, C.inv d x → start d x → Logged session turn .BEGIN_TURN d.wal → at_ 0 [] d x
  begin : C.Moves (fun d => { d with wal := d.wal ++ [⟨session, turn, .BEGIN_TURN, ""⟩] })
    (fun d x => start d x ∧ ¬ Logged session turn .BEGIN_TURN d.wal) (at_ 0 [])
  prepare : ∀ o rs tool args, plan[o]? = some (tool, args) →
    C.Moves (fun d => { d with wal := d.wal ++ [⟨session, turn, .ACTION_PREPARED, tool.name⟩] })
      (fun d x => at_ o rs d x ∧ C.ok (.append .ACTION_PREPARED tool.name) d) (at_ o rs)
  call : ∀ (o : Nat) rs tool args, plan[o]? = some (tool, args) →
    C.rules.Triple () (Settled (at_ o rs)) (Gateway.call tool args session turn o cid)
      (fun res => Settled (called o rs res)) E
  observe : ∀ o rs res, o < plan.length →
    C.Moves (fun d => { d with wal := d.wal ++ [⟨session, turn, .OBSERVATION_COMMITTED, res.key⟩] })
      (fun d x => called o rs res d x ∧ C.ok (.append .OBSERVATION_COMMITTED res.key) d)
      (at_ (o + 1) (rs ++ [res]))
  ended : ∀ rs d x, C.inv d x → at_ plan.length rs d x → Logged session turn .TURN_COMMITTED d.wal → done rs d x
  end_ : ∀ rs, C.Moves (fun d => { d with wal := d.wal ++ [⟨session, turn, .TURN_COMMITTED, ""⟩] })
    (fun d x => at_ plan.length rs d x ∧ ¬ Logged session turn .TURN_COMMITTED d.wal) (done rs)

variable {start : Db R → X → Prop} {at_ : Nat → List Result → Db R → X → Prop}
  {called : Nat → List Result → Result → Db R → X → Prop} {done : List Result → Db R → X → Prop}

omit [Driver] in
theorem append {type : WalType} {key : String} {F G : Db R → X → Prop}
    (h : C.Moves (fun d => { d with wal := d.wal ++ [⟨session, turn, type, key⟩] })
      (fun d x => F d x ∧ C.ok (.append type key) d) G) :
    C.rules.Triple () (Settled F) (append session turn type key) (fun _ => Settled G) E :=
  write_commit fun d x hinv hF hok => h d x hinv ⟨hF, hok⟩

omit [Driver] in
theorem appendUnlessHas {type : WalType} {F G : Db R → X → Prop}
    (hhas : ∀ d x, C.inv d x → F d x → Logged session turn type d.wal → G d x)
    (happend : C.Moves (fun d => { d with wal := d.wal ++ [⟨session, turn, type, ""⟩] })
      (fun d x => F d x ∧ ¬ Logged session turn type d.wal) G) :
    C.rules.Triple () (Settled F) (appendUnlessHas session turn type) (fun _ => Settled G) E := by
  have hhas' : C.rules.Triple () (Settled F) (has session turn type)
      (fun b => Settled fun d x => F d x ∧ (b = true ↔ Logged session turn type d.wal)) E :=
    select fun _ _ _ hF _ => ⟨hF, any_eq_true_iff_logged⟩
  refine hhas'.bind fun b => ?_
  cases b with
  | true => exact fun w hw hF => ⟨hF.idle, hhas _ _ hw hF.fact.1 (hF.fact.2.mp rfl)⟩
  | false =>
    refine append fun d x hinv hF => happend d x hinv ⟨hF.1.1, fun hlogged => ?_⟩
    exact nomatch hF.1.2.mpr hlogged

/-- **The loop**, by induction on the positions to come. -/
theorem runActions (hok : TurnOk C session turn plan cid start at_ called done E) :
    ∀ (rest : List (Tool R X × Json)) (o : Nat) (rs : List Result), plan.drop o = rest →
      o + rest.length = plan.length →
      C.rules.Triple () (Settled (at_ o rs)) (runActions session turn cid o rest)
        (fun results => Settled (at_ plan.length (rs ++ results))) E
  | [], o, rs, _, hlen => by
      rw [List.length_nil, Nat.add_zero] at hlen
      rw [← hlen]
      intro w _ hF
      show Settled (at_ o (rs ++ [])) w
      rw [List.append_nil]
      exact hF
  | (tool, args) :: rest, o, rs, hrest, hlen => by
      have hget : plan[o]? = some (tool, args) := by
        rw [← List.head?_drop, hrest]
        rfl
      have hlt : o < plan.length := (List.getElem?_eq_some_iff.mp hget).1
      have htail : plan.drop (o + 1) = rest := by
        rw [← List.tail_drop, hrest]
        rfl
      refine (append (hok.prepare o rs tool args hget)).bind fun _ => (tick hok.crash).bind fun _ => ?_
      refine (hok.call o rs tool args hget).bind fun res => ?_
      refine (append (hok.observe o rs res hlt)).bind fun _ => (tick hok.crash).bind fun _ => ?_
      rw [List.length_cons] at hlen
      refine (runActions hok rest (o + 1) (rs ++ [res]) htail (by omega)).bind fun results => fun w _ hF => ?_
      show Settled (at_ plan.length (rs ++ res :: results)) w
      have happ : rs ++ res :: results = rs ++ [res] ++ results := by simp
      rw [happ]
      exact hF

/-- **`Coordinator.run_turn`.** -/
theorem run_turn (hraise : ∀ w, E .TypeError w)
    (hok : ∀ cid, commit_id_of (planJson plan) = some cid →
      TurnOk C session turn plan cid start at_ called done E) :
    C.rules.Triple () (Settled start) (run_turn session turn plan) (fun rs => Settled (done rs)) E := by
  refine RelyGuarantee.Triple.bind (Q := fun cid w => commit_id_of (planJson plan) = some cid ∧
    Settled start w) ?_ fun cid => ?_
  · exact .ofOption (fun cid hcid w _ hF => ⟨hcid, hF⟩) fun _ w _ _ => hraise w
  intro w hw hpre
  obtain ⟨hcid, hF⟩ := hpre
  have hturn := hok cid hcid
  have hactions := runActions hturn plan 0 [] rfl (Nat.zero_add _)
  refine RelyGuarantee.Triple.bind (appendUnlessHas hturn.begun hturn.begin) (fun _ => ?_) w hw hF
  refine (tick hturn.crash).bind fun _ => hactions.bind fun rs => ?_
  refine RelyGuarantee.Triple.bind (appendUnlessHas (hturn.ended rs) (hturn.end_ rs)) fun _ => ?_
  exact (tick hturn.crash).bind fun _ => fun _ _ h => h

/-! ## Attempts -/

/-- **The contract of the attempts at a turn** is kept when `run_turn` keeps it. Between two attempts, what
    the invariant says is all that is known. -/
theorem verified (hinv : ∀ d x, C.inv d x → start d x)
    (h : C.rules.Triple () (Settled start) (Gateway.run_turn session turn plan)
      (fun rs => Settled (done rs)) fun _ _ => True) :
    Serial.Verified (attempts session turn plan) C.rules (Settled start) (fun _ => Settled start)
      fun rs => Settled (done rs) where
  main _ := h
  start _ _ hw hF := ⟨hw, hF.idle, hF.fact⟩
  close _ hw := ⟨hw, rfl, hinv _ _ hw⟩

end Contract

end AgentTx.Gateway
