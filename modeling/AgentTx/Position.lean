import AgentTx.Dtx.Alone
import AgentTx.Dtx.Files
import AgentTx.Gateway.Alone
import AgentTx.Gateway.Contract
import AgentTx.Lib.Text

/-!
# `Position` — when the id of an action tells it from every other

An action's id hashes its four fields with `|` between them. The commit id holds hex digits and the ordinal
digits, so the text determines both; but nothing keeps `|` out of a session or a turn, and what is before
the commit id may be split in more than one way (`text_eq_iff`). Two positions that run together so
(`RunTogether`) have one id, and each of the three ways to run an action takes the second for the first. The
protocol never gets that far with an ordinal that its `INTEGER` column does not take: it commits no such action.

Layout of the proof:
* **The text** — `text_eq_iff`: from the right, the ordinal and the commit id can be read off; what is left is
  session, turn and the `|` between them, and there the cut is not determined.
* **The distributed protocol** — how each of `do_charge` and `do_overlay` ends on an action that another one has
  committed, when the ids differ and when they do not.
* **The gateway** — a call looks at the row of its own key (`call_elsewhere`), and answers from one that is there.

Main results: `told_apart_iff`, and two positions with a `|` in the session (`bar_in_session`).
-/

namespace AgentTx

/-- The position of an action. -/
structure Position where
  session : String
  turn : String
  commit_id : String
  ordinal : Nat
  deriving DecidableEq

namespace Position

/-- What `action_id` hashes. -/
def text (a : Position) : String := action_text a.session a.turn a.commit_id a.ordinal

def id (a : Position) : String := action_id a.session a.turn a.commit_id a.ordinal

/-- The commit id is that of a plan. -/
def OfPlan (a : Position) : Prop := ∃ plan, commit_id_of plan = some a.commit_id

/-- The sessions and the turns of the two read the same once they are joined. -/
def RunTogether (a b : Position) : Prop :=
  a.commit_id = b.commit_id ∧ a.ordinal = b.ordinal ∧
    a.session ++ "|" ++ a.turn = b.session ++ "|" ++ b.turn

variable {a b : Position}

theorem OfPlan.notMem (ha : a.OfPlan) : '|' ∉ a.commit_id.toList := by
  obtain ⟨plan, hplan⟩ := ha
  obtain ⟨canon, -, hcid⟩ := Option.map_eq_some_iff.mp hplan
  rw [← hcid]
  exact Sha256.notMem_hexdigest (by decide)

theorem toList_bar (x y : String) : (x ++ "|" ++ y).toList = x.toList ++ '|' :: y.toList := by
  rw [String.toList_append, String.toList_append, List.append_assoc]
  rfl

/-- **What the text determines.** -/
theorem text_eq_iff (ha : a.OfPlan) (hb : b.OfPlan) : a.text = b.text ↔ RunTogether a b := by
  have hbar : ∀ n : Nat, '|' ∉ (toString (n : Int)).toList :=
    fun n => Text.notMem_int (by decide) (by decide) n
  constructor
  · intro h
    unfold text action_text at h
    have hlist := congrArg String.toList h
    rw [toList_bar, toList_bar (b.session ++ "|" ++ b.turn ++ "|" ++ b.commit_id)] at hlist
    -- the last field, the one before it, and the rest
    obtain ⟨hrest, hordinal⟩ := Text.split_last (hbar a.ordinal) (hbar b.ordinal) hlist
    rw [toList_bar, toList_bar (b.session ++ "|" ++ b.turn)] at hrest
    obtain ⟨hst, hcid⟩ := Text.split_last ha.notMem hb.notMem hrest
    have ho : (a.ordinal : Int) = b.ordinal := Text.int_injective (String.toList_inj.mp hordinal)
    exact ⟨String.toList_inj.mp hcid, Int.ofNat.inj ho, String.toList_inj.mp hst⟩
  · rintro ⟨hcid, ho, hst⟩
    unfold text action_text
    rw [hst, hcid, ho]

/-- **Positional identity** is as good as the text, when the hash does not collide on the two. -/
theorem id_eq_iff (ha : a.OfPlan) (hb : b.OfPlan) (hsha : sha256 a.text = sha256 b.text → a.text = b.text) :
    a.id = b.id ↔ RunTogether a b := by
  rw [← text_eq_iff ha hb]
  exact ⟨hsha, congrArg sha256⟩

end Position

/-! ## The distributed protocol -/

namespace Dtx

variable {ι : Type} [DecidableEq ι]

/-- The action was taken for one that is done: it was not run, or it was refused. -/
def TakenForDone {α : Type} (r : Except Exn (Tag × α)) : Prop :=
  (∃ v, r = .ok (.dedup, v)) ∨ r = .error .ContentMismatch

theorem not_takenForDone_error {α : Type} {e : Exn} (he : e ≠ .ContentMismatch) :
    ¬ TakenForDone (.error e : Except Exn (Tag × α)) := by
  rintro (⟨v, hv⟩ | h)
  · cases hv
  · cases h
    exact he rfl

theorem not_takenForDone_committed {α : Type} {v : α} : ¬ TakenForDone (.ok (.committed, v)) := by
  rintro (⟨v, hv⟩ | h)
  · cases hv
  · cases h

/-- The arguments of the actions that are taken for each other. -/
def orderArgs : Json := .obj [(.str "order", .str "O"), (.str "amount", .int 5)]

theorem orderArgs_fingerprint : ∃ afp, args_fingerprint orderArgs = some afp := exists_args_fingerprint rfl

variable [Driver] (x : DTX ι) {db : Db} {fs : FileSys} {held : ι → Option Nat} {s t cid : String} {o : Ordinal}
  {args : Json} {ep : Nat}

/-- An action that has a row is answered from it, or refused. -/
theorem run_do_charge_taken {mid : Bool} {afp : String} {ex : ActionRow} (hafp : args_fingerprint args = some afp)
    (ho : o.taken = true) (howner : db.turn_owner (s, t) = some ep) (hex : db.actions (action_id s t cid o) = some ex) :
    ∃ r, (x.do_charge s t cid o args ep mid).run ⟨rest db, fs, held⟩ = some (r, ⟨rest db, fs, held⟩) := by
  by_cases hfp : ex.args_fp = afp
  · exact ⟨_, DTX.run_do_charge_found x hafp ho howner hex hfp⟩
  · exact ⟨_, DTX.run_do_charge_mismatch x hafp ho howner hex hfp⟩

variable (db fs held s t cid o args ep) in
/-- `do_charge`, however it ends: it touches no other action, takes no action for done that has no row, and commits
    none under an ordinal that the column does not take. -/
theorem run_do_charge (mid : Bool) : ∃ r db',
    (x.do_charge s t cid o args ep mid).run ⟨rest db, fs, held⟩ = some (r, ⟨rest db', fs, held⟩) ∧
      (∀ aid, aid ≠ action_id s t cid o → db'.actions aid = db.actions aid) ∧
      (db.actions (action_id s t cid o) = none → ¬ TakenForDone r) ∧
      ((∃ v, r = .ok (.committed, v)) → o.taken = true) := by
  -- an exception: nothing is written
  have hfailed : ∀ {e : Exn}, e ≠ .ContentMismatch →
      (x.do_charge s t cid o args ep mid).run ⟨rest db, fs, held⟩ = some (.error e, ⟨rest db, fs, held⟩) →
      ∃ r db', (x.do_charge s t cid o args ep mid).run ⟨rest db, fs, held⟩ = some (r, ⟨rest db', fs, held⟩) ∧
        (∀ aid, aid ≠ action_id s t cid o → db'.actions aid = db.actions aid) ∧
        (db.actions (action_id s t cid o) = none → ¬ TakenForDone r) ∧
        ((∃ v, r = .ok (.committed, v)) → o.taken = true) := by
    intro e he hrun
    exact ⟨_, db, hrun, fun _ _ => rfl, fun _ => not_takenForDone_error he, nofun⟩
  cases hafp : args_fingerprint args with
  | none =>
    have hunserializable : (x.do_charge s t cid o args ep mid).run ⟨rest db, fs, held⟩ =
        some (.error .TypeError, ⟨rest db, fs, held⟩) := by simp [DTX.do_charge, hafp]
    exact hfailed (by simp) hunserializable
  | some afp =>
    by_cases howner : db.turn_owner (s, t) = some ep
    · rcases Bool.eq_false_or_eq_true o.taken with ho | ho
      · rcases Option.eq_none_or_eq_some (db.actions (action_id s t cid o)) with hrow | ⟨ex, hrow⟩
        · cases horder : subscript args "order" with
          | error e =>
            exact hfailed (subscript_error horder) (DTX.run_do_charge_failed x hafp ho howner hrow (Or.inl horder))
          | ok order =>
            cases hamount : subscript args "amount" with
            | error e =>
              exact hfailed (subscript_error hamount)
                (DTX.run_do_charge_failed x hafp ho howner hrow (Or.inr ⟨order, horder, hamount⟩))
            | ok amount =>
              cases hbill : billable order amount with
              | false =>
                exact hfailed (by simp) (DTX.run_do_charge_refused x hafp ho horder hamount hbill howner hrow)
              | true =>
                cases mid with
                | true =>
                  exact hfailed (by simp) (DTX.run_do_charge_crash x hafp ho horder hamount hbill howner hrow)
                | false =>
                  refine ⟨_, _, DTX.run_do_charge_new x hafp ho horder hamount hbill howner hrow, ?_,
                    fun _ => not_takenForDone_committed, fun _ => ho⟩
                  intro aid hne
                  exact Contract.charged_action_of_ne (p := ⟨db, fs, held⟩) hne
        · obtain ⟨r, hrun⟩ := run_do_charge_taken x hafp ho howner hrow
          exact ⟨r, db, hrun, fun _ _ => rfl, fun hnone => by simp [hrow] at hnone, fun _ => ho⟩
      · exact hfailed (by simp) (DTX.run_do_charge_unbound x hafp ho howner)
    · exact hfailed (by simp) (DTX.run_do_charge_stale x hafp howner)

variable (db fs held s t cid o args ep) in
/-- `do_overlay`, however it ends: it touches no other action, takes no action for done that has no receipt, and
    commits none under an ordinal that the column does not take. -/
theorem run_do_overlay (store : String) : ∃ r db' fs',
    (x.do_overlay s t cid o args ep store).run ⟨rest db, fs, held⟩ = some (r, ⟨rest db', fs', held⟩) ∧
      (∀ aid, aid ≠ action_id s t cid o → db'.actions aid = db.actions aid) ∧
      (∀ store' aid, aid ≠ action_id s t cid o →
        fs'.dir (DTX.receipt store' aid) = fs.dir (DTX.receipt store' aid)) ∧
      (fs.dir (DTX.receipt store (action_id s t cid o)) = none → ¬ TakenForDone r) ∧
      ((∃ v, r = .ok (.committed, v)) → o.taken = true) := by
  cases hafp : args_fingerprint args with
  | none =>
    exact ⟨.error .TypeError, db, fs, by simp [DTX.do_overlay, hafp], by simp, by simp,
      fun _ => not_takenForDone_error (by simp), by simp⟩
  | some afp =>
    obtain ⟨text, htext, -⟩ := Option.map_eq_some_iff.mp hafp
    have hname : ∀ {store' aid}, aid ≠ action_id s t cid o →
        DTX.receipt store' aid ≠ DTX.receipt store (action_id s t cid o) :=
      fun hne h => hne (receipt_injective h)
    cases ho : o.taken with
    | false =>
      obtain ⟨fs', hrun, hdir⟩ := DTX.run_do_overlay_unbound x db fs held ep hafp htext ho
      exact ⟨_, db, fs', hrun, fun _ _ => rfl, fun _ _ hne => hdir _ receipt_ne_temp (hname hne),
        fun _ => not_takenForDone_error (by simp), by simp⟩
    | true =>
      cases hfile : fs.dir (DTX.receipt store (action_id s t cid o)) with
      | some n =>
        have hthere : (fs.dir (DTX.receipt store (action_id s t cid o))).isSome := by simp [hfile]
        exact ⟨_, _, fs, DTX.run_do_overlay_found x hafp ho hthere, fun aid hne => DTX.recorded_of_ne hne, by simp,
          fun hnone => absurd hnone (by simp), fun _ => rfl⟩
      | none =>
        obtain ⟨fs', n, hrun, hdir, -⟩ := DTX.run_do_overlay_new x db held ep hafp htext ho hfile
        refine ⟨_, _, fs', hrun, fun aid hne => DTX.recorded_of_ne hne, ?_, fun _ => not_takenForDone_committed,
          fun _ => rfl⟩
        intro store' aid hne
        rw [hdir, Function.update_of_ne (hname hne), Function.update_of_ne receipt_ne_temp]

/-! ### Committing one action, and running another -/

/-- The action is committed, as a charge or as an overlay. -/
inductive Commits (a : Position) (w w' : World ι) : Prop
  | charge (args : Json) (ep : Nat) (mid : Bool) (v : Option Json)
      (h : (x.do_charge a.session a.turn a.commit_id (.int a.ordinal) args ep mid).run w =
        some (.ok (.committed, v), w'))
  | overlay (args : Json) (ep : Nat) (store : String) (path : FsPath)
      (h : (x.do_overlay a.session a.turn a.commit_id (.int a.ordinal) args ep store).run w =
        some (.ok (.committed, path), w'))

/-- What committing one action leaves of the others. -/
theorem Commits.elsewhere {x : DTX ι} {a : Position} {w' : World ι} (h : Commits x a ⟨rest db, fs, held⟩ w') :
    ∃ db' fs', w' = ⟨rest db', fs', held⟩ ∧ (∀ aid, aid ≠ a.id → db'.actions aid = db.actions aid) ∧
      ∀ store aid, aid ≠ a.id → fs'.dir (DTX.receipt store aid) = fs.dir (DTX.receipt store aid) := by
  cases h with
  | charge args ep mid v h =>
    obtain ⟨r, db', hrun, hactions, -, -⟩ :=
      run_do_charge x db fs held a.session a.turn a.commit_id (.int a.ordinal) args ep mid
    cases hrun.symm.trans h
    exact ⟨db', fs, rfl, hactions, fun _ _ _ => rfl⟩
  | overlay args ep store path h =>
    obtain ⟨r, db', fs', hrun, hactions, hfiles, -, -⟩ :=
      run_do_overlay x db fs held a.session a.turn a.commit_id (.int a.ordinal) args ep store
    cases hrun.symm.trans h
    exact ⟨db', fs', rfl, hactions, hfiles⟩

/-- The ordinal of a committed action is one that the column takes. -/
theorem Commits.taken {x : DTX ι} {a : Position} {w' : World ι} (h : Commits x a ⟨rest db, fs, held⟩ w') :
    (Ordinal.int a.ordinal).taken = true := by
  cases h with
  | charge args ep mid v h =>
    obtain ⟨r, db', hrun, -, -, htaken⟩ :=
      run_do_charge x db fs held a.session a.turn a.commit_id (.int a.ordinal) args ep mid
    cases hrun.symm.trans h
    exact htaken ⟨v, rfl⟩
  | overlay args ep store path h =>
    obtain ⟨r, db', fs', hrun, -, -, -, htaken⟩ :=
      run_do_overlay x db fs held a.session a.turn a.commit_id (.int a.ordinal) args ep store
    cases hrun.symm.trans h
    exact htaken ⟨path, rfl⟩

variable (y : DTX ι)

/-- Once `a` is committed, `do_charge` does not take `b`, which has no row, for done. -/
def ChargeTellsApart (a b : Position) : Prop :=
  ∀ db fs held w, Commits x a ⟨rest db, fs, held⟩ w → db.actions b.id = none →
    ∀ args ep mid r w', (y.do_charge b.session b.turn b.commit_id (.int b.ordinal) args ep mid).run w = some (r, w') →
      ¬ TakenForDone r

/-- Once `a` is committed, `do_overlay` does not take `b`, which has no receipt, for done. -/
def OverlayTellsApart (a b : Position) : Prop :=
  ∀ db fs held w store, Commits x a ⟨rest db, fs, held⟩ w → fs.dir (DTX.receipt store b.id) = none →
    ∀ args ep r w', (y.do_overlay b.session b.turn b.commit_id (.int b.ordinal) args ep store).run w = some (r, w') →
      ¬ TakenForDone r

variable {x y} {a b : Position}

/-- A position whose ordinal the column does not take is never committed. -/
theorem chargeTellsApart_of_unbound (h : (Ordinal.int a.ordinal).taken = false) : ChargeTellsApart x y a b := by
  intro db fs held w hcommits
  cases h.symm.trans hcommits.taken

theorem overlayTellsApart_of_unbound (h : (Ordinal.int a.ordinal).taken = false) : OverlayTellsApart x y a b := by
  intro db fs held w store hcommits
  cases h.symm.trans hcommits.taken

theorem chargeTellsApart_of_ne (h : a.id ≠ b.id) : ChargeTellsApart x y a b := by
  intro db fs held w hcommits hnone args ep mid r w' hrun
  obtain ⟨db', fs', rfl, hactions, -⟩ := hcommits.elsewhere
  obtain ⟨r', db'', hrun', -, hanswer, -⟩ :=
    run_do_charge y db' fs' held b.session b.turn b.commit_id (.int b.ordinal) args ep mid
  cases hrun'.symm.trans hrun
  exact hanswer ((hactions b.id (Ne.symm h)).trans hnone)

theorem overlayTellsApart_of_ne (h : a.id ≠ b.id) : OverlayTellsApart x y a b := by
  intro db fs held w store hcommits hnone args ep r w' hrun
  obtain ⟨db', fs', rfl, -, hfiles⟩ := hcommits.elsewhere
  obtain ⟨r', db'', fs'', hrun', -, -, hanswer, -⟩ :=
    run_do_overlay y db' fs' held b.session b.turn b.commit_id (.int b.ordinal) args ep store
  cases hrun'.symm.trans hrun
  exact hanswer ((hfiles store b.id (Ne.symm h)).trans hnone)

/-- With one id, the second charge is taken for the first. -/
theorem not_chargeTellsApart (h : a.id = b.id) (ha : (Ordinal.int a.ordinal).taken = true)
    (hb : (Ordinal.int b.ordinal).taken = true) : ¬ ChargeTellsApart x y a b := by
  intro happart
  obtain ⟨afp, hafp⟩ := orderArgs_fingerprint
  -- every turn is owned by epoch 1
  let db : Db := { Db.empty with turn_owner := fun _ => some 1 }
  let fs : FileSys := .empty
  let held : ι → Option Nat := fun _ => none
  let row := DTX.chargeRow a.session a.turn (.int a.ordinal) afp 1
  let db' := (Public.commit ⟨db, fs, held⟩ (Contract.chargeWrites a.id row (.str "O") (.int 5))).db
  have hbill : billable (.str "O") (.int 5) = true := billable_plain (by decide) (by decide) (by decide)
  have hfirst : (x.do_charge a.session a.turn a.commit_id (.int a.ordinal) orderArgs 1 false).run
      ⟨rest db, fs, held⟩ = some (.ok (.committed, _), ⟨rest db', fs, held⟩) :=
    DTX.run_do_charge_new x hafp ha rfl rfl hbill rfl rfl
  have hrow : db'.actions b.id = some { row with
      result := some (Json.obj [(.str "order", .str "O"), (.str "amount", .int 5)]).dumps } := by
    rw [← h]
    exact Contract.charged_action_self
  have hsecond : ∃ v, (y.do_charge b.session b.turn b.commit_id (.int b.ordinal) orderArgs 1 false).run
      ⟨rest db', fs, held⟩ = some (.ok (.dedup, v), ⟨rest db', fs, held⟩) := by
    rw [DTX.run_do_charge_found y hafp hb rfl hrow rfl, ActionRow.value_dumps rfl]
    exact ⟨_, rfl⟩
  obtain ⟨v, hsecond⟩ := hsecond
  exact happart db fs held _ (.charge _ _ _ _ hfirst) rfl orderArgs 1 false _ _ hsecond (Or.inl ⟨v, rfl⟩)

/-- With one id, the second receipt is taken for the first. -/
theorem not_overlayTellsApart (h : a.id = b.id) (ha : (Ordinal.int a.ordinal).taken = true)
    (hb : (Ordinal.int b.ordinal).taken = true) : ¬ OverlayTellsApart x y a b := by
  intro happart
  obtain ⟨afp, hafp⟩ := orderArgs_fingerprint
  obtain ⟨text, htext, -⟩ := Option.map_eq_some_iff.mp hafp
  let held : ι → Option Nat := fun _ => none
  have hfirst : ∃ fs' n, (x.do_overlay a.session a.turn a.commit_id (.int a.ordinal) orderArgs 1 "/x").run
      ⟨rest Db.empty, .empty, held⟩ = some (.ok (.committed, DTX.receipt "/x" a.id), ⟨rest _, fs', held⟩) ∧
      fs'.dir = Function.update _ (DTX.receipt "/x" a.id) (some n) ∧ fs'.Survives (DTX.receipt "/x" a.id) :=
    DTX.run_do_overlay_new x Db.empty held 1 hafp htext ha rfl
  obtain ⟨fs', n, hfirst, hdir, -⟩ := hfirst
  have hfile : (fs'.dir (DTX.receipt "/x" b.id)).isSome := by
    rw [← h, hdir, Function.update_self]
    rfl
  exact happart _ _ _ _ "/x" (.overlay _ _ _ _ hfirst) rfl orderArgs 1 _ _
    (DTX.run_do_overlay_found y hafp hb hfile) (Or.inl ⟨_, rfl⟩)

end Dtx

/-! ## The gateway -/

namespace Gateway

variable [Driver] {R X : Type} {tool : Tool R X} {args : Json} {session turn cid k : String} {o : Int}

/-- What is known of a key that has no row. -/
def NoRow (k : String) (d : Db R) (_ : X) : Prop := d.gw_keys k = none

/-- Nothing is asked of the tables. -/
def free (R X : Type) : Contract R X where
  inv _ _ := True
  may _ _ _ _ := True
  may_refl _ _ := trivial

/-- A call leaves every other key alone. -/
theorem call_elsewhere (hk : k ≠ action_id session turn cid o) :
    (free R X).rules.Triple () (Contract.Settled (NoRow k)) (call tool args session turn o cid)
      (fun _ => Contract.Settled (NoRow k)) fun _ _ => True := by
  refine Contract.call_frame (F := fun d => d.gw_keys k = none) ?_ ?_ (fun _ _ _ _ => trivial)
    (fun _ _ _ => trivial) fun _ _ => trivial
  · exact fun afp status klass result d x _ hnone => ⟨trivial, trivial, (record_gw_keys_of_ne hk).trans hnone⟩
  · exact fun afp rows stored d x _ hnone => ⟨trivial, trivial, (record_gw_keys_of_ne hk).trans hnone⟩

/-- The action was taken for one that is done: it was not run, or it was refused. -/
def TakenForDone (r : Except Exn Result) : Prop :=
  (∃ res, r = .ok res ∧ res.status = .dedup_hit) ∨ r = .error .ContentMismatch

/-- A call takes no action for done whose key has no row. -/
theorem call_unseen :
    (free R X).rules.Triple () (Contract.Settled (NoRow (action_id session turn cid o)))
      (call tool args session turn o cid) (fun res => Contract.Settled fun _ _ => res.status ≠ .dedup_hit)
      fun e _ => e ≠ .ContentMismatch := by
  let known (_ : Db R) (_ : X) : Prop := True
  let ph : Contract.Phases R X :=
    ⟨NoRow (action_id session turn cid o), known, known, known, fun _ => known, known, known,
      fun res _ _ => res.status ≠ .dedup_hit⟩
  have hrow : ∀ {d : Db R} {x : X} {r : KeyRow}, ph.before d x →
      d.gw_keys (action_id session turn cid o) ≠ some r := by
    intro d x r hnone hr
    cases hr.symm.trans hnone
  have houtside : ∀ {α : Type} (key : String) (p : Prog Unit X String α),
      (free R X).rules.Triple () (Contract.Settled known) (outside key p) (fun _ => Contract.Settled known)
        fun e _ => e ≠ .ContentMismatch := by
    intro α key p
    exact Contract.outside (F := fun _ => True) (fun _ _ _ _ => trivial) (fun _ _ _ => trivial)
      (fun _ _ => nofun) p
  suffices hok : ∀ afp, Contract.CallOk (free R X) tool (action_id session turn cid o) afp args ph
      fun e _ => e ≠ .ContentMismatch from Contract.call (fun afp _ => hok afp) fun _ => nofun
  intro afp
  constructor
  case raises => exact fun e _ he => he
  case mismatch => exact fun w r _ hF hr _ => absurd hr (hrow hF.fact)
  case new => exact fun _ _ _ _ _ => trivial
  case found => exact fun _ _ r _ hF _ hr _ => absurd hr (hrow hF)
  case compensate => exact fun _ => houtside _ _
  case undo => exact fun _ _ _ _ _ => ⟨trivial, trivial, nofun⟩
  case db_effect => exact fun _ _ _ _ _ _ _ _ _ _ => ⟨trivial, trivial, nofun⟩
  case prepare => exact fun _ _ _ _ _ => ⟨trivial, trivial, trivial⟩
  case begin => exact fun _ _ _ _ _ => ⟨trivial, trivial, trivial⟩
  case intend => exact fun _ _ _ _ _ => ⟨trivial, trivial, trivial⟩
  case direct => exact fun _ _ _ _ _ _ _ => trivial
  case effect => exact fun _ => houtside _ _
  case finish => exact fun _ _ _ _ _ _ _ _ => ⟨trivial, trivial, nofun⟩

/-! ### Committing one action, and running another -/

/-- Once `a` is committed, a call does not take `b`, whose key has no row, for done. -/
def CallTellsApart (a b : Position) : Prop :=
  ∀ (R X : Type) (tool tool' : Tool R X) (args args' : Json) (d : Db R) (x : X) (clk clk' : Clock) (res : Result)
    (w : World R X), (call tool args a.session a.turn a.ordinal a.commit_id).run (settled d x clk) = some (.ok res, w) →
      res.status = .committed → d.gw_keys b.id = none →
        ∀ r w', (call tool' args' b.session b.turn b.ordinal b.commit_id).run { w with clock := clk' } = some (r, w') →
          ¬ TakenForDone r

variable {a b : Position}

theorem callTellsApart_of_ne (h : a.id ≠ b.id) : CallTellsApart a b := by
  intro R X tool tool' args args' d x clk clk' res w hfirst _ hnone r w' hsecond
  have hstart : Contract.Settled (NoRow b.id) (settled d x clk) := ⟨rfl, hnone⟩
  have hw : Contract.Settled (NoRow b.id) w :=
    ((call_elsewhere (Ne.symm h)).run (fun _ _ => trivial) trivial hstart hfirst).2.1 res rfl
  have hw' : Contract.Settled (NoRow b.id) { w with clock := clk' } := ⟨hw.idle, hw.fact⟩
  obtain ⟨-, hret, hraise⟩ := call_unseen.run (fun _ _ => trivial) trivial hw' hsecond
  rintro (⟨res', rfl, hst⟩ | rfl)
  · exact (hret res' rfl).fact hst
  · exact hraise _ rfl rfl

/-- A tool that only answers. -/
def answering : Tool Unit Unit where
  name := "answer"
  klass := .pure
  effect _ _ := .ret (.str "v")

/-- With one id, the second call is taken for the first. -/
theorem not_callTellsApart (h : a.id = b.id) : ¬ CallTellsApart a b := by
  intro happart
  obtain ⟨afp, hafp⟩ := Dtx.orderArgs_fingerprint
  let d : Db Unit := ⟨fun _ => none, [], []⟩
  let d' := d.record a.id afp .committed .pure (some "v")
  have hstored : Driver.text (.str "v") = some (some "v") := Driver.text_str "v" (by decide)
  have hfirst : (call answering Dtx.orderArgs a.session a.turn a.ordinal a.commit_id).run (settled d () ⟨0, 0⟩) =
      some (.ok ⟨.committed, .str "v", a.id, .pure⟩, settled d' () ⟨2, 0⟩) :=
    run_call_direct rfl (Or.inr (Or.inr rfl)) hafp rfl rfl hstored
  have hrow : d'.gw_keys b.id = some ⟨some afp, .committed, .pure, some "v"⟩ := by
    rw [← h]
    exact Db.record_of_none rfl ..
  have hsecond : (call answering Dtx.orderArgs b.session b.turn b.ordinal b.commit_id).run
      (settled d' () ⟨0, 0⟩) = some (.ok ⟨.dedup_hit, .str "v", b.id, .pure⟩, settled d' () ⟨0, 0⟩) :=
    run_call_dedup hafp hrow rfl rfl
  exact happart Unit Unit answering answering Dtx.orderArgs Dtx.orderArgs d () ⟨0, 0⟩ ⟨0, 0⟩ _ _ hfirst rfl rfl
    _ _ hsecond (Or.inl ⟨_, rfl, rfl⟩)

end Gateway

namespace Position

/-! ## Positional identity -/

section Identity

variable {ι : Type} [DecidableEq ι] [Driver]

/-- **Two actions are told apart unless they run together**: by a call of the gateway, by their ids, and, under an
    ordinal that the column takes, by `do_charge` and by `do_overlay`. -/
theorem told_apart_iff (x y : Dtx.DTX ι) (a b : Position) (ha : a.OfPlan) (hb : b.OfPlan)
    (hsha : sha256 a.text = sha256 b.text → a.text = b.text) :
    (Dtx.ChargeTellsApart x y a b ↔ ¬ (RunTogether a b ∧ (Ordinal.int a.ordinal).taken)) ∧
      (Dtx.OverlayTellsApart x y a b ↔ ¬ (RunTogether a b ∧ (Ordinal.int a.ordinal).taken)) ∧
      (Gateway.CallTellsApart a b ↔ ¬ RunTogether a b) ∧ (a.id ≠ b.id ↔ ¬ RunTogether a b) := by
  have hid : a.id = b.id ↔ RunTogether a b := id_eq_iff ha hb hsha
  -- positions that run together have one ordinal
  have htaken : RunTogether a b → (Ordinal.int a.ordinal).taken = true → (Ordinal.int b.ordinal).taken = true := by
    rintro ⟨-, ho, -⟩ ha
    rwa [← ho]
  refine ⟨⟨?_, fun h => ?_⟩, ⟨?_, fun h => ?_⟩, ⟨?_, fun h => ?_⟩, not_congr hid⟩
  · exact fun happart h => Dtx.not_chargeTellsApart (hid.mpr h.1) h.2 (htaken h.1 h.2) happart
  · rcases not_and_or.mp h with hrun | ho
    · exact Dtx.chargeTellsApart_of_ne fun heq => hrun (hid.mp heq)
    · exact Dtx.chargeTellsApart_of_unbound (Bool.eq_false_iff.mpr ho)
  · exact fun happart h => Dtx.not_overlayTellsApart (hid.mpr h.1) h.2 (htaken h.1 h.2) happart
  · rcases not_and_or.mp h with hrun | ho
    · exact Dtx.overlayTellsApart_of_ne fun heq => hrun (hid.mp heq)
    · exact Dtx.overlayTellsApart_of_unbound (Bool.eq_false_iff.mpr ho)
  · exact fun happart h => Gateway.not_callTellsApart (hid.mpr h) happart
  · exact Gateway.callTellsApart_of_ne fun heq => h (hid.mp heq)

end Identity

/-- The commit id of the empty plan. -/
def emptyPlan : String := (commit_id_of (.arr [])).getD ""

theorem ofPlan_emptyPlan (s t : String) (o : Nat) : OfPlan ⟨s, t, emptyPlan, o⟩ := by
  obtain ⟨cid, hcid⟩ : ∃ cid, commit_id_of (.arr []) = some cid := exists_commit_id rfl
  refine ⟨.arr [], ?_⟩
  show _ = some emptyPlan
  rw [emptyPlan, hcid]
  rfl

local instance driver : Driver := .postgres

/-- Two positions of one plan. -/
theorem told_apart_ordinals : let a : Position := ⟨"s", "t", emptyPlan, 0⟩
    let b : Position := ⟨"s", "t", emptyPlan, 1⟩
    Dtx.ChargeTellsApart (⟨(), true, 0⟩ : Dtx.DTX Unit) ⟨(), true, 0⟩ a b ∧
      Dtx.OverlayTellsApart (⟨(), true, 0⟩ : Dtx.DTX Unit) ⟨(), true, 0⟩ a b ∧ Gateway.CallTellsApart a b ∧
      a.id ≠ b.id := by
  intro a b
  have hsha : sha256 a.text ≠ sha256 b.text := by decide +kernel
  have hapart : ¬ RunTogether a b := by
    rintro ⟨-, ho, -⟩
    cases ho
  obtain ⟨hcharge, hoverlay, hcall, hid⟩ := told_apart_iff (⟨(), true, 0⟩ : Dtx.DTX Unit) ⟨(), true, 0⟩ a b
    (ofPlan_emptyPlan "s" "t" 0) (ofPlan_emptyPlan "s" "t" 1) fun h => absurd h hsha
  exact ⟨hcharge.mpr fun h => hapart h.1, hoverlay.mpr fun h => hapart h.1, hcall.mpr hapart, hid.mpr hapart⟩

/-- A session that ends where another's turn begins. -/
theorem bar_in_session : let a : Position := ⟨"a|b", "c", emptyPlan, 0⟩
    let b : Position := ⟨"a", "b|c", emptyPlan, 0⟩
    a.OfPlan ∧ b.OfPlan ∧ a ≠ b ∧ ¬ Dtx.ChargeTellsApart (⟨(), true, 0⟩ : Dtx.DTX Unit) ⟨(), true, 0⟩ a b ∧
      ¬ Dtx.OverlayTellsApart (⟨(), true, 0⟩ : Dtx.DTX Unit) ⟨(), true, 0⟩ a b ∧ ¬ Gateway.CallTellsApart a b := by
  intro a b
  have htext : a.text = b.text := (text_eq_iff (ofPlan_emptyPlan _ _ _) (ofPlan_emptyPlan _ _ _)).mpr ⟨rfl, rfl, rfl⟩
  have hid : a.id = b.id := congrArg sha256 htext
  have htaken : (Ordinal.int 0).taken = true := Ordinal.taken_int (by decide) (by decide)
  exact ⟨ofPlan_emptyPlan _ _ _, ofPlan_emptyPlan _ _ _, by decide, Dtx.not_chargeTellsApart hid htaken htaken,
    Dtx.not_overlayTellsApart hid htaken htaken, Gateway.not_callTellsApart hid⟩

end Position

end AgentTx
