import AgentTx.Dtx.Content
import AgentTx.Dtx.Plan
import AgentTx.Lib.Json.Order

/-!
# `Dtx.Reload` — a plan in memory, and the same plan reloaded

The plan that `load_plan` gives back has strings for keys. Its identity (the commit id, the fingerprints of the
arguments) is hashed from the keys sorted as strings, and that of the plan in memory from the keys sorted as
they are: the two agree exactly on the plans whose `int` keys are ordered like their texts (`Json.Ordered`).

Layout of the proof:
* **Fingerprints** — `Json.dumpsSorted_stringKeys`: the canonical text is the same exactly on ordered values.
* **Executed steps** — a step that is run has its row, with the fingerprint of its arguments
  (`run_runSteps_executed`); a step that has it is answered from the row and not refused (`run_runSteps_replayed`).
* **Plans** — an ordered plan has one identity (`sameIdentity_of_ordered`), and a plan with one identity is ordered,
  unless SHA-256 collides (`ordered_of_sameIdentity`).

Main results: `identity_durable`, and the keys 2 and 10 (`not_identity_durable`).
-/

namespace AgentTx.Dtx.Reload

variable {ι : Type}

/-- Rows stay, with their fingerprints. -/
def RowsKept (db db' : Db) : Prop :=
  ∀ aid row, db.actions aid = some row → ∃ row', db'.actions aid = some row' ∧ row'.args_fp = row.args_fp

theorem RowsKept.refl (db : Db) : RowsKept db db := fun _ row hrow => ⟨row, hrow, Eq.refl _⟩

theorem RowsKept.trans {db db' db'' : Db} (h : RowsKept db db') (h' : RowsKept db' db'') : RowsKept db db'' := by
  intro aid row hrow
  obtain ⟨row', hrow', hfp⟩ := h aid row hrow
  obtain ⟨row'', hrow'', hfp'⟩ := h' aid row' hrow'
  exact ⟨row'', hrow'', hfp'.trans hfp⟩

section Identity

variable (ι) (s t cid : String) (plan plan' : List Json)

/-- The two plans have one identity: one commit id, the same fingerprints; and a recovery that runs the first
    steps of `plan'` does not raise `ContentMismatch` where those of `plan` have been run. -/
structure SameIdentity [DecidableEq ι] [Driver] : Prop where
  commit_id : commit_id_of (.arr plan') = commit_id_of (.arr plan)
  args : ∀ (i : Nat) step args, plan[i]? = some step → subscript step "args" = .ok args →
    ∃ step' args', plan'[i]? = some step' ∧ subscript step' "args" = .ok args' ∧
      args_fingerprint args' = args_fingerprint args
  replay : ∀ (x y : DTX ι) (n ep ep' : Nat) (crash_at crash_at' : Option Int) db fs held rs w db₂ fs₂ held₂ r w₂,
    (x.runSteps s t cid ep crash_at (plan.take n)).run ⟨rest db, fs, held⟩ = some (.ok rs, w) →
    RowsKept w.server.db db₂ →
    (y.runSteps s t cid ep' crash_at' (plan'.take n)).run ⟨rest db₂, fs₂, held₂⟩ = some (r, w₂) →
      r ≠ .error .ContentMismatch

end Identity

/-! ## Fingerprints -/

theorem canonical_args_ordered {v : Json} {text : String} (h : canonical_args v = some text) :
    ∃ text', canonical_args v.stringKeys = some text' ∧ (text' = text ↔ v.Ordered) :=
  Json.dumpsSorted_stringKeys h

theorem not_numeric_args : ¬ Json.Numeric "args" := by
  have htext : "args".toList = 'a' :: "rgs".toList := rfl
  exact Json.not_numeric htext (by decide)

theorem subscript_get? {m v : Json} {k : String} (h : subscript m k = .ok v) : m.get? k = some v := by
  cases m with
  | obj ms =>
    unfold subscript at h
    cases hget : (Json.obj ms).get? k with
    | none =>
      rw [hget] at h
      cases h
    | some x =>
      rw [hget] at h
      cases h
      rfl
  | _ => cases h

/-- `args` of a reloaded step. -/
theorem subscript_stringKeys {step args : Json} (h : subscript step "args" = .ok args) :
    subscript step.stringKeys "args" = .ok args.stringKeys := by
  have hget := Json.get?_stringKeys not_numeric_args step
  rw [subscript_get? h] at hget
  cases step with
  | obj ms =>
    show ((Json.obj ms).stringKeys.get? "args").elim _ _ = _
    rw [hget]
    rfl
  | _ => cases h

/-- The arguments of an ordered step that can be serialised have the fingerprint that they have when they are
    reloaded. -/
theorem args_fingerprint_stringKeys {step args : Json} (hordered : step.Ordered)
    (hsort : (canonical_args step).isSome) (hargs : subscript step "args" = .ok args) :
    args_fingerprint args.stringKeys = args_fingerprint args := by
  have hget : step.get? "args" = some args := subscript_get? hargs
  obtain ⟨text, htext⟩ := Option.isSome_iff_exists.mp hsort
  obtain ⟨v', hv', -⟩ := Option.map_eq_some_iff.mp htext
  have hsorted := Json.get?_sortKeys "args" hv'
  rw [hget] at hsorted
  obtain ⟨x', -, hx'⟩ := Option.map_eq_some_iff.mp hsorted.symm
  have hcanon : canonical_args args = some x'.dumps := by
    rw [canonical_args, Json.dumpsSorted, ← hx']
    rfl
  obtain ⟨text', htext', hiff⟩ := canonical_args_ordered hcanon
  rw [args_fingerprint, args_fingerprint, hcanon, htext', hiff.mpr (hordered.get? hget)]

/-! ## Executed steps -/

/-- The step has a row, with the fingerprint of its arguments. -/
def Executed (s t cid : String) (db : Db) (step : Json) : Prop :=
  ∃ o args row, ordinalOf step = .ok o ∧ subscript step "args" = .ok args ∧
    db.actions (action_id s t cid o) = some row ∧ args_fingerprint args = some row.args_fp

section Runs

variable [DecidableEq ι] [Driver] {x : DTX ι} {s t cid : String} {ep : Nat} {crash_at : Option Int} {db : Db}
  {fs : FileSys} {held : ι → Option Nat}

omit [Driver] in
theorem Executed.kept {db' : Db} {step : Json} (h : Executed s t cid db step) (hkept : RowsKept db db') :
    Executed s t cid db' step := by
  obtain ⟨o, args, row, ho, hargs, hrow, hfp⟩ := h
  obtain ⟨row', hrow', hfp'⟩ := hkept _ row hrow
  exact ⟨o, args, row', ho, hargs, hrow', hfp'.symm ▸ hfp⟩

omit [Driver] in
/-- The writes of a charge. -/
theorem rowsKept_charge {aid : String} (row : ActionRow) (order amount : Json) (hnone : db.actions aid = none) :
    let db' := (Contract.chargeWrites aid row order amount).foldl (fun d w => w.apply d) db
    RowsKept db db' ∧ ∃ row', db'.actions aid = some row' ∧ row'.args_fp = row.args_fp := by
  -- the writes, as those of a commit
  let p : Public Unit := ⟨db, .empty, fun _ => none⟩
  constructor
  · intro aid' row' hrow'
    have hne : aid' ≠ aid := by
      rintro rfl
      rw [hnone] at hrow'
      cases hrow'
    exact ⟨row', (Contract.charged_action_of_ne (p := p) hne).trans hrow', rfl⟩
  · exact ⟨_, Contract.charged_action_self (p := p), rfl⟩

/-- A claim that is won, of a charge that returns. -/
theorem run_charge_ok {o : Ordinal} {args order amount : Json} {mid : Bool} {afp : String} {r : Tag × Option Json}
    {w : World ι} (hafp : args_fingerprint args = some afp) (htaken : o.taken = true)
    (horder : subscript args "order" = .ok order) (hamount : subscript args "amount" = .ok amount)
    (howner : db.turn_owner (s, t) = some ep) (hrow : db.actions (action_id s t cid o) = none)
    (hrun : (x.do_charge s t cid o args ep mid).run ⟨rest db, fs, held⟩ = some (.ok r, w)) :
    ∃ db', w = ⟨rest db', fs, held⟩ ∧ RowsKept db db' ∧
      ∃ row, db'.actions (action_id s t cid o) = some row ∧ some afp = some row.args_fp := by
  cases hbill : billable order amount with
  | false =>
    rw [x.run_do_charge_refused hafp htaken horder hamount hbill howner hrow] at hrun
    cases hrun
  | true =>
    cases mid with
    | true =>
      rw [x.run_do_charge_crash hafp htaken horder hamount hbill howner hrow] at hrun
      cases hrun
    | false =>
      rw [x.run_do_charge_new hafp htaken horder hamount hbill howner hrow] at hrun
      obtain ⟨hkept, row, hrow', hfp⟩ := rowsKept_charge (DTX.chargeRow s t o afp ep) order amount hrow
      exact ⟨_, (congrArg Prod.snd (Option.some.inj hrun)).symm, hkept, row, hrow', by rw [hfp]; rfl⟩

/-- A charge that returns has its row. -/
theorem run_do_charge_ok {o : Ordinal} {args : Json} {mid : Bool} {r : Tag × Option Json} {w : World ι}
    (hrun : (x.do_charge s t cid o args ep mid).run ⟨rest db, fs, held⟩ = some (.ok r, w)) :
    ∃ db', w = ⟨rest db', fs, held⟩ ∧ RowsKept db db' ∧
      ∃ row, db'.actions (action_id s t cid o) = some row ∧ args_fingerprint args = some row.args_fp := by
  cases hafp : args_fingerprint args with
  | none => simp [DTX.do_charge, hafp] at hrun
  | some afp =>
    by_cases howner : db.turn_owner (s, t) = some ep
    · cases htaken : o.taken with
      | false =>
        rw [x.run_do_charge_unbound hafp htaken howner] at hrun
        cases hrun
      | true =>
        cases hrow : db.actions (action_id s t cid o) with
        | some ex =>
          by_cases hfp : ex.args_fp = afp
          · rw [x.run_do_charge_found hafp htaken howner hrow hfp] at hrun
            exact ⟨db, (congrArg Prod.snd (Option.some.inj hrun)).symm, .refl db, ex, hrow, by rw [hfp]⟩
          · rw [x.run_do_charge_mismatch hafp htaken howner hrow hfp] at hrun
            cases hrun
        | none =>
          cases horder : subscript args "order" with
          | error e =>
            rw [x.run_do_charge_failed hafp htaken howner hrow (Or.inl horder)] at hrun
            cases hrun
          | ok order =>
            cases hamount : subscript args "amount" with
            | error e =>
              rw [x.run_do_charge_failed hafp htaken howner hrow (Or.inr ⟨order, horder, hamount⟩)] at hrun
              cases hrun
            | ok amount =>
              exact run_charge_ok hafp htaken horder hamount howner hrow hrun
    · rw [x.run_do_charge_stale hafp howner] at hrun
      cases hrun

/-- **Steps that are run are executed.** -/
theorem run_runSteps_executed {steps : List Json} {rs : List (Tag × Option Json)} {w : World ι}
    (hrun : (x.runSteps s t cid ep crash_at steps).run ⟨rest db, fs, held⟩ = some (.ok rs, w)) :
    RowsKept db w.server.db ∧ ∀ step ∈ steps, Executed s t cid w.server.db step := by
  induction steps generalizing db rs with
  | nil =>
    cases hrun
    exact ⟨.refl db, fun _ hmem => absurd hmem List.not_mem_nil⟩
  | cons step steps ih =>
    cases ho : (subscript step "ordinal" >>= asOrdinal) with
    | error e => simp [DTX.runSteps, ho] at hrun
    | ok o =>
      cases hargs : subscript step "args" with
      | error e => simp [DTX.runSteps, ho, hargs] at hrun
      | ok args =>
        simp only [DTX.runSteps, ho, hargs, Prog.run_bind, Prog.run_ofExcept, Option.bind_some, Prog.andThen_ok]
          at hrun
        obtain ⟨⟨r₁, w₁⟩, hcharge, hrest⟩ := Option.bind_eq_some_iff.mp hrun
        cases r₁ with
        | error e => cases hrest
        | ok r₁ =>
          obtain ⟨db₁, rfl, hkept₁, row, hrow, hfp⟩ := run_do_charge_ok hcharge
          rw [Prog.andThen_ok, Prog.run_bind] at hrest
          obtain ⟨⟨r₂, w₂⟩, hsteps, hend⟩ := Option.bind_eq_some_iff.mp hrest
          cases r₂ with
          | error e => cases hend
          | ok rs₂ =>
            cases hend
            obtain ⟨hkept₂, hall⟩ := ih hsteps
            refine ⟨hkept₁.trans hkept₂, fun step' hmem => ?_⟩
            rcases List.mem_cons.mp hmem with rfl | hmem
            · have hdone : Executed s t cid db₁ step' := ⟨o, args, row, ho, hargs, hrow, hfp⟩
              exact hdone.kept hkept₂
            · exact hall step' hmem

/-- **Executed steps are not refused.** -/
theorem run_runSteps_replayed {steps : List Json} {r : Except Exn (List (Tag × Option Json))} {w : World ι}
    (hexecuted : ∀ step ∈ steps, Executed s t cid db step)
    (hrun : (x.runSteps s t cid ep crash_at steps).run ⟨rest db, fs, held⟩ = some (r, w)) :
    r ≠ .error .ContentMismatch := by
  induction steps generalizing db r w with
  | nil =>
    cases hrun
    simp
  | cons step steps ih =>
    obtain ⟨o, args, row, ho, hargs, hrow, hfp⟩ := hexecuted step List.mem_cons_self
    have ho' : (subscript step "ordinal" >>= asOrdinal) = .ok o := ho
    simp only [DTX.runSteps, ho', hargs, Prog.run_bind, Prog.run_ofExcept, Option.bind_some, Prog.andThen_ok] at hrun
    obtain ⟨⟨r₁, w₁⟩, hcharge, hrest⟩ := Option.bind_eq_some_iff.mp hrun
    cases r₁ with
    | error e =>
      cases hrest
      rintro ⟨⟩
      -- a mismatch is raised against a row of other arguments only, and this step's row has its own
      have hmismatch := (Content.run_do_charge rfl hfp hcharge).mp rfl
      obtain ⟨-, -, row', hrow', hne⟩ := hmismatch
      obtain rfl : row = row' := Option.some.inj (hrow.symm.trans hrow')
      exact hne rfl
    | ok r₁ =>
      -- the rows of the steps still to come are kept by this one
      obtain ⟨db₁, rfl, hkept, -⟩ := run_do_charge_ok hcharge
      rw [Prog.andThen_ok, Prog.run_bind] at hrest
      obtain ⟨⟨r₂, w₂⟩, hsteps, hend⟩ := Option.bind_eq_some_iff.mp hrest
      have hgood : r₂ ≠ .error .ContentMismatch :=
        ih (fun step' hmem => (hexecuted step' (List.mem_cons_of_mem _ hmem)).kept hkept) hsteps
      cases r₂ with
      | error e =>
        cases hend
        rintro ⟨⟩
        exact hgood rfl
      | ok rs₂ =>
        cases hend
        simp

end Runs

/-! ## Plans -/

section Plans

variable {s t cid : String} {plan : List Json}

theorem stringKeysItems_eq_map (vs : List Json) : Json.stringKeysItems vs = vs.map Json.stringKeys := by
  induction vs with
  | nil => rfl
  | cons v vs ih => rw [Json.stringKeysItems, ih, List.map_cons]

/-- The steps of a plan that can be serialised can be. -/
theorem canonical_args_step {step : Json} (hplan : (canonical_args (.arr plan)).isSome) (hmem : step ∈ plan) :
    (canonical_args step).isSome := by
  obtain ⟨text, htext⟩ := Option.isSome_iff_exists.mp hplan
  obtain ⟨v, hv, -⟩ := Option.map_eq_some_iff.mp htext
  obtain ⟨items, hitems, -⟩ := Option.map_eq_some_iff.mp hv
  have hall : ∀ vs ss, Json.sortItems vs = some ss → step ∈ vs → (canonical_args step).isSome := by
    intro vs
    induction vs with
    | nil => exact fun _ _ hmem => absurd hmem List.not_mem_nil
    | cons v vs ih =>
      intro ss hss hmem
      obtain ⟨s₁, hs₁, hrest⟩ := Option.bind_eq_some_iff.mp hss
      obtain ⟨ss₁, hss₁, -⟩ := Option.map_eq_some_iff.mp hrest
      rcases List.mem_cons.mp hmem with rfl | hmem
      · rw [canonical_args, Json.dumpsSorted, hs₁]
        rfl
      · exact ih ss₁ hss₁ hmem
  exact hall plan items hitems hmem

theorem orderedItems_mem {step : Json} {vs : List Json} (h : Json.OrderedItems vs) (hmem : step ∈ vs) :
    step.Ordered := by
  induction vs with
  | nil => cases hmem
  | cons v vs ih =>
    rcases List.mem_cons.mp hmem with rfl | hmem
    · exact h.1
    · exact ih h.2 hmem

/-- **An ordered plan has the same identity when it is reloaded.** -/
theorem sameIdentity_of_ordered [DecidableEq ι] [Driver] (hplan : (canonical_args (.arr plan)).isSome)
    (hordered : (Json.arr plan).Ordered) : SameIdentity ι s t cid plan (Json.stringKeysItems plan) := by
  have hfp : ∀ step ∈ plan, ∀ args, subscript step "args" = .ok args →
      subscript step.stringKeys "args" = .ok args.stringKeys ∧
        args_fingerprint args.stringKeys = args_fingerprint args := by
    intro step hmem args hargs
    exact ⟨subscript_stringKeys hargs,
      args_fingerprint_stringKeys (orderedItems_mem hordered hmem) (canonical_args_step hplan hmem) hargs⟩
  constructor
  · obtain ⟨text, htext⟩ := Option.isSome_iff_exists.mp hplan
    obtain ⟨text', htext', hiff⟩ := canonical_args_ordered htext
    rw [commit_id_of, commit_id_of, htext, ← hiff.mpr hordered, ← htext']
    rfl
  · intro i step args hstep hargs
    obtain ⟨hargs', heq⟩ := hfp step (List.mem_of_getElem? hstep) args hargs
    refine ⟨step.stringKeys, args.stringKeys, ?_, hargs', heq⟩
    rw [stringKeysItems_eq_map, List.getElem?_map, hstep]
    rfl
  · intro x y n ep ep' crash_at crash_at' db fs held rs w db₂ fs₂ held₂ r w₂ hrun hkept hreplay
    obtain ⟨-, hexecuted⟩ := run_runSteps_executed hrun
    refine run_runSteps_replayed (fun step' hmem' => ?_) hreplay
    rw [stringKeysItems_eq_map, ← List.map_take] at hmem'
    obtain ⟨step, hmem, rfl⟩ := List.mem_map.mp hmem'
    obtain ⟨o, args, row, ho, hargs, hrow, heq⟩ := (hexecuted step hmem).kept hkept
    obtain ⟨hargs', heq'⟩ := hfp step (List.mem_of_mem_take hmem) args hargs
    exact ⟨o, args.stringKeys, row, (ordinalOf_stringKeys step).trans ho, hargs', hrow, heq'.trans heq⟩

/-- A plan that has the same commit id when it is reloaded is ordered, unless two texts have one hash. -/
theorem ordered_of_sameIdentity (hplan : (canonical_args (.arr plan)).isSome)
    (hsha : ∀ text text', canonical_args (.arr plan) = some text →
      canonical_args (.arr (Json.stringKeysItems plan)) = some text' → sha256 text' = sha256 text → text' = text)
    (hsame : commit_id_of (.arr (Json.stringKeysItems plan)) = commit_id_of (.arr plan)) :
    (Json.arr plan).Ordered := by
  obtain ⟨text, htext⟩ := Option.isSome_iff_exists.mp hplan
  obtain ⟨text', htext', hiff⟩ := canonical_args_ordered htext
  refine hiff.mp (hsha text text' htext htext' ?_)
  have htext'' : canonical_args (.arr (Json.stringKeysItems plan)) = some text' := htext'
  rw [commit_id_of, commit_id_of, htext, htext'']
    at hsame
  exact Option.some.inj hsame

end Plans

/-- The first plan of a turn is stored. -/
theorem begun_first {s t : String} {row : TurnRow} {db : Db} (hfirst : db.turns (s, t) = none) :
    (DTX.begun s t row db).turns (s, t) = some row := by
  rw [DTX.begun, hfirst]
  exact Function.update_self ..

/-- **The identity of a durable plan.** What `load_plan` gives back for a plan that `begin_turn` stored has its
    identity exactly if its keys are in the order of their texts; its commit id is stored with it. -/
theorem identity_durable [DecidableEq ι] [Driver] (x : DTX ι) (s t cid : String) (plan : List Json) (db : Db)
    (fs : FileSys) (held : ι → Option Nat) (w : World ι) (hfirst : db.turns (s, t) = none)
    (hbegin : (x.begin_turn s t plan).run ⟨rest db, fs, held⟩ = some (.ok cid, w)) :
    commit_id_of (.arr plan) = some cid ∧
    ∀ (y : DTX ι) db₂ fs₂ held₂, SamePlan (db₂.turns (s, t)) (w.server.db.turns (s, t)) →
      ∃ plan', (y.load_plan s t).run ⟨rest db₂, fs₂, held₂⟩ =
          some (.ok (some (cid, .arr plan')), ⟨rest db₂, fs₂, held₂⟩) ∧
        ((Json.arr plan).Ordered → SameIdentity ι s t cid plan plan') ∧
        ((∀ text text', canonical_args (.arr plan) = some text → canonical_args (.arr plan') = some text' →
            sha256 text' = sha256 text → text' = text) →
          SameIdentity ι s t cid plan plan' → (Json.arr plan).Ordered) := by
  have hcid : commit_id_of (.arr plan) = some cid := by
    cases hcid : commit_id_of (.arr plan) with
    | none => simp [DTX.begin_turn, hcid] at hbegin
    | some cid' =>
      rw [x.run_begin_turn hcid] at hbegin
      cases hbegin
      rfl
  have hplan : (canonical_args (.arr plan)).isSome := by
    rw [← Option.isSome_map, show (canonical_args (.arr plan)).map sha256 = _ from hcid]
    rfl
  refine ⟨hcid, fun y db₂ fs₂ held₂ hsame => ?_⟩
  rw [x.run_begin_turn hcid] at hbegin
  obtain rfl : _ = w := congrArg Prod.snd (Option.some.inj hbegin)
  -- the row `begin_turn` wrote: the plan as dumped, under its own commit id
  have hrow : (DTX.begun s t ⟨cid, (Json.arr plan).dumps, .open⟩ db).turns (s, t) =
      some ⟨cid, (Json.arr plan).dumps, .open⟩ := begun_first hfirst
  have hsame' : SamePlan (db₂.turns (s, t)) (some ⟨cid, (Json.arr plan).dumps, .open⟩) := hrow ▸ hsame
  obtain ⟨row, hrow₂, hcid₂, hplan₂⟩ := hsame'.of_some
  have hloads : json_loads row.plan = .ok (.arr (Json.stringKeysItems plan)) := by
    rw [hplan₂, json_loads, Json.loads_dumps]
    rfl
  refine ⟨Json.stringKeysItems plan, ?_, sameIdentity_of_ordered hplan, fun hsha hid => ?_⟩
  · rw [y.run_load_plan hrow₂ hloads, hcid₂]
  · exact ordered_of_sameIdentity hplan hsha hid.commit_id

/-! A plan of one charge, with `int` keys in its arguments. -/

open Interrupt (clerk)

section Example

local instance driver : Driver := .sqlite

def keyedStep (m n : Int) : Json :=
  .obj [(.str "ordinal", .int 0), (.str "args", .obj [(.str "order", .str "W"), (.str "amount", .int 7),
    (.str "lines", .obj [(.int m, .null), (.int n, .null)])])]

theorem keyedStep_ordered : (Json.arr [keyedStep 1 2]).Ordered := by
  have hstep : Json.SameOrder [(.str "ordinal", .int 0), (.str "args", .obj [(.str "order", .str "W"),
      (.str "amount", .int 7), (.str "lines", .obj [(.int 1, .null), (.int 2, .null)])])] := by decide
  have hargs : Json.SameOrder [(.str "order", .str "W"), (.str "amount", .int 7),
      (.str "lines", .obj [(.int 1, .null), (.int 2, .null)])] := by decide
  have hlines : Json.SameOrder [(.int 1, .null), (.int 2, .null)] := by decide
  exact ⟨⟨hstep, trivial, ⟨hargs, trivial, trivial, ⟨hlines, trivial, trivial, trivial⟩, trivial⟩, trivial⟩, trivial⟩

/-- It is stored in an empty database. -/
theorem run_begin_keyed {m n : Int} {cid : String} (hcid : commit_id_of (.arr [keyedStep m n]) = some cid) :
    (clerk.begin_turn "s" "t" [keyedStep m n]).run ⟨rest Db.empty, .empty, fun _ => none⟩ =
      some (.ok cid, ⟨rest (DTX.begun "s" "t" ⟨cid, (Json.arr [keyedStep m n]).dumps, .open⟩ Db.empty), .empty,
        fun _ => none⟩) :=
  clerk.run_begin_turn hcid

theorem identity_durable_keyed : ∃ cid w plan', (clerk.begin_turn "s" "t" [keyedStep 1 2]).run
      ⟨rest Db.empty, .empty, fun _ => none⟩ = some (.ok cid, w) ∧
    (clerk.load_plan "s" "t").run w = some (.ok (some (cid, .arr plan')), w) ∧
      SameIdentity Unit "s" "t" cid [keyedStep 1 2] plan' := by
  have hsome : (commit_id_of (.arr [keyedStep 1 2])).isSome := by decide +kernel
  obtain ⟨cid, hcid⟩ := Option.isSome_iff_exists.mp hsome
  have hbegin := run_begin_keyed hcid
  obtain ⟨-, hload⟩ := identity_durable clerk "s" "t" cid [keyedStep 1 2] Db.empty .empty (fun _ => none) _ rfl hbegin
  obtain ⟨plan', hrun, hsame, -⟩ := hload clerk _ .empty (fun _ => none) (.refl _)
  exact ⟨cid, _, plan', hbegin, hrun, hsame keyedStep_ordered⟩

/-- As numbers, 2 is before 10; as texts, it is not. -/
theorem commit_id_keyed : commit_id_of (.arr (Json.stringKeysItems [keyedStep 2 10])) ≠
    commit_id_of (.arr [keyedStep 2 10]) := by
  decide +kernel

theorem not_identity_durable : ¬ ∀ (plan : List Json) (cid : String) (w : World Unit),
    (clerk.begin_turn "s" "t" plan).run ⟨rest Db.empty, .empty, fun _ => none⟩ = some (.ok cid, w) →
      ∀ plan' w', (clerk.load_plan "s" "t").run w = some (.ok (some (cid, .arr plan')), w') →
        SameIdentity Unit "s" "t" cid plan plan' := by
  intro h
  have hsome : (commit_id_of (.arr [keyedStep 2 10])).isSome := by decide +kernel
  obtain ⟨cid, hcid⟩ := Option.isSome_iff_exists.mp hsome
  have hrow : (DTX.begun "s" "t" ⟨cid, (Json.arr [keyedStep 2 10]).dumps, .open⟩ Db.empty).turns ("s", "t") =
      some ⟨cid, (Json.arr [keyedStep 2 10]).dumps, .open⟩ := begun_first rfl
  have hloads : json_loads (Json.arr [keyedStep 2 10]).dumps = .ok (.arr (Json.stringKeysItems [keyedStep 2 10])) := by
    rw [json_loads, Json.loads_dumps]
    rfl
  have hid := h _ cid _ (run_begin_keyed hcid) _ _ (clerk.run_load_plan hrow hloads)
  exact commit_id_keyed hid.commit_id

end Example

end AgentTx.Dtx.Reload
