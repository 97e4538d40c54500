import AgentTx.Dtx.Tables
import AgentTx.Identity
import AgentTx.Lib.Json.Keys
import AgentTx.Python
import Mathlib.Data.List.Pairwise

/-!
# `Dtx.Plan` — the durable plan

What the `plan` column of `turns` says: the steps of each turn, and with its commit id the actions they
are. The theorems about coordinators are stated over the plans stored when the run starts, which nothing
changes (`SamePlan`).

Layout:
* **Steps** — `IsStep`: which action a stored plan has at an ordinal. Under distinct ids an action is one step of one
  plan, and under distinct ordinals it has one pair of arguments (`IsStep.unique`).
* **Step after step** — `Passed`: what a loop over the plan knows of the steps behind it.
* **Ordinals** — two plans with one canonical text have the same ordinals, though their keys may be spelled
  differently.
-/

namespace AgentTx.Dtx

/-- The steps of a stored plan. -/
def planSteps (r : TurnRow) : List Json :=
  match json_loads r.plan >>= iterate with
  | .ok steps => steps
  | .error _ => []

/-- `step["ordinal"]`. -/
def ordinalOf (step : Json) : Except Exn Ordinal := subscript step "ordinal" >>= asOrdinal

/-- The step with ordinal `o` and arguments `args` is in the durable plan of the turn, stored under `cid`. -/
def IsStep (turns : Table (String × String) TurnRow) (s t cid : String) (o : Ordinal) (args : Json) : Prop :=
  ∃ r, turns (s, t) = some r ∧ r.commit_id = cid ∧
    ∃ step ∈ planSteps r, ordinalOf step = .ok o ∧ subscript step "args" = .ok args

/-- The ordinals in a plan are distinct. -/
def DistinctOrdinals (turns : Table (String × String) TurnRow) : Prop :=
  ∀ k r, turns k = some r → (planSteps r).Pairwise fun a b => ∀ o, ordinalOf a = .ok o → ordinalOf b ≠ .ok o

/-- Distinct positions have distinct action ids. -/
def DistinctIds (turns : Table (String × String) TurnRow) : Prop :=
  ∀ s t cid o args s' t' cid' o' args', IsStep turns s t cid o args → IsStep turns s' t' cid' o' args' →
    action_id s t cid o = action_id s' t' cid' o' → s = s' ∧ t = t' ∧ o = o'

/-- The same plan, under the same commit id. -/
def SamePlan (a b : Option TurnRow) : Prop :=
  a.map (fun r => (r.commit_id, r.plan)) = b.map fun r => (r.commit_id, r.plan)

theorem SamePlan.refl (a : Option TurnRow) : SamePlan a a := Eq.refl _

theorem SamePlan.symm {a b : Option TurnRow} (h : SamePlan a b) : SamePlan b a := Eq.symm h

theorem SamePlan.trans {a b c : Option TurnRow} (h : SamePlan a b) (h' : SamePlan b c) : SamePlan a c :=
  Eq.trans h h'

theorem SamePlan.of_some {a : Option TurnRow} {r : TurnRow} (h : SamePlan a (some r)) :
    ∃ r', a = some r' ∧ r'.commit_id = r.commit_id ∧ r'.plan = r.plan := by
  obtain ⟨r', rfl, hr'⟩ := Option.map_eq_some_iff.mp (show a.map _ = some (r.commit_id, r.plan) from h)
  exact ⟨r', rfl, congrArg Prod.fst hr', congrArg Prod.snd hr'⟩

theorem planSteps_congr {r r' : TurnRow} (h : r'.plan = r.plan) : planSteps r' = planSteps r := by
  rw [planSteps, planSteps, h]

theorem IsStep.congr {turns turns' : Table (String × String) TurnRow} {s t cid : String} {o : Ordinal}
    {args : Json} (h : ∀ k, SamePlan (turns' k) (turns k)) (hs : IsStep turns s t cid o args) :
    IsStep turns' s t cid o args := by
  obtain ⟨r, hr, hcid, step, hmem, ho, hargs⟩ := hs
  have hk := h (s, t)
  rw [hr] at hk
  obtain ⟨r', hr', hcid', hplan⟩ := hk.of_some
  exact ⟨r', hr', hcid'.trans hcid, step, by rwa [planSteps_congr hplan], ho, hargs⟩

/-- One action id, one step. -/
theorem IsStep.unique {turns : Table (String × String) TurnRow} (hord : DistinctOrdinals turns)
    (hids : DistinctIds turns) {s t cid : String} {o : Ordinal} {args : Json} {s' t' cid' : String} {o' : Ordinal}
    {args' : Json} (h : IsStep turns s t cid o args) (h' : IsStep turns s' t' cid' o' args')
    (hid : action_id s t cid o = action_id s' t' cid' o') :
    s = s' ∧ t = t' ∧ o = o' ∧ args = args' := by
  obtain ⟨rfl, rfl, rfl⟩ := hids _ _ _ _ _ _ _ _ _ _ h h' hid
  obtain ⟨r, hr, -, a, ha, hoa, hargs⟩ := h
  obtain ⟨r', hr', -, b, hb, hob, hargs'⟩ := h'
  obtain rfl : r = r' := Option.some.inj (hr.symm.trans hr')
  have hab : a = b := by
    by_contra hne
    have hsymm : Std.Symm fun a b : Json => ∀ o, ordinalOf a = .ok o → ordinalOf b ≠ .ok o :=
      ⟨fun a b hab o hb ha => hab o ha hb⟩
    exact (hord _ r hr).forall ha hb hne o hoa hob
  subst hab
  exact ⟨rfl, rfl, rfl, Except.ok.inj (hargs.symm.trans hargs')⟩

/-- The steps of the one plan there is. -/
theorem IsStep.of_single {s t s' t' cid : String} {row : TurnRow} {o : Ordinal} {args : Json}
    (h : IsStep (Function.update (fun _ => none) (s, t) (some row)) s' t' cid o args) :
    s' = s ∧ t' = t ∧ cid = row.commit_id ∧ ∃ step ∈ planSteps row, ordinalOf step = .ok o := by
  obtain ⟨r, hr, hcid, step, hmem, ho, -⟩ := h
  by_cases hk : (s', t') = (s, t)
  · cases hk
    rw [Function.update_self] at hr
    cases hr
    exact ⟨rfl, rfl, hcid.symm, step, hmem, ho⟩
  · rw [Function.update_of_ne hk] at hr
    cases hr

/-- A turn is set committed: the plans are the same. -/
theorem samePlan_setCommitted (d : Db) (s t : String) (k : String × String) :
    SamePlan (((Write.setCommitted s t).apply d).turns k) (d.turns k) := by
  by_cases hk : k = (s, t)
  · subst hk
    show SamePlan (d.turns.update (s, t) _ (s, t)) _
    rw [Table.update_self, SamePlan, Option.map_map]
    rfl
  · show SamePlan (d.turns.update (s, t) _ k) _
    rw [Table.update_of_ne d.turns hk]
    exact .refl _

/-! ## Step after step -/

/-- `steps` are what is left of the plan stored under `cid`, and the steps before them have `D`. -/
def Passed (turns : Table (String × String) TurnRow) (s t cid : String) (D : Json → Prop) (steps : List Json) :
    Prop :=
  ∃ r done, turns (s, t) = some r ∧ r.commit_id = cid ∧ planSteps r = done ++ steps ∧ ∀ step ∈ done, D step

namespace Passed

variable {turns : Table (String × String) TurnRow} {s t cid : String} {D D' : Json → Prop} {step : Json}
  {steps : List Json}

theorem mono (h : Passed turns s t cid D steps) (hD : ∀ step, D step → D' step) :
    Passed turns s t cid D' steps := by
  obtain ⟨r, done, hr, hcid, hsteps, hdone⟩ := h
  exact ⟨r, done, hr, hcid, hsteps, fun step hmem => hD step (hdone step hmem)⟩

/-- The step at hand is a step of the plan. -/
theorem isStep {args : Json} {o : Ordinal} (h : Passed turns s t cid D (step :: steps)) (ho : ordinalOf step = .ok o)
    (hargs : subscript step "args" = .ok args) : IsStep turns s t cid o args := by
  obtain ⟨r, done, hr, hcid, hsteps, -⟩ := h
  refine ⟨r, hr, hcid, step, ?_, ho, hargs⟩
  rw [hsteps]
  simp

/-- It is done, and the next one is at hand. -/
theorem next (h : Passed turns s t cid D (step :: steps)) (hstep : D step) : Passed turns s t cid D steps := by
  obtain ⟨r, done, hr, hcid, hsteps, hdone⟩ := h
  refine ⟨r, done ++ [step], hr, hcid, by simp [hsteps], fun step' hmem => ?_⟩
  rcases List.mem_append.mp hmem with hmem | hmem
  · exact hdone step' hmem
  · rw [List.mem_singleton.mp hmem]
    exact hstep

/-- The plan is read, from a row that has it: all of its steps are to come. -/
theorem start {r : TurnRow} {plan : Json} (hsame : SamePlan (some r) (turns (s, t)))
    (hplan : json_loads r.plan = .ok plan) (hitems : iterate plan = .ok steps) :
    Passed turns s t r.commit_id D steps := by
  obtain ⟨r₀, hr₀, hcid, hp₀⟩ := hsame.symm.of_some
  refine ⟨r₀, [], hr₀, hcid, ?_, fun _ h => absurd h List.not_mem_nil⟩
  rw [planSteps_congr hp₀, planSteps, hplan]
  simp [bind, Except.bind, hitems]

/-- Nothing is left: all steps have `D`. -/
theorem all {r : TurnRow} (h : Passed turns s t cid D []) (hsame : SamePlan (some r) (turns (s, t))) :
    r.commit_id = cid ∧ ∀ step ∈ planSteps r, D step := by
  obtain ⟨r₀, done, hr₀, hcid, hsteps, hdone⟩ := h
  rw [hr₀] at hsame
  obtain ⟨r₁, hr₁, hcid₁, hplan⟩ := hsame.of_some
  cases hr₁
  refine ⟨hcid₁.trans hcid, fun step hmem => hdone step ?_⟩
  rw [planSteps_congr hplan, hsteps, List.append_nil] at hmem
  exact hmem

end Passed

/-- **A turn whose steps are all done is set committed**: the steps of every committed turn are done, as they
    were before. -/
theorem all_committed {turns₀ : Table (String × String) TurnRow} {d : Db} {s t cid : String}
    {D : String → String → String → Json → Prop} (hplans : ∀ k, SamePlan (d.turns k) (turns₀ k))
    (hcommitted : ∀ s t r, d.turns (s, t) = some r → r.state = .committed → ∀ step ∈ planSteps r,
      D s t r.commit_id step)
    (h : Passed turns₀ s t cid (D s t cid) []) {s' t' : String} {r : TurnRow}
    (hr : ((Write.setCommitted s t).apply d).turns (s', t') = some r) (hst : r.state = .committed) :
    ∀ step ∈ planSteps r, D s' t' r.commit_id step := by
  by_cases hk : (s', t') = (s, t)
  · cases hk
    have hsame : SamePlan (some r) (turns₀ (s, t)) := by
      rw [← hr]
      exact (samePlan_setCommitted d s t (s, t)).trans (hplans (s, t))
    obtain ⟨hcid, hall⟩ := h.all hsame
    rw [hcid]
    exact hall
  · have hr' : d.turns.update (s, t) (fun r => { r with state := .committed }) (s', t') = some r := hr
    rw [Table.update_of_ne d.turns hk] at hr'
    exact hcommitted s' t' r hr' hst

/-- What is stored is what `begin_turn` was given, up to the spelling of the keys. -/
theorem planSteps_dumps (cid : String) (plan : List Json) (st : TurnState) :
    planSteps ⟨cid, (Json.arr plan).dumps, st⟩ = Json.stringKeysItems plan := by
  rw [planSteps, json_loads, Json.loads_dumps]
  rfl

/-! ## The ordinals that a canonical text determines -/

theorem not_numeric_ordinal : ¬ Json.Numeric "ordinal" := by
  have htext : "ordinal".toList = 'o' :: "rdinal".toList := rfl
  exact Json.not_numeric htext (by decide)

theorem ordinalOf_stringKeys (v : Json) : ordinalOf v.stringKeys = ordinalOf v := by
  cases v with
  | obj ms =>
    have hget : (Json.obj ms).stringKeys.get? "ordinal" = ((Json.obj ms).get? "ordinal").map Json.stringKeys :=
      Json.get?_stringKeys not_numeric_ordinal (.obj ms)
    show Option.elim _ _ _ >>= asOrdinal = Option.elim _ _ _ >>= asOrdinal
    rw [hget]
    cases (Json.obj ms).get? "ordinal" with
    | none => rfl
    | some x => cases x <;> rfl
  | arr items => rfl
  | null | bool b | int n | str s => rfl

theorem ordinalOf_sortKeys {v v' : Json} (h : Json.sortKeys v = some v') : ordinalOf v' = ordinalOf v := by
  cases v with
  | obj ms =>
    have hget := Json.get?_sortKeys "ordinal" h
    obtain ⟨ms₁, -, hrest⟩ := Option.bind_eq_some_iff.mp h
    obtain ⟨ms₂, -, rfl⟩ := Option.map_eq_some_iff.mp hrest
    show Option.elim _ _ _ >>= asOrdinal = Option.elim _ _ _ >>= asOrdinal
    cases hx : (Json.obj ms).get? "ordinal" with
    | none =>
      rw [hx] at hget
      rw [Option.map_eq_none_iff.mp hget.symm]
    | some x =>
      rw [hx] at hget
      obtain ⟨x', hx', hsort⟩ := Option.map_eq_some_iff.mp hget.symm
      rw [hx']
      cases x with
      | arr items =>
        obtain ⟨items', -, rfl⟩ := Option.map_eq_some_iff.mp hsort.symm
        rfl
      | obj ms' =>
        obtain ⟨ms₁', -, hrest'⟩ := Option.bind_eq_some_iff.mp hsort.symm
        obtain ⟨ms₂', -, rfl⟩ := Option.map_eq_some_iff.mp hrest'
        rfl
      | null | bool b | int n | str s =>
        cases hsort
        rfl
  | arr items =>
    obtain ⟨items', -, rfl⟩ := Option.map_eq_some_iff.mp h
    rfl
  | null | bool b | int n | str s =>
    cases h
    rfl

theorem map_ordinalOf_stringKeys (plan : List Json) :
    (Json.stringKeysItems plan).map ordinalOf = plan.map ordinalOf := by
  induction plan with
  | nil => rfl
  | cons v vs ih =>
    rw [Json.stringKeysItems, List.map_cons, List.map_cons, ordinalOf_stringKeys, ih]

theorem map_ordinalOf_sortItems {plan plan' : List Json} (h : Json.sortItems plan = some plan') :
    plan'.map ordinalOf = plan.map ordinalOf := by
  induction plan generalizing plan' with
  | nil =>
    cases h
    rfl
  | cons v vs ih =>
    obtain ⟨v₁, hv, hrest⟩ := Option.bind_eq_some_iff.mp h
    obtain ⟨vs₁, hvs, rfl⟩ := Option.map_eq_some_iff.mp hrest
    rw [List.map_cons, List.map_cons, ordinalOf_sortKeys hv, ih hvs]

/-- **Plans with one canonical text have the same ordinals.** -/
theorem map_ordinalOf_canonical {plan plan' : List Json} {text : String}
    (h : canonical_args (.arr plan) = some text) (h' : canonical_args (.arr plan') = some text) :
    plan.map ordinalOf = plan'.map ordinalOf := by
  obtain ⟨v, hv, hdumps⟩ := Option.map_eq_some_iff.mp h
  obtain ⟨v', hv', hdumps'⟩ := Option.map_eq_some_iff.mp h'
  obtain ⟨items, hitems, rfl⟩ := Option.map_eq_some_iff.mp hv
  obtain ⟨items', hitems', rfl⟩ := Option.map_eq_some_iff.mp hv'
  have hkeys := Json.stringKeys_eq_of_dumps_eq (hdumps.trans hdumps'.symm)
  calc plan.map ordinalOf = items.map ordinalOf := (map_ordinalOf_sortItems hitems).symm
    _ = (Json.stringKeysItems items).map ordinalOf := (map_ordinalOf_stringKeys items).symm
    _ = (Json.stringKeysItems items').map ordinalOf := by rw [Json.arr.inj hkeys]
    _ = items'.map ordinalOf := map_ordinalOf_stringKeys items'
    _ = plan'.map ordinalOf := map_ordinalOf_sortItems hitems'

/-! ## A plan of two equal steps -/

def twiceStep (o : Int) : Json :=
  .obj [(.str "ordinal", .int o), (.str "args", .obj [(.str "order", .str "O"), (.str "amount", .int 5)])]

def twiceRow : TurnRow := ⟨"c", (Json.arr [twiceStep 0, twiceStep 1]).dumps, .open⟩

@[simp] theorem twiceRow_commit_id : twiceRow.commit_id = "c" := rfl

/-- It is the one that is stored. -/
def twiceTurns : Table (String × String) TurnRow := Function.update (fun _ => none) ("s", "t") (some twiceRow)

theorem twiceStep_ordinal (o : Int) : (subscript (twiceStep o) "ordinal" >>= asOrdinal) = .ok (.int o) := rfl

theorem twiceStep_args (o : Int) : subscript (twiceStep o) "args" =
    .ok (.obj [(.str "order", .str "O"), (.str "amount", .int 5)]) := rfl

theorem twice_taken [Driver] : (Ordinal.int 0).taken = true ∧ (Ordinal.int 1).taken = true :=
  ⟨Ordinal.taken_int (by decide) (by decide), Ordinal.taken_int (by decide) (by decide)⟩

theorem twice_billable [Driver] : billable (.str "O") (.int 5) = true :=
  billable_plain (by decide) (by decide) (by decide)

theorem loads_twice : json_loads twiceRow.plan = .ok (Json.arr [twiceStep 0, twiceStep 1]) := by
  rw [twiceRow, json_loads, Json.loads_dumps]
  rfl

theorem planSteps_twice : planSteps twiceRow = [twiceStep 0, twiceStep 1] := planSteps_dumps _ _ _

theorem twiceTurns_eq {k : String × String} {r : TurnRow} (h : twiceTurns k = some r) : r = twiceRow := by
  unfold twiceTurns at h
  by_cases hk : k = ("s", "t")
  · rw [hk, Function.update_self] at h
    exact (Option.some.inj h).symm
  · rw [Function.update_of_ne hk] at h
    cases h

/-- Their ids differ all the same. -/
theorem twice_ids : action_id "s" "t" "c" (.int 1) ≠ action_id "s" "t" "c" (.int 0) := by decide +kernel

theorem distinctOrdinals_twice : DistinctOrdinals twiceTurns := by
  intro k r hr
  rw [twiceTurns_eq hr, planSteps_twice, List.pairwise_pair]
  intro o h₀ h₁
  cases h₀
  cases h₁

theorem distinctIds_twice : DistinctIds twiceTurns := by
  intro s t cid o args s' t' cid' o' args' h h' hid
  obtain ⟨rfl, rfl, rfl, step, hmem, ho⟩ := IsStep.of_single h
  obtain ⟨rfl, rfl, rfl, step', hmem', ho'⟩ := IsStep.of_single h'
  rw [planSteps_twice] at hmem hmem'
  simp only [List.mem_cons, List.not_mem_nil, or_false] at hmem hmem'
  refine ⟨rfl, rfl, ?_⟩
  rcases hmem with rfl | rfl <;> rcases hmem' with rfl | rfl <;> cases ho <;> cases ho'
  · rfl
  · exact absurd hid.symm twice_ids
  · exact absurd hid twice_ids
  · rfl

end AgentTx.Dtx
