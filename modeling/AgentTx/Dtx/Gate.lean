import AgentTx.Dtx.Uncontended
import Mathlib.Data.Set.Card

/-!
# `Dtx.Gate` — the concurrent gate (`phase7/concurrent_gate.py`)

`main` stores the plans of `n` turns, races any number of coordinators on them, which may die anywhere, starts one
worker for each turn when they are gone, joins these, and counts: charges of one action, rows of `actions` and of
`charges`, committed turns, actions of each turn. `PHASE7_PASS` is what it prints of the counts. It holds after every
race and every sweep, in whatever order their statements are interleaved (`main_passes`).

Layout of the proof:
* **What is stored** — `Stored`: after `begin_turns`, each turn has its plan, and nothing else is there.
* **The plans** — three steps a turn, with amounts and orders that the columns take, so each turn is `Playable`.
  `expected` enumerates the ids of all actions, once each if they are distinct.
* **The counts** — when every turn is committed the rows of `actions` and of `charges` are those of `expected`
  (`row_iff`); one lemma for each count that `main` prints, and `passes` for all of them.

Main result: `main_passes_every_race`, for any race and any sweep after it.
-/

namespace AgentTx.Dtx.Gate

open Charge

variable {ι κ : Type}

/-! ## The gate

The names and the queries are those of the script. What `main` draws at random is left open: any crew takes the place
of the racing processes. -/

def session : String := "concurrent-gate"

/-- The name of turn `i`. -/
def turn (i : Nat) : String := "T" ++ Nat.repr i

/-- A step of a plan. -/
def chargeStep (ordinal : Int) (order : String) (amount : Int) : Json :=
  .obj [(.str "ordinal", .int ordinal), (.str "tool", .str "charge"), (.str "klass", .str "transactional"),
    (.str "args", .obj [(.str "order", .str order), (.str "amount", .int amount)])]

/-- Three charges; the first and the last have identical arguments. -/
def plan_for (i : Nat) : List Json :=
  let o := "ORD" ++ Nat.repr i
  [chargeStep 0 o 100, chargeStep 1 o 50, chargeStep 2 o 100]

/-- The plans are stored before the race. -/
def begin_turns [DecidableEq ι] (dtx : DTX ι) (turns : Nat) : DtxProg ι Unit :=
  Prog.forEach (List.range turns) fun i => do
    let _ ← dtx.begin_turn session (turn i) (plan_for i)
    pure ()

/-- `SELECT action_id … FROM charges GROUP BY action_id HAVING COUNT(*) > 1`. -/
def doubles (db : Db) : List String :=
  (db.charges.map fun c => c.action_id).dedup.filter fun aid => 1 < (db.chargesOf aid).length

/-- `SELECT COUNT(*) FROM actions WHERE session=…`. -/
noncomputable def committed_actions (db : Db) : Nat :=
  {aid | ∃ r, db.actions aid = some r ∧ r.session = session}.ncard

/-- `SELECT COUNT(*) FROM turns WHERE session=… AND state='committed'`. -/
noncomputable def committed_turns (db : Db) : Nat :=
  {t | ∃ r, db.turns (session, t) = some r ∧ r.state = .committed}.ncard

/-- `SELECT turn, COUNT(*) FROM actions WHERE session=… GROUP BY turn`, for one turn. -/
noncomputable def actions_of_turn (db : Db) (t : String) : Nat :=
  {aid | ∃ r, db.actions aid = some r ∧ r.session = session ∧ r.turn = t}.ncard

/-- The verdict. -/
structure PHASE7_PASS (turns : Nat) (db : Db) : Prop where
  actions_double_executed : (doubles db).length = 0
  committed_actions : committed_actions db = turns * 3
  charge_rows : db.charges.length = turns * 3
  committed_turns : committed_turns db = turns
  legit_duplicate_both_executed : ∀ t, actions_of_turn db t ≠ 0 → actions_of_turn db t = 3

/-! ## What is stored

`begin_turns` runs alone, before the race: each call adds one row to `turns`. -/

theorem turn_injective : Function.Injective turn := by
  intro i j h
  have hrepr : Nat.repr i = Nat.repr j := by
    simpa [turn] using h
  exact Json.natRepr_injective hrepr

/-- The plans of the turns `is` are stored, and nothing else. -/
structure Stored (is : List Nat) (db : Db) : Prop where
  actions : ∀ aid, db.actions aid = none
  charges : db.charges = []
  plan : ∀ k r, db.turns k = some r → r.state = .open ∧
    ∃ i ∈ is, k = (session, turn i) ∧ r.plan = (Json.arr (plan_for i)).dumps
  row : ∀ i ∈ is, ∃ r, db.turns (session, turn i) = some r

theorem Stored.begun {is : List Nat} {db : Db} (h : Stored is db) (i : Nat) (cid : String) :
    Stored (is ++ [i]) (DTX.begun session (turn i) ⟨cid, (Json.arr (plan_for i)).dumps, .open⟩ db) := by
  unfold DTX.begun
  split
  · -- the turn has a plan
    rename_i hsome
    refine ⟨h.actions, h.charges, fun k r hr => ?_, fun j hj => ?_⟩
    · obtain ⟨hst, j, hj, hk, hplan⟩ := h.plan k r hr
      exact ⟨hst, j, List.mem_append_left _ hj, hk, hplan⟩
    · rcases List.mem_append.mp hj with hj | hj
      · exact h.row j hj
      · rw [List.mem_singleton.mp hj]
        exact Option.isSome_iff_exists.mp hsome
  · refine ⟨h.actions, h.charges, fun k r hr => ?_, fun j hj => ?_⟩
    · replace hr : Function.update db.turns (session, turn i) _ k = some r := hr
      by_cases hk : k = (session, turn i)
      · rw [hk, Function.update_self] at hr
        cases hr
        exact ⟨rfl, i, by simp, hk, rfl⟩
      · rw [Function.update_of_ne hk] at hr
        obtain ⟨hst, j, hj, hk, hplan⟩ := h.plan k r hr
        exact ⟨hst, j, List.mem_append_left _ hj, hk, hplan⟩
    · show ∃ r, Function.update db.turns (session, turn i) _ (session, turn j) = some r
      by_cases hji : (session, turn j) = (session, turn i)
      · rw [hji, Function.update_self]
        exact ⟨_, rfl⟩
      · rw [Function.update_of_ne hji]
        rcases List.mem_append.mp hj with hj | hj
        · exact h.row j hj
        · rw [List.mem_singleton.mp hj] at hji
          exact absurd rfl hji

/-- The loop that stores the plans. -/
theorem run_begin [DecidableEq ι] (dtx : DTX ι) (fs : FileSys) (held : ι → Option Nat) (is done : List Nat) (db : Db)
    (h : Stored done db) : ∃ db', (Prog.forEach is fun i => do
        let _ ← dtx.begin_turn session (turn i) (plan_for i)
        pure ()).run ⟨rest db, fs, held⟩ = some (.ok (), ⟨rest db', fs, held⟩) ∧ Stored (done ++ is) db' := by
  induction is generalizing done db with
  | nil => exact ⟨db, rfl, by simpa using h⟩
  | cons i is ih =>
    obtain ⟨cid, hcid⟩ : ∃ cid, commit_id_of (.arr (plan_for i)) = some cid := exists_commit_id rfl
    obtain ⟨db', hrun, hstored⟩ := ih (done ++ [i]) _ (h.begun i cid)
    refine ⟨db', ?_, by simpa using hstored⟩
    rw [Prog.forEach_cons, Prog.run_bind, Prog.run_bind, DTX.run_begin_turn dtx hcid]
    simpa using hrun

theorem stored_begin_turns [DecidableEq ι] {dtx : DTX ι} {n : Nat} {fs : FileSys} {w₀ : World ι}
    (h : (begin_turns dtx n).run ⟨rest Db.empty, fs, fun _ => none⟩ = some (.ok (), w₀)) :
    Start w₀ ∧ Stored (List.range n) w₀.server.db := by
  have hempty : Stored [] Db.empty := by
    refine ⟨fun _ => rfl, rfl, fun k r hr => ?_, fun i hi => ?_⟩
    · cases hr
    · cases hi
  obtain ⟨db, hrun, hstored⟩ := run_begin dtx fs (fun _ => none) (List.range n) [] Db.empty hempty
  cases h.symm.trans hrun
  exact ⟨⟨quiescent_rest _ _, fun k r hr => (hstored.plan k r hr).1, hstored.actions, hstored.charges⟩, hstored⟩

/-! ## The plans

Each plan has three charges, two of them with the same arguments. What matters here: the plans can be read back, the
columns take their steps, and the ordinals of a plan differ. -/

section Plans

variable {n : Nat} {db : Db}

/-- A step of a stored plan. -/
theorem mem_plan_for {i : Nat} {step : Json} (h : step ∈ plan_for i) :
    ∃ (o : Fin 3) (amount : Fin 101), step = chargeStep (o : Nat) ("ORD" ++ Nat.repr i) (amount : Nat) := by
  simp only [plan_for, List.mem_cons, List.not_mem_nil, or_false] at h
  rcases h with rfl | rfl | rfl
  · exact ⟨0, 100, rfl⟩
  · exact ⟨1, 50, rfl⟩
  · exact ⟨2, 100, rfl⟩

theorem exists_step (i : Nat) (o : Fin 3) :
    ∃ (order : String) (amount : Int), chargeStep (o : Nat) order amount ∈ plan_for i := by
  have ho : o = 0 ∨ o = 1 ∨ o = 2 := by
    revert o
    decide
  rcases ho with rfl | rfl | rfl
  · exact ⟨_, _, List.mem_cons_self⟩
  · exact ⟨_, _, List.mem_cons_of_mem _ List.mem_cons_self⟩
  · exact ⟨_, _, List.mem_cons_of_mem _ (List.mem_cons_of_mem _ List.mem_cons_self)⟩

theorem ordinal_chargeStep (o : Int) (order : String) (amount : Int) :
    ordinalOf (chargeStep o order amount) = .ok (.int o) :=
  rfl

theorem loads_plan {r : TurnRow} {i : Nat} (h : r.plan = (Json.arr (plan_for i)).dumps) :
    json_loads r.plan = .ok (.arr (plan_for i)) := by
  rw [h, json_loads, Json.loads_dumps]
  rfl

theorem planSteps_stored {r : TurnRow} {i : Nat} (h : r.plan = (Json.arr (plan_for i)).dumps) :
    planSteps r = plan_for i := by
  rw [planSteps, loads_plan h]
  rfl

/-- Ordinals and amounts are small, and the name of an order is letters and digits. -/
theorem chargeable [Driver] {i : Nat} {step : Json} (h : step ∈ plan_for i) : Chargeable step := by
  obtain ⟨o, amount, rfl⟩ := mem_plan_for h
  obtain ⟨afp, hafp⟩ : ∃ afp, args_fingerprint (.obj [(.str "order", .str ("ORD" ++ Nat.repr i)),
      (.str "amount", .int (amount : Nat))]) = some afp := exists_args_fingerprint rfl
  have htaken : (Ordinal.int (o : Nat)).taken = true := Ordinal.taken_int (by omega) (by omega)
  have hname : '\x00' ∉ ("ORD" ++ Nat.repr i).toList := by
    rw [String.toList_append, List.mem_append]
    rintro (h | h)
    · exact absurd h (by decide)
    · exact Text.notMem_nat (by decide) i h
  exact ⟨.int (o : Nat), _, afp, _, _, rfl, htaken, hafp, rfl, rfl, billable_plain hname (by omega) (by omega)⟩

theorem Stored.playable [Driver] (h : Stored (List.range n) db) (i : Fin n) : Playable db.turns (session, turn i) := by
  obtain ⟨r, hr⟩ := h.row i (List.mem_range.mpr i.isLt)
  obtain ⟨-, j, -, hk, hplan⟩ := h.plan _ r hr
  exact ⟨r, _, plan_for j, hr, loads_plan hplan, rfl, fun step hmem => chargeable hmem⟩

theorem Stored.distinctOrdinals {is : List Nat} (h : Stored is db) : DistinctOrdinals db.turns := by
  intro k r hr
  obtain ⟨-, i, -, -, hplan⟩ := h.plan k r hr
  rw [planSteps_stored hplan]
  simp [plan_for, ordinal_chargeStep]

/-- The commit id of a turn's plan. -/
def cidOf (db : Db) (i : Nat) : String := (db.turns (session, turn i)).elim "" fun r => r.commit_id

/-- The actions that there are to be. -/
def expected (db : Db) (k : Fin n × Fin 3) : String :=
  action_id session (turn k.1) (cidOf db k.1) (.int (k.2 : Nat))

theorem Stored.isStep (h : Stored (List.range n) db) (i : Fin n) (o : Fin 3) :
    ∃ args, IsStep db.turns session (turn i) (cidOf db i) (.int (o : Nat)) args := by
  obtain ⟨r, hr⟩ := h.row i (List.mem_range.mpr i.isLt)
  obtain ⟨-, j, -, hk, hplan⟩ := h.plan _ r hr
  obtain ⟨order, amount, hmem⟩ := exists_step j o
  refine ⟨_, r, hr, by simp [cidOf, hr], chargeStep (o : Nat) order amount, ?_, rfl, rfl⟩
  rw [planSteps_stored hplan]
  exact hmem

theorem Stored.of_isStep (h : Stored (List.range n) db) {s t cid : String} {o : Ordinal} {args : Json}
    (hstep : IsStep db.turns s t cid o args) :
    ∃ (i : Fin n) (o' : Fin 3), s = session ∧ t = turn i ∧ cid = cidOf db i ∧ o = .int (o' : Nat) := by
  obtain ⟨r, hr, hcid, step, hmem, ho, -⟩ := hstep
  obtain ⟨-, i, hi, hk, hplan⟩ := h.plan _ r hr
  rw [planSteps_stored hplan] at hmem
  obtain ⟨o', amount, rfl⟩ := mem_plan_for hmem
  cases hk
  cases ho
  exact ⟨⟨i, List.mem_range.mp hi⟩, o', rfl, rfl, by simp [cidOf, hr, ← hcid], rfl⟩

/-- They are distinct, when ids do not collide. -/
theorem Stored.expected_injective (h : Stored (List.range n) db) (hids : DistinctIds db.turns) :
    Function.Injective (expected db : Fin n × Fin 3 → String) := by
  rintro ⟨i, o⟩ ⟨i', o'⟩ heq
  obtain ⟨args, hstep⟩ := h.isStep i o
  obtain ⟨args', hstep'⟩ := h.isStep i' o'
  obtain ⟨-, ht, ho⟩ := hids _ _ _ _ _ _ _ _ _ _ hstep hstep' heq
  have hi : i = i' := Fin.ext (turn_injective ht)
  have ho' : o = o' := Fin.ext (Int.ofNat.inj (Ordinal.int.inj ho))
  rw [hi, ho']

end Plans

/-! ## The counts

All counts are about finite sets of ids: the rows of `actions` and of `charges` are in bijection with the pairs of a
turn and an ordinal, once every turn is committed. -/

section Counts

variable {n : Nat} {turnOf : ι → String × String}
  {p : Public ι} {db₀ : Db}

/-- When all turns are committed, there is a row for every action that is to be, and for no other. -/
theorem row_iff (hp : Inv db₀.turns turnOf p) (h : Stored (List.range n) db₀)
    (hcommitted : ∀ i : Fin n, Committed (session, turn i) p) {aid : String} :
    (∃ r, p.db.actions aid = some r) ↔ ∃ k : Fin n × Fin 3, expected db₀ k = aid := by
  constructor
  · rintro ⟨r, hr⟩
    obtain ⟨cid, args, -, -, hstep, haid, -⟩ := hp.action aid r hr
    obtain ⟨i, o, hs, ht, hcid, ho⟩ := h.of_isStep hstep
    refine ⟨(i, o), ?_⟩
    rw [haid, hs, ht, hcid, ho]
    rfl
  · rintro ⟨⟨i, o⟩, rfl⟩
    obtain ⟨r, hr, hst⟩ := hcommitted i
    obtain ⟨r₀, hr₀, hcid, htext⟩ : ∃ r₀, db₀.turns (session, turn i) = some r₀ ∧ r₀.commit_id = r.commit_id ∧
        r₀.plan = r.plan := by
      have hsame := hp.plans (session, turn i)
      rw [hr] at hsame
      exact hsame.symm.of_some
    obtain ⟨-, j, -, -, hplan⟩ := h.plan _ r₀ hr₀
    obtain ⟨order, amount, hmem⟩ := exists_step j o
    have hstep : chargeStep (o : Nat) order amount ∈ planSteps r := by
      rw [planSteps_stored (htext ▸ hplan)]
      exact hmem
    obtain ⟨o', ho', hsome⟩ := hp.committed session (turn i) r hr hst _ hstep
    cases (ordinal_chargeStep (o : Nat) order amount).symm.trans ho'
    have hcidOf : cidOf db₀ i = r.commit_id := by
      simp [cidOf, hr₀, hcid]
    rw [expected, hcidOf]
    exact Option.isSome_iff_exists.mp hsome

/-- It says what turn it is of. -/
theorem row_of (hp : Inv db₀.turns turnOf p) (h : Stored (List.range n) db₀) (hids : DistinctIds db₀.turns)
    {k : Fin n × Fin 3} {r : ActionRow} (hr : p.db.actions (expected db₀ k) = some r) :
    r.session = session ∧ r.turn = turn k.1 := by
  obtain ⟨cid, args, -, -, hstep, haid, -⟩ := hp.action _ r hr
  obtain ⟨args', hstep'⟩ := h.isStep k.1 k.2
  obtain ⟨hs, ht, -⟩ := hids _ _ _ _ _ _ _ _ _ _ hstep' hstep haid
  exact ⟨hs.symm, ht.symm⟩

theorem ncard_expected (h : Stored (List.range n) db₀) (hids : DistinctIds db₀.turns) :
    (Set.range (expected db₀ : Fin n × Fin 3 → String)).ncard = n * 3 := by
  rw [← Set.image_univ, Set.ncard_image_of_injective _ (h.expected_injective hids), Set.ncard_univ]
  simp

/-- Nothing is charged twice. -/
theorem doubles_eq_nil (hp : Inv db₀.turns turnOf p) : doubles p.db = [] := by
  refine List.filter_eq_nil_iff.mpr fun aid _ => ?_
  rcases hp.one_charge aid with ⟨-, hcharge⟩ | ⟨r, ch, -, hcharge⟩
  · simp [hcharge]
  · simp [hcharge]

theorem count_actions (hp : Inv db₀.turns turnOf p) (h : Stored (List.range n) db₀) (hids : DistinctIds db₀.turns)
    (hcommitted : ∀ i : Fin n, Committed (session, turn i) p) : committed_actions p.db = n * 3 := by
  have hset : {aid | ∃ r, p.db.actions aid = some r ∧ r.session = session} =
      Set.range (expected db₀ : Fin n × Fin 3 → String) := by
    ext aid
    constructor
    · rintro ⟨r, hr, -⟩
      exact (row_iff hp h hcommitted).mp ⟨r, hr⟩
    · rintro ⟨k, rfl⟩
      obtain ⟨r, hr⟩ := (row_iff hp h hcommitted).mpr ⟨k, rfl⟩
      exact ⟨r, hr, (row_of hp h hids hr).1⟩
  rw [committed_actions, hset, ncard_expected h hids]

/-- How often an action is among the charges. -/
theorem count_ids (db : Db) (aid : String) :
    (db.charges.map fun c => c.action_id).count aid = (db.chargesOf aid).length := by
  rw [List.count_eq_length_filter, List.filter_map, List.length_map]
  rfl

/-- The action ids of the charges: each once, and each that has a row. -/
theorem count_charges (hp : Inv db₀.turns turnOf p) (h : Stored (List.range n) db₀) (hids : DistinctIds db₀.turns)
    (hcommitted : ∀ i : Fin n, Committed (session, turn i) p) : p.db.charges.length = n * 3 := by
  let ids := p.db.charges.map fun c => c.action_id
  have hnodup : ids.Nodup := by
    rw [List.nodup_iff_count_le_one]
    intro aid
    rw [count_ids]
    rcases hp.one_charge aid with ⟨-, hcharge⟩ | ⟨r, ch, -, hcharge⟩
    · simp [hcharge]
    · simp [hcharge]
  have hset : {aid | aid ∈ ids} = Set.range (expected db₀ : Fin n × Fin 3 → String) := by
    ext aid
    show aid ∈ ids ↔ ∃ k : Fin n × Fin 3, expected db₀ k = aid
    rw [← row_iff hp h hcommitted, ← List.count_pos_iff, count_ids]
    rcases hp.one_charge aid with ⟨hrow, hcharge⟩ | ⟨r, ch, hrow, hcharge⟩
    · simp [hcharge, hrow]
    · simp [hcharge, hrow]
  have hcard : {aid | aid ∈ ids}.ncard = ids.length := by
    rw [← List.coe_toFinset, Set.ncard_coe_finset, List.toFinset_card_of_nodup hnodup]
  rw [← ncard_expected h hids, ← hset, hcard]
  exact (List.length_map _).symm

theorem count_turns (hp : Inv db₀.turns turnOf p) (h : Stored (List.range n) db₀)
    (hcommitted : ∀ i : Fin n, Committed (session, turn i) p) : committed_turns p.db = n := by
  have hset : {t | ∃ r, p.db.turns (session, t) = some r ∧ r.state = .committed} =
      Set.range fun i : Fin n => turn i := by
    ext t
    constructor
    · rintro ⟨r, hr, -⟩
      have hsame := hp.plans (session, t)
      rw [hr] at hsame
      obtain ⟨r₀, hr₀, -⟩ := hsame.symm.of_some
      obtain ⟨-, i, hi, hk, -⟩ := h.plan _ r₀ hr₀
      exact ⟨⟨i, List.mem_range.mp hi⟩, (Prod.mk.inj hk).2.symm⟩
    · rintro ⟨i, rfl⟩
      exact hcommitted i
  have hinj : Function.Injective fun i : Fin n => turn i := fun i j hij => Fin.ext (turn_injective hij)
  rw [committed_turns, hset, ← Set.image_univ, Set.ncard_image_of_injective _ hinj, Set.ncard_univ]
  simp

/-- The three actions of a turn, those with identical arguments too. -/
theorem count_of_turn (hp : Inv db₀.turns turnOf p) (h : Stored (List.range n) db₀) (hids : DistinctIds db₀.turns)
    (hcommitted : ∀ i : Fin n, Committed (session, turn i) p) (i : Fin n) : actions_of_turn p.db (turn i) = 3 := by
  have hset : {aid | ∃ r, p.db.actions aid = some r ∧ r.session = session ∧ r.turn = turn i} =
      Set.range fun o : Fin 3 => expected db₀ (i, o) := by
    ext aid
    constructor
    · rintro ⟨r, hr, -, ht⟩
      obtain ⟨⟨i', o'⟩, rfl⟩ := (row_iff hp h hcommitted).mp ⟨r, hr⟩
      have hi : i' = i := Fin.ext (turn_injective ((row_of hp h hids hr).2.symm.trans ht))
      exact ⟨o', by rw [hi]⟩
    · rintro ⟨o', rfl⟩
      obtain ⟨r, hr⟩ := (row_iff hp h hcommitted).mpr ⟨(i, o'), rfl⟩
      exact ⟨r, hr, row_of hp h hids hr⟩
  have hinj : Function.Injective fun o : Fin 3 => expected db₀ (i, o) := fun o o' hoo =>
    (Prod.mk.inj (h.expected_injective hids hoo)).2
  rw [actions_of_turn, hset, ← Set.image_univ, Set.ncard_image_of_injective _ hinj, Set.ncard_univ]
  simp

/-- **What all turns committed look like to the gate.** -/
theorem passes (hp : Inv db₀.turns turnOf p) (h : Stored (List.range n) db₀) (hids : DistinctIds db₀.turns)
    (hcommitted : ∀ i : Fin n, Committed (session, turn i) p) : PHASE7_PASS n p.db where
  actions_double_executed := by rw [doubles_eq_nil hp]; rfl
  committed_actions := count_actions hp h hids hcommitted
  charge_rows := count_charges hp h hids hcommitted
  committed_turns := count_turns hp h hcommitted
  legit_duplicate_both_executed t ht := by
    -- a turn that has an action is one of those that were stored
    obtain ⟨aid, r, hr, hs, hrt⟩ := Set.nonempty_of_ncard_ne_zero ht
    obtain ⟨k, rfl⟩ := (row_iff hp h hcommitted).mp ⟨r, hr⟩
    obtain rfl : t = turn k.1 := hrt.symm.trans (row_of hp h hids hr).2
    exact count_of_turn hp h hids hcommitted k.1

end Counts

/-! ## The theorem

The invariant of the race and the commits of the sweep together are what the counts need. -/

/-- The turn of each worker of the sweep. -/
def sweepTurn (n : Nat) (i : Fin n) : String × String := (session, turn i)

theorem sweepTurn_injective (n : Nat) : Function.Injective (sweepTurn n) :=
  fun _ _ hij => Fin.ext (turn_injective (Prod.mk.inj hij).2)

/-- **The gate passes.** Whatever the race does — any crew, interleaved in any order, with deaths anywhere — and in
    whatever order the statements of the sweep are executed: once the workers of the sweep have ended, the counts are
    what `PHASE7_PASS` asks for. -/
theorem main_passes_every_race [DecidableEq κ] [Driver] (dtx : DTX κ) (n : Nat) (fs : FileSys) (w₀ : World κ)
    (hbegin : (begin_turns dtx n).run ⟨rest Db.empty, fs, fun _ => none⟩ = some (.ok (), w₀))
    (hids : DistinctIds w₀.server.db.turns) (crew : Crew κ) (c : Config κ Stmt (World κ) Exn Unit)
    (hrace : RunsTo crew w₀ c) (pid : Fin n → Nat) (c' : Config (Fin n) Stmt (World (Fin n)) Exn Unit)
    (hsweep : RunsTo (sweepers (sweepTurn n) pid) (after c.shared) c')
    (hjoin : ∀ i, c'.procs i = .running (.ret ())) : PHASE7_PASS n c'.shared.server.db := by
  obtain ⟨hstart, hstored⟩ := stored_begin_turns hbegin
  have hinj : Function.Injective (sweepTurn n) := sweepTurn_injective n
  obtain ⟨⟨hinv, -⟩, hends⟩ := sweep_ends hstart hstored.distinctOrdinals hids hrace hinj hstored.playable hsweep
  exact passes hinv hstored hids fun i => hends i (hjoin i)

/-! Two turns: a worker of the first one acquires it and dies; the sweep takes all six charges. -/

section Two

local instance gateDriver : Driver := .postgres

def two_cids : Fin 2 → String
  | 0 => "f60e017a2801ae20d70fa4debf428db8107180e25329370271820bf687da44f4"
  | 1 => "42ed6b2440bafcbc122bb8b44331ce82f0e3cdb9a7a944ff31e6f552ec7b83fe"

theorem two_commit_ids : ∀ i : Fin 2, commit_id_of (.arr (plan_for i)) = some (two_cids i) := by decide +kernel

/-- Their ids differ. -/
theorem two_ids : ∀ i i' : Fin 2, ∀ o o' : Fin 3,
    action_id session (turn i) (two_cids i) (.int (o : Nat)) =
      action_id session (turn i') (two_cids i') (.int (o' : Nat)) → i = i' ∧ o = o' := by
  decide +kernel

def twoRow (i : Fin 2) : TurnRow := ⟨two_cids i, (Json.arr (plan_for i)).dumps, .open⟩

/-- Their plans are stored. -/
def two : World Bool :=
  ⟨rest (DTX.begun session (turn 1) (twoRow ⟨1, Nat.one_lt_two⟩)
    (DTX.begun session (turn 0) (twoRow ⟨0, Nat.two_pos⟩) Db.empty)), .empty, fun _ => none⟩

theorem begin_two :
    (begin_turns ⟨true, true, 1⟩ 2).run ⟨rest Db.empty, .empty, fun _ => none⟩ = some (.ok (), two) := by
  let x : DTX Bool := ⟨true, true, 1⟩
  have hcid₀ : commit_id_of (.arr (plan_for 0)) = some (two_cids 0) := two_commit_ids 0
  have hcid₁ : commit_id_of (.arr (plan_for 1)) = some (two_cids 1) := two_commit_ids 1
  show (Prog.forEach [0, 1] _).run _ = _
  rw [Prog.forEach_cons, Prog.run_bind, Prog.run_bind, x.run_begin_turn hcid₀, Option.bind_some, Prog.andThen_ok,
    Prog.run_pure, Option.bind_some, Prog.andThen_ok, Prog.forEach_cons, Prog.run_bind, Prog.run_bind,
    x.run_begin_turn hcid₁]
  rfl

/-- The row of a turn. -/
theorem two_row (i : Fin 2) : two.server.db.turns (session, turn i) = some (twoRow i) := by
  have hi : i = 0 ∨ i = 1 := by
    revert i
    decide
  rcases hi with rfl | rfl <;> rfl

theorem distinctIds_two : DistinctIds two.server.db.turns := by
  obtain ⟨-, hstored⟩ := stored_begin_turns begin_two
  have hcid : ∀ i : Fin 2, cidOf two.server.db i = two_cids i := by
    intro i
    rw [cidOf, two_row]
    rfl
  intro s t cid o args s' t' cid' o' args' h h' hid
  obtain ⟨i, k, rfl, rfl, rfl, rfl⟩ := hstored.of_isStep h
  obtain ⟨i', k', rfl, rfl, rfl, rfl⟩ := hstored.of_isStep h'
  rw [hcid, hcid] at hid
  obtain ⟨rfl, rfl⟩ := two_ids i i' k k' hid
  exact ⟨rfl, rfl, rfl⟩

def twoCrew : Crew Bool := ⟨fun _ => .worker session (turn 0), fun _ => 1⟩

theorem main_passes_every_race_two : ∃ c : Config Bool Stmt (World Bool) Exn Unit, RunsTo twoCrew two c ∧
    c.procs false = .dead ∧ c.shared.server.db.turn_owner (session, turn 0) = some 1 ∧
    ∃ c' : Config (Fin 2) Stmt (World (Fin 2)) Exn Unit,
      RunsTo (sweepers (sweepTurn 2) fun _ => 1) (after c.shared) c' ∧ (∀ i, c'.procs i = .running (.ret ())) ∧
        PHASE7_PASS 2 c'.shared.server.db := by
  obtain ⟨hstart, hstored⟩ := stored_begin_turns begin_two
  have hfresh : RunsTo twoCrew two ⟨two, fun _ => .fresh⟩ := Lts.Reachable.start ⟨rfl, fun _ => rfl⟩
  have hacquired := System.Reachable.steps (hfresh.spawn (i := false) rfl) (Function.update_self ..)
    ((Prog.Steps.part (DTX.run_acquire ⟨false, true, 1⟩)).tryCatch (fun _ => pure ()) |>.bind fun _ =>
      DTX.rollback ⟨false, true, 1⟩)
  have hdead := hacquired.die (i := false) rfl
  obtain ⟨c', hsweep, hret, -⟩ := exists_sweep hstart hstored.distinctOrdinals distinctIds_two hdead (sweepTurn 2)
    (sweepTurn_injective 2) hstored.playable (fun _ => 1) (List.finRange 2) (List.nodup_finRange 2)
  have hjoin : ∀ i, c'.procs i = .running (.ret ()) := fun i => hret i (List.mem_finRange i)
  exact ⟨_, hdead, rfl, rfl, c', hsweep, hjoin, main_passes_every_race ⟨true, true, 1⟩ 2 .empty two
    begin_two distinctIds_two twoCrew _ hdead (fun _ => 1) c' hsweep hjoin⟩

end Two

end AgentTx.Dtx.Gate
