import AgentTx.Gateway.Observation
import AgentTx.Recovery.Protocol

/-!
# `Recovery.Independence` — when the recovery of the tools depends on the KV plane

`recover_turn` decides what to do about the KV before it runs the tools again, and an exception of
`KVView.restore` ends it there. So what it leaves behind is what `Coordinator.recover` alone leaves exactly
when the manifest can be read, or there is nothing left to recover (`independent_iff`).

Layout of the proof:
* **Manifests** — `restore_ok_iff`: `KVView.restore` returns exactly when the manifest is `Readable`, whatever it then
  decides.
* **The WAL grows** — a turn that has something to do changes the WAL, and a WAL that has grown is another one
  (`left_ne_of_grows`).
* **Nothing to do** — `left_run_turn_iff`: the recovery of the tools leaves everything as it is exactly when it is
  refused or killed at once, or the turn is over and has no actions (`NothingToDo`).

Main result: `independent_iff`, for two KV planes and any decoder of JSON.
-/

namespace AgentTx.Recovery

open Gateway
open Kv (Plane Provenance Entry)

variable {R X : Type}

/-- What a program leaves behind: the tables, the WAL among them, and the outside world. -/
def left {α : Type} (p : GwProg R X α) (w : World R X) : Option (Db R × X) :=
  (p.run w).map fun r => (r.2.committed, r.2.ext)

/-! ## Manifests that can be read -/

/-- The block of this name is not there, or is not what its name says. -/
def Absent (kv : Plane) (h : String) : Prop :=
  kv.entry h = .missing ∨ ∃ b, kv.entry h = .file b ∧ Kv.sha256_hex b ≠ h

/-- A list of block names that can be looked up, to the first that is absent. -/
inductive Lookable (kv : Plane) : List Json → Prop
  | nil : Lookable kv []
  | absent {h : String} {hs : List Json} (habsent : Absent kv h) : Lookable kv (.str h :: hs)
  | found {h : String} {b : List UInt8} {hs : List Json} (hentry : kv.entry h = .file b)
      (hsum : Kv.sha256_hex b = h) (hrest : Lookable kv hs) : Lookable kv (.str h :: hs)

/-- The turn has no manifest; or one that is an object with a `prov_key` and, where that is the current one,
    with `blocks` that can be looked up. -/
def Readable (loads : String → Except Exn Json) (kv : Plane) (turn_lsn : String) (current : Provenance) : Prop :=
  ∀ raw, kv.kv_manifest turn_lsn = some raw →
    ∃ ms prov_key, loads raw = .ok (.obj ms) ∧ Json.lookup "prov_key" ms = some prov_key ∧
      (Kv.isText prov_key current.key = true →
        ∃ v items, Json.lookup "blocks" ms = some v ∧ iterate v = .ok items ∧ Lookable kv items)

variable {kv : Plane}

theorem get_of_absent {h : String} (habsent : Absent kv h) : Kv.BlockCAS.get kv.entry h = .ok none := by
  unfold Kv.BlockCAS.get
  rcases habsent with hentry | ⟨b, hentry, hsum⟩
  · rw [hentry]
  · rw [hentry]
    exact if_pos hsum

theorem get_of_found {h : String} {b : List UInt8} (hentry : kv.entry h = .file b) (hsum : Kv.sha256_hex b = h) :
    Kv.BlockCAS.get kv.entry h = .ok (some b) := by
  unfold Kv.BlockCAS.get
  rw [hentry]
  exact if_neg (not_not_intro hsum)

/-- The loop of `restore` ends without an exception on a list that can be looked up, and on no other. -/
theorem getBlocks_ok_iff (items : List Json) : (∃ o, Kv.getBlocks kv.entry items = .ok o) ↔ Lookable kv items := by
  induction items with
  | nil => exact ⟨fun _ => .nil, fun _ => ⟨_, rfl⟩⟩
  | cons v hs ih =>
    constructor
    · rintro ⟨o, ho⟩
      cases v with
      | str h =>
        cases hentry : kv.entry h with
        | missing => exact .absent (Or.inl hentry)
        | file b =>
          by_cases hsum : Kv.sha256_hex b = h
          · refine .found hentry hsum (ih.mp ?_)
            simp only [Kv.getBlocks, get_of_found hentry hsum, bind, Except.bind] at ho
            cases hrest : Kv.getBlocks kv.entry hs with
            | ok o' => exact ⟨o', rfl⟩
            | error e =>
              rw [hrest] at ho
              cases ho
          · exact .absent (Or.inr ⟨b, hentry, hsum⟩)
        | directory =>
          simp only [Kv.getBlocks, Kv.BlockCAS.get, hentry, bind, Except.bind] at ho
          cases ho
      | null => cases ho
      | bool b => cases ho
      | int n => cases ho
      | arr l => cases ho
      | obj l => cases ho
    · intro h
      cases h with
      -- the loop gives up without an exception
      | absent habsent =>
        refine ⟨none, ?_⟩
        simp only [Kv.getBlocks, get_of_absent habsent, bind, Except.bind]
      | found hentry hsum hrest =>
        obtain ⟨o, ho⟩ := ih.mpr hrest
        simp only [Kv.getBlocks, get_of_found hentry hsum, bind, Except.bind, ho, Except.map]
        exact ⟨_, rfl⟩

/-- One computation after the other. -/
theorem exists_ok_bind {ε α β : Type} {x : Except ε α} {f : α → Except ε β} :
    (∃ b, (x >>= f) = .ok b) ↔ ∃ a, x = .ok a ∧ ∃ b, f a = .ok b := by
  cases x with
  | error e => simp [bind, Except.bind]
  | ok a => simp [bind, Except.bind]

theorem subscript_eq_ok {m v : Json} {k : String} :
    subscript m k = .ok v ↔ ∃ ms, m = .obj ms ∧ Json.lookup k ms = some v := by
  unfold subscript Json.get?
  cases m with
  | obj ms => cases hk : Json.lookup k ms <;> simp [hk]
  | null => simp
  | bool b => simp
  | int n => simp
  | str s => simp
  | arr items => simp

/-- **`KVView.restore` raises exactly on a manifest that cannot be read.** -/
theorem restore_ok_iff {loads : String → Except Exn Json} {turn_lsn : String} {current : Provenance} :
    (∃ rr, kv.restore loads turn_lsn current = .ok rr) ↔ Readable loads kv turn_lsn current := by
  unfold Kv.Plane.restore Readable
  cases hrow : kv.kv_manifest turn_lsn with
  | none => simp
  | some raw =>
    simp only [Option.some.injEq, forall_eq']
    rw [exists_ok_bind]
    constructor
    · rintro ⟨m, hm, hrest⟩
      obtain ⟨prov_key, hsub, hrest⟩ := exists_ok_bind.mp hrest
      obtain ⟨ms, rfl, hkey⟩ := subscript_eq_ok.mp hsub
      refine ⟨ms, prov_key, hm, hkey, fun hcur => ?_⟩
      rw [if_pos hcur] at hrest
      obtain ⟨v, hsub', hrest⟩ := exists_ok_bind.mp hrest
      obtain ⟨_, hms, hv⟩ := subscript_eq_ok.mp hsub'
      cases hms
      obtain ⟨items, hitems, hrest⟩ := exists_ok_bind.mp hrest
      obtain ⟨o, ho, -⟩ := exists_ok_bind.mp hrest
      exact ⟨v, items, hv, hitems, (getBlocks_ok_iff items).mp ⟨o, ho⟩⟩
    · rintro ⟨ms, prov_key, hm, hkey, hcur⟩
      refine ⟨_, hm, exists_ok_bind.mpr ⟨prov_key, subscript_eq_ok.mpr ⟨ms, rfl, hkey⟩, ?_⟩⟩
      -- under another provenance no block is looked at
      by_cases hc : Kv.isText prov_key current.key = true
      · rw [if_pos hc]
        obtain ⟨v, items, hv, hitems, hlook⟩ := hcur hc
        obtain ⟨o, ho⟩ := (getBlocks_ok_iff items).mpr hlook
        refine exists_ok_bind.mpr ⟨v, subscript_eq_ok.mpr ⟨ms, rfl, hv⟩, ?_⟩
        refine exists_ok_bind.mpr ⟨items, hitems, exists_ok_bind.mpr ⟨o, ho, ?_⟩⟩
        cases o <;> exact ⟨_, rfl⟩
      · rw [if_neg hc]
        exact ⟨_, rfl⟩

/-! ## A turn only adds to the WAL -/

/-- The WAL goes on from `wal`. -/
def growing (wal : List WalRecord) (R X : Type) : Contract R X where
  inv d _ := wal <+: d.wal
  may _ _ _ _ := True
  may_refl _ _ := trivial

/-- The program only adds to the WAL. -/
abbrev Grows {α : Type} (wal : List WalRecord) (p : GwProg R X α) : Prop :=
  (growing wal R X).rules.Triple () (Contract.Settled fun _ _ => True) p
    (fun _ => Contract.Settled fun _ _ => True) fun _ _ => True

variable {wal : List WalRecord} {session turn cid : String}

theorem grows_tick : Grows wal (tick : GwProg R X Unit) := Contract.tick fun _ => trivial

theorem moves_append (r : WalRecord) {F : Db R → X → Prop} :
    (growing wal R X).Moves (fun d => { d with wal := d.wal ++ [r] }) F fun _ _ => True :=
  fun _ _ hinv _ => ⟨List.IsPrefix.trans hinv (List.prefix_append _ _), trivial, trivial⟩

theorem grows_append (type : WalType) (key : String) :
    Grows wal (append session turn type key : GwProg R X Unit) := Contract.append (moves_append _)

theorem grows_appendUnlessHas (type : WalType) :
    Grows wal (appendUnlessHas session turn type : GwProg R X Unit) :=
  Contract.appendUnlessHas (fun _ _ _ _ _ => trivial) (moves_append _)

/-- The end of a turn. -/
theorem grows_end (results : List Result) : Grows wal (do
    appendUnlessHas session turn .TURN_COMMITTED
    tick
    pure results : GwProg R X (List Result)) :=
  (grows_appendUnlessHas _).bind fun _ => grows_tick.bind fun _ => fun _ _ h => h

section Calls

variable [Driver]

theorem grows_call (tool : Tool R X) (args : Json) (ordinal : Int) :
    Grows wal (call tool args session turn ordinal cid) := by
  refine Contract.call_wal (F := fun _ => True) ?_ (fun _ _ _ _ _ => trivial) fun _ _ => trivial
  intro d d' x x' hwal (hinv : wal <+: d.wal)
  show wal <+: d'.wal
  rw [hwal]
  exact hinv

/-- What follows the intent of an action. -/
theorem grows_afterPrepared {α : Type} (tool : Tool R X) (args : Json) (ordinal : Int)
    {f : Result → GwProg R X α} (hf : ∀ res, Grows wal (f res)) :
    Grows wal (do
      tick
      let res ← call tool args session turn ordinal cid
      append session turn .OBSERVATION_COMMITTED res.key
      tick
      f res) :=
  grows_tick.bind fun _ => (grows_call tool args ordinal).bind fun res =>
    (grows_append _ _).bind fun _ => grows_tick.bind fun _ => hf res

theorem grows_runActions : ∀ (plan : List (Tool R X × Json)) (o : Nat),
    Grows wal (runActions session turn cid o plan)
  | [], _ => fun _ _ h => h
  | (tool, args) :: plan, o =>
      (grows_append _ _).bind fun _ => grows_afterPrepared tool args o fun _ =>
        (grows_runActions plan (o + 1)).bind fun _ => fun _ _ h => h

end Calls

/-- A program that starts on a longer WAL and only adds to it does not leave the tables as they were. -/
theorem left_ne_of_grows {α : Type} {p : GwProg R X α} {d : Db R} {x : X} {r : WalRecord} {clk : Clock}
    (h : ∀ wal, Grows wal p) :
    left p (settled { d with wal := d.wal ++ [r] } x clk) ≠ some (d, x) := by
  intro hleft
  obtain ⟨⟨res, w⟩, hrun, hw⟩ := Option.map_eq_some_iff.mp hleft
  have hd : w.committed = d := congrArg Prod.fst hw
  have hstart : d.wal ++ [r] <+: (settled { d with wal := d.wal ++ [r] } x clk).committed.wal := List.prefix_refl _
  have hgrown : d.wal ++ [r] <+: w.committed.wal :=
    (Serial.triple_run (h (d.wal ++ [r])) hstart ⟨rfl, trivial⟩ hrun).1
  rw [hd] at hgrown
  have hlen := hgrown.length_le
  rw [List.length_append, List.length_singleton] at hlen
  omega

/-! ## What is left to recover -/

variable {plan : List (Tool R X × Json)} {d : Db R} {x : X} {clk : Clock}

/-- Running the turn again would do nothing: its plan has no commit id, or it has begun and the clock kills
    it at once, or it is an empty turn that has ended. -/
def NothingToDo (session turn : String) (plan : List (Tool R X × Json)) (d : Db R) (clk : Clock) : Prop :=
  commit_id_of (planJson plan) = none ∨
    Logged session turn .BEGIN_TURN d.wal ∧
      (clk.kill_at = clk.n + 1 ∨ plan = [] ∧ Logged session turn .TURN_COMMITTED d.wal)

theorem run_appendUnlessHas_of_logged {type : WalType} (h : Logged session turn type d.wal) :
    (appendUnlessHas session turn type).run (settled d x clk) = some (.ok (), settled d x clk) := by
  have hhas := any_eq_true_iff_logged.mpr h
  simp only [appendUnlessHas, Prog.run_bind, run_has, Option.bind_some, Prog.andThen_ok, hhas, if_true]
  rfl

theorem run_appendUnlessHas_of_not_logged {type : WalType} (h : ¬ Logged session turn type d.wal) :
    (appendUnlessHas session turn type).run (settled d x clk) =
      some (.ok (), settled { d with wal := d.wal ++ [⟨session, turn, type, ""⟩] } x clk) := by
  have hhas := mt any_eq_true_iff_logged.mp h
  simp only [appendUnlessHas, Prog.run_bind, run_has, Option.bind_some, Prog.andThen_ok, hhas]
  exact run_append _

/-- The rest of a program, after a part that runs through. -/
theorem left_bind {α β : Type} {p : GwProg R X α} {f : α → GwProg R X β} {w w' : World R X} {a : α}
    (h : p.run w = some (.ok a, w')) : left (p >>= f) w = left (f a) w' := by
  unfold left
  rw [Prog.run_bind, h, Option.bind_some, Prog.andThen_ok]

theorem left_bind_error {α β : Type} {p : GwProg R X α} {f : α → GwProg R X β} {w w' : World R X} {e : Exn}
    (h : p.run w = some (.error e, w')) : left (p >>= f) w = some (w'.committed, w'.ext) := by
  unfold left
  rw [Prog.run_bind, h, Option.bind_some, Prog.andThen_error]
  rfl

/-- The last tick of a turn changes nothing, whether it kills or not. -/
theorem left_tick {α : Type} (a : α) : left (do tick; pure a : GwProg R X α) (settled d x clk) = some (d, x) := by
  by_cases hkill : clk.kill_at = clk.n + 1
  · exact left_bind_error (run_tick_crash hkill)
  · exact left_bind (run_tick (Or.inr fun h => hkill h.symm))

section Recover

variable [Driver]

/-- An empty turn, once it has begun, leaves everything as it is when it has ended. -/
theorem left_turn_nil_iff :
    left (do
        let results ← runActions session turn cid 0 ([] : List (Tool R X × Json))
        appendUnlessHas session turn .TURN_COMMITTED
        tick
        pure results) (settled d x clk) = some (d, x) ↔ Logged session turn .TURN_COMMITTED d.wal := by
  rw [left_bind (a := []) rfl]
  by_cases hend : Logged session turn .TURN_COMMITTED d.wal
  · rw [left_bind (run_appendUnlessHas_of_logged hend)]
    exact ⟨fun _ => hend, fun _ => left_tick _⟩
  · rw [left_bind (run_appendUnlessHas_of_not_logged hend)]
    refine ⟨fun h => absurd h (left_ne_of_grows fun wal => ?_), fun h => absurd h hend⟩
    exact grows_tick.bind fun _ => fun _ _ h => h

/-- A turn with an action appends the action's intent. -/
theorem left_turn_cons_ne (step : Tool R X × Json) (rest : List (Tool R X × Json)) :
    left (do
        let results ← runActions session turn cid 0 (step :: rest)
        appendUnlessHas session turn .TURN_COMMITTED
        tick
        pure results) (settled d x clk) ≠ some (d, x) := by
  obtain ⟨tool, args⟩ := step
  have hactions : runActions session turn cid 0 ((tool, args) :: rest) = (do
      append session turn .ACTION_PREPARED tool.name
      do
        tick
        let res ← call tool args session turn (0 : Nat) cid
        append session turn .OBSERVATION_COMMITTED res.key
        tick
        let results ← runActions session turn cid 1 rest
        pure (res :: results)) := rfl
  rw [hactions, Prog.bind_assoc, left_bind (run_append _)]
  refine left_ne_of_grows fun wal => ?_
  refine RelyGuarantee.Triple.bind (grows_afterPrepared tool args _ fun res => ?_) grows_end
  exact (grows_runActions rest 1).bind fun _ => fun _ _ h => h

/-- **`Coordinator.recover` leaves everything as it is exactly when there is nothing to do.** -/
theorem left_run_turn_iff :
    left (run_turn session turn plan) (settled d x clk) = some (d, x) ↔ NothingToDo session turn plan d clk := by
  unfold NothingToDo
  cases hcid : commit_id_of (planJson plan) with
  | none =>
    refine ⟨fun _ => Or.inl rfl, fun _ => ?_⟩
    unfold run_turn
    rw [hcid]
    rfl
  | some cid =>
    have hturn : left (run_turn session turn plan) (settled d x clk) = left (do
        appendUnlessHas session turn .BEGIN_TURN
        tick
        let results ← runActions session turn cid 0 plan
        appendUnlessHas session turn .TURN_COMMITTED
        tick
        pure results) (settled d x clk) := by
      unfold run_turn
      rw [hcid]
      rfl
    rw [hturn]
    by_cases hbegun : Logged session turn .BEGIN_TURN d.wal
    · rw [left_bind (run_appendUnlessHas_of_logged hbegun)]
      by_cases hkill : clk.kill_at = clk.n + 1
      · rw [left_bind_error (run_tick_crash hkill)]
        exact ⟨fun _ => Or.inr ⟨hbegun, Or.inl hkill⟩, fun _ => rfl⟩
      · rw [left_bind (run_tick (Or.inr fun h => hkill h.symm))]
        cases plan with
        | nil =>
          refine left_turn_nil_iff.trans ⟨fun hend => Or.inr ⟨hbegun, Or.inr ⟨rfl, hend⟩⟩, ?_⟩
          rintro (h | ⟨-, h | ⟨-, h⟩⟩)
          · cases h
          · exact absurd h hkill
          · exact h
        | cons step rest =>
          refine ⟨fun h => absurd h (left_turn_cons_ne step rest), ?_⟩
          rintro (h | ⟨-, h | ⟨h, -⟩⟩)
          · cases h
          · exact absurd h hkill
          · cases h
    · -- the turn has not begun: `BEGIN_TURN` is appended
      rw [left_bind (run_appendUnlessHas_of_not_logged hbegun)]
      refine ⟨fun h => absurd h (left_ne_of_grows fun wal => ?_), ?_⟩
      · exact grows_tick.bind fun _ => (grows_runActions plan 0).bind fun rs => grows_end rs
      · rintro (h | ⟨h, -⟩)
        · cases h
        · exact absurd h hbegun

/-! ## The KV plane and the recovery of the tools -/

variable {loads : String → Except Exn Json} {kv : Plane} {prov : Provenance}

/-- A manifest that can be read leads to the recovery of the tools, whatever is decided about the KV. -/
theorem left_recover_turn_of_readable (h : Readable loads kv (lsn session turn) prov) (w : World R X) :
    left (recover_turn loads kv session turn plan prov) w = left (run_turn session turn plan) w := by
  obtain ⟨rr, hrr⟩ := restore_ok_iff.mpr h
  unfold recover_turn left
  rw [hrr]
  simp only [Prog.ofExcept, Prog.ret_bind, Prog.run_bind]
  cases (run_turn session turn plan).run w with
  | none => rfl
  | some r =>
    obtain ⟨res, w'⟩ := r
    cases res <;> rfl

/-- A manifest that cannot be read ends the recovery before it has begun. -/
theorem left_recover_turn_of_not_readable (h : ¬ Readable loads kv (lsn session turn) prov) (w : World R X) :
    left (recover_turn loads kv session turn plan prov) w = some (w.committed, w.ext) := by
  unfold recover_turn
  cases hrr : kv.restore loads (lsn session turn) prov with
  | ok rr => exact absurd (restore_ok_iff.mp ⟨rr, hrr⟩) h
  | error e => rfl

theorem left_recover_turn_iff :
    left (recover_turn loads kv session turn plan prov) (settled d x clk) =
        left (run_turn session turn plan) (settled d x clk) ↔
      Readable loads kv (lsn session turn) prov ∨ NothingToDo session turn plan d clk := by
  by_cases h : Readable loads kv (lsn session turn) prov
  · exact ⟨fun _ => Or.inl h, fun _ => left_recover_turn_of_readable h _⟩
  · rw [left_recover_turn_of_not_readable h, eq_comm]
    refine left_run_turn_iff.trans ⟨Or.inr, ?_⟩
    rintro (hread | hnothing)
    · exact absurd hread h
    · exact hnothing

/-- **The recovery of the tools does not depend on the KV plane**, for two contents of it and whatever
    `json.loads` makes of their manifests, exactly when both can be read, or there is nothing to do. -/
theorem independent_iff (loads : String → Except Exn Json) (kv₁ kv₂ : Plane) (session turn : String)
    (plan : List (Tool R X × Json)) (prov : Provenance) (d : Db R) (x : X) (clk : Clock) :
    (left (recover_turn loads kv₁ session turn plan prov) (settled d x clk) =
        left (recover_turn loads kv₂ session turn plan prov) (settled d x clk) ∧
      left (recover_turn loads kv₁ session turn plan prov) (settled d x clk) =
        left (run_turn session turn plan) (settled d x clk)) ↔
      (Readable loads kv₁ (lsn session turn) prov ∧ Readable loads kv₂ (lsn session turn) prov) ∨
        NothingToDo session turn plan d clk := by
  constructor
  · rintro ⟨hsame, halone⟩
    have h₁ := left_recover_turn_iff.mp halone
    have h₂ := left_recover_turn_iff.mp (hsame.symm.trans halone)
    rcases h₁ with h₁ | h₁
    · exact h₂.imp_left fun h₂ => ⟨h₁, h₂⟩
    · exact Or.inr h₁
  · intro h
    have h₁ : left (recover_turn loads kv₁ session turn plan prov) (settled d x clk) =
        left (run_turn session turn plan) (settled d x clk) := left_recover_turn_iff.mpr (h.imp_left And.left)
    have h₂ : left (recover_turn loads kv₂ session turn plan prov) (settled d x clk) =
        left (run_turn session turn plan) (settled d x clk) := left_recover_turn_iff.mpr (h.imp_left And.right)
    exact ⟨h₁.trans h₂.symm, h₁⟩

end Recover

open Observation (charges uncharged)

local instance chargeDriver : Driver := .sqlite

/-- No turn has a manifest. -/
def empty : Plane := ⟨fun _ => none, fun _ => .missing⟩

/-- The manifests have been overwritten with a text that is no JSON. -/
def corrupt : Plane := ⟨fun _ => some "not json", fun _ => .missing⟩

/-- With a corrupt manifest, a turn of one charge is not recovered. -/
theorem corrupt_manifest_stops_recovery :
    left (recover_turn json_loads empty "s" "t" charges Kv.oneBlock.prov) uncharged ≠
      left (recover_turn json_loads corrupt "s" "t" charges Kv.oneBlock.prov) uncharged := by
  have hempty : Readable json_loads empty (lsn "s" "t") Kv.oneBlock.prov := fun raw hrow => nomatch hrow
  have hcorrupt : ¬ Readable json_loads corrupt (lsn "s" "t") Kv.oneBlock.prov := by
    intro hread
    obtain ⟨ms, prov_key, hload, -⟩ := hread "not json" rfl
    cases hload
  obtain ⟨cid, hcid⟩ : ∃ cid, commit_id_of (planJson charges) = some cid := exists_commit_id rfl
  rw [left_recover_turn_of_readable hempty, left_recover_turn_of_not_readable hcorrupt]
  intro hleft
  rcases left_run_turn_iff.mp hleft with hnone | ⟨⟨r, hmem, -⟩, -⟩
  · cases hcid.symm.trans hnone
  · cases hmem

end AgentTx.Recovery
