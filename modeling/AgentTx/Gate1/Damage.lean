import Mathlib.Tactic.IntervalCases
import AgentTx.Gate1.Effects

/-!
# `Gate1.Damage` — how often an order is charged under each orchestrator, and how many receipts it has

One worker of each orchestrator takes the charge and the receipt through the steps of `Lib.Redo`
(`run_none_ends` and the three after it), so that any history of exits is one of `Redo.History` and its damage is
counted exactly (`damage_is_counted`).

Layout of the proof:
* **Parts of a runner** — the charge and the receipt are in their own tables and files, so that each is taken through
  its own state (`insertRow_ends`, `receipt_part`, `checkpoint_charge`, `checkpoint_receipt`).
* **The runners** — one lemma each; they differ in where the record is written: nowhere (`run_none_ends`), in the
  transaction of the charge (`run_dbos_ends`), under the name of the receipt (`run_agenttx_ends`), or after both
  (`run_checkpoint_ends`).
* **Histories** — `Killed.at`: the points at which workers exited, folded over the two states.
* **The damage** — the totals of `Lib.Redo`, counted in exits: `total_charges`, `total_receipts`.

Main result: `damage_is_counted`.
-/

namespace AgentTx.Gate1

open Redo (Guard Stage Cell History)

variable {uuid : Nat → String} {store : String} {o : Orch} {k : Point} {c r : Cell} {d : Nat} {w w' : World}

/-- A worker that comes to its end has finished the turn, another has exited at its kill point. On a turn of which
    nothing is recorded only a worker that is not killed comes to its end. -/
def Attempt (uuid : Nat → String) (store : String) (d : Nat) (o : Orch) (k : Point) (c r : Cell) (p : GateProg Unit)
    (w : World) : Prop :=
  p.Ends (fun _ w' => At uuid store (d + 1) o (c.stop o.charge .past) (r.stop o.receipt .past) w' ∧
    (c.recorded = false → r.recorded = false → k = .none)) (Exited uuid store d o k c r) w

/-- A worker that has passed both effects is not killed. -/
theorem eq_none_of_ne (hcharge : k.receipt ≠ .before) (hbetween : .post_receipt_pre_record ≠ k)
    (hpast : .post_receipt_record ≠ k) : k = .none := by
  cases k with
  | none => rfl
  | post_receipt_pre_record => exact absurd rfl hbetween
  | post_receipt_record => exact absurd rfl hpast
  | _ => exact absurd rfl hcharge

/-! ## Records in tables

The part that two orchestrators share: the receipt is written, then recorded in a table. -/

theorem insertRow_ends {Q : Unit → World → Prop} {E : Exn → World → Prop} {f : App → App}
    (hidle : w.tx = Option.none) (h : Q () { w with app := f w.app }) : (insertRow f).Ends Q E w := by
  obtain ⟨app, tx, files, draws⟩ := w
  cases hidle
  exact (Prog.ends_modify _ _).mpr h

/-- The receipt is recorded in a table. -/
theorem At.record {rec : Record} (h : At uuid store d o c r w)
    (hrec : Records store o c.recorded true { w with app := w.app.record rec }) :
    At uuid store d o c ⟨r.count, true⟩ { w with app := w.app.record rec } := by
  have hcharges : (w.app.record rec).charges = w.app.charges := by
    cases rec <;> rfl
  exact ⟨h.drawn, h.idle, hcharges.trans h.charges, h.receipts, hrec, h.no_links⟩

/-- The receipt and its record, where the record is a row. -/
theorem receipt_part {receipt : GateProg Unit} {rec : Record} (hr : r.recorded = false)
    (ho : o.receipt = .after ∨ o.receipt = .inPlace)
    (hreceipt : ∀ {Q : Unit → World → Prop} {E : Exn → World → Prop},
      (∀ w', At uuid store (d + 1) o (c.stop o.charge .past) (r.stop o.receipt .between) w' → w'.app = w.app →
        Q () w') → receipt.Ends Q E w)
    (hrec : ∀ w', w'.app = w.app.record rec → Records store o (c.stop o.charge .past).recorded true w') :
    (do receipt
        crash .post_receipt_pre_record k
        insertRow (·.record rec)
        crash .post_receipt_record k : GateProg Unit).Ends
      (fun _ w' => At uuid store (d + 1) o (c.stop o.charge .past) (r.stop o.receipt .past) w' ∧
        (k.receipt ≠ .before → k = .none)) (Exited uuid store d o k c r) w := by
  have hpast : r.stop o.receipt .past = ⟨(r.stop o.receipt .between).count, true⟩ := by
    rw [Cell.stop_past hr, Cell.stop_between hr]
    rcases ho with ho | ho <;> rw [ho] <;> rfl
  -- in between, the receipt is written and not recorded
  refine Prog.Ends.bind (Q := fun _ w₁ =>
    At uuid store (d + 1) o (c.stop o.charge .past) (r.stop o.receipt .between) w₁ ∧ w₁.app = w.app)
    (hreceipt fun w' hw' happ => ⟨hw', happ⟩) ?_
  rintro _ w₁ ⟨h₁, happ⟩
  refine crash_then ?_ fun hbetween => ?_
  · rintro rfl
    exact Exited.atReceipt rfl nofun hr h₁
  refine Prog.Ends.bind (Q := fun _ => At uuid store (d + 1) o (c.stop o.charge .past) (r.stop o.receipt .past))
    (insertRow_ends h₁.idle ?_) ?_
  · rw [hpast]
    exact h₁.record (hrec _ (congrArg (·.record rec) happ))
  · intro _ w₃ h₃
    refine crash_ends ?_ fun hpast => ⟨h₃, fun hcharge => eq_none_of_ne hcharge hbetween hpast⟩
    rintro rfl
    exact Exited.atReceipt rfl nofun hr h₃

/-! ## The runners

What a worker leaves at its end, or at the point where it exits. -/

/-- **Nothing is recorded**: a worker charges and writes a receipt, whatever there is. -/
theorem run_none_ends (huuid : Set.InjOn uuid (Set.Iic d)) (h : At uuid store d .none c r w) :
    Attempt uuid store d .none k c r (run_none uuid store k) w := by
  obtain ⟨hc, hr⟩ := h.records
  have hsame : r.stop .nothing .past = r.stop .nothing .between := by
    rw [Cell.stop_past hr, Cell.stop_between hr]
    rfl
  have hbetween : r.stop .nothing .between = ⟨r.count + 1, r.recorded⟩ := by
    rw [Cell.stop_between hr, hr]
    rfl
  rw [run_none_eq]
  refine Prog.Ends.bind (charge_part hc (Or.inl rfl) h ⟨rfl, hr⟩) ?_
  rintro _ w₁ ⟨h₁, hcharge⟩
  refine Prog.Ends.bind (Q := fun _ => At uuid store (d + 1) .none (c.stop .nothing .past) (r.stop .nothing .between))
    (unique_ends huuid (o := .none) nofun h₁ ?_) ?_
  · intro w' hw' _
    rw [hbetween]
    exact hw'
  intro _ w₂ h₂
  refine crash_then ?_ fun hbetween => ?_
  · rintro rfl
    exact Exited.atReceipt rfl nofun hr h₂
  have h₃ : At uuid store (d + 1) .none (c.stop .nothing .past) (r.stop .nothing .past) w₂ := hsame ▸ h₂
  refine crash_ends ?_ fun hpast => ⟨h₃, fun _ _ => eq_none_of_ne hcharge hbetween hpast⟩
  rintro rfl
  exact Exited.atReceipt rfl nofun hr h₃

/-- A worker that reads what is recorded, and records the charge in its transaction. -/
theorem recorded_ends {done : List String} {receipt : GateProg Unit} {rec rec' : Record}
    (hoc : o.charge = .together) (hor : o.receipt = .after ∨ o.receipt = .inPlace) (h : At uuid store d o c r w)
    (hcharge : "charge" ∈ done ↔ c.recorded = true) (hreceipt : "receipt" ∈ done ↔ r.recorded = true)
    (hrec : ∀ {charged receipted : Bool} {w w' : World}, Records store o charged receipted w →
      w'.app = w.app.charged (some rec) → Records store o true receipted w')
    (hwrite : r.recorded = false → ∀ {w₂ : World}, At uuid store d o (c.stop o.charge .past) r w₂ →
      ∀ {Q : Unit → World → Prop} {E : Exn → World → Prop},
        (∀ w', At uuid store (d + 1) o (c.stop o.charge .past) (r.stop o.receipt .between) w' → w'.app = w₂.app →
          Q () w') → receipt.Ends Q E w₂)
    (hrec' : ∀ {charged receipted : Bool} {w w' : World}, Records store o charged receipted w →
      w'.app = w.app.record rec' → Records store o charged true w') :
    (do Prog.onlyIf ("charge" ∉ done) do
          crash .pre_charge k
          charge ORDER_ID AMOUNT (some rec)
          crash .post_charge_pre_record k
          crash .post_charge_record k
        Prog.onlyIf ("receipt" ∉ done) do
          receipt
          crash .post_receipt_pre_record k
          insertRow (·.record rec')
          crash .post_receipt_record k : GateProg Unit).Ends
      (fun _ w' => At uuid store (d + 1) o (c.stop o.charge .past) (r.stop o.receipt .past) w' ∧
        (c.recorded = false → r.recorded = false → k = .none)) (Exited uuid store d o k c r) w := by
  -- the charge, unless it is recorded as done
  refine Prog.Ends.bind (Q := fun _ w₂ => At uuid store d o (c.stop o.charge .past) r w₂ ∧
    (c.recorded = false → k.receipt ≠ .before)) (.onlyIf ?_ ?_) ?_
  · intro hnot
    have hc : c.recorded = false := Bool.eq_false_iff.mpr fun hc => hnot (hcharge.mpr hc)
    have hcharged : Records store o true r.recorded
        { w with app := w.app.charged (some rec), tx := Option.none } := hrec h.records rfl
    refine (charge_part hc (Or.inr hoc) h ?_).mono (fun _ _ hpart => ⟨hpart.1, fun _ => hpart.2⟩) fun _ _ he => he
    simp only [hoc, decide_true]
    exact hcharged
  · intro hdone
    have hc : c.recorded = true := hcharge.mp (not_not.mp hdone)
    rw [Cell.stop_of_recorded hc]
    exact ⟨h, fun hnot => absurd hc (by simp [hnot])⟩
  rintro _ w₂ ⟨h₂, hpassed⟩
  -- the receipt, likewise
  refine .onlyIf ?_ ?_
  · intro hnot
    have hr : r.recorded = false := Bool.eq_false_iff.mpr fun hr => hnot (hreceipt.mpr hr)
    exact (receipt_part hr hor (hwrite hr h₂) fun w' happ => hrec' h₂.records happ).mono
      (fun _ _ hpart => ⟨hpart.1, fun hc _ => hpart.2 (hpassed hc)⟩) fun _ _ he => he
  · intro hdone
    have hr : r.recorded = true := hreceipt.mp (not_not.mp hdone)
    rw [Cell.stop_of_recorded hr]
    exact ⟨h₂.mono (Nat.le_succ d), fun _ hnot => absurd hr (by simp [hnot])⟩

/-- **A step is recorded in the transaction of the charge**, and after the receipt. -/
theorem run_dbos_ends (huuid : Set.InjOn uuid (Set.Iic d)) (h : At uuid store d .dbos c r w) :
    Attempt uuid store d .dbos k c r (run_dbos uuid store k) w := by
  obtain ⟨hcharge, hreceipt⟩ := h.records
  have htables : w.tables = w.app := by
    rw [World.tables, h.idle]
    rfl
  unfold Attempt run_dbos
  refine Prog.Ends.bind (Q := fun done w₁ => done = w.app.steps.rows ∧ w₁ = w)
    ((Prog.ends_read _ _).mpr ⟨congrArg (·.steps.rows) htables, rfl⟩) ?_
  rintro _ w₁ ⟨rfl, hw⟩
  subst hw
  refine recorded_ends rfl (Or.inl rfl) h hcharge hreceipt Records.dbos_charge ?_ Records.dbos_receipt
  intro hr w₂ h₂ Q E hQ
  refine unique_ends huuid (o := .dbos) nofun h₂ ?_
  intro w' hw'
  rw [Cell.stop_between hr] at hQ
  rw [hr] at hw'
  exact hQ w' hw'

/-- The steps of a turn that the log has. -/
theorem mem_done {rows : List (String × String)} {turn step : String} :
    step ∈ (rows.filter (·.1 = turn)).map (·.2) ↔ (turn, step) ∈ rows := by
  simp

/-- **The receipt has the name of the turn.** -/
theorem run_agenttx_ends (h : At uuid store d .agenttx c r w) :
    Attempt uuid store d .agenttx k c r (run_agenttx store k) w := by
  obtain ⟨hcharge, hreceipt⟩ := h.records
  have htables : w.tables = w.app := by
    rw [World.tables, h.idle]
    rfl
  unfold Attempt run_agenttx
  refine Prog.Ends.bind (Q := fun done w₁ =>
    done = (w.app.wal.rows.filter (·.1 = "T1")).map (·.2) ∧ w₁ = w) ((Prog.ends_read _ _).mpr ⟨?_, rfl⟩) ?_
  · rw [htables]
  rintro _ w₁ ⟨rfl, hw⟩
  subst hw
  refine recorded_ends rfl (Or.inr rfl) h (mem_done.trans hcharge) (mem_done.trans hreceipt) Records.agenttx_charge ?_
    Records.agenttx_receipt
  intro hr w₂ h₂ Q E hQ
  refine keyed_ends (h₂.mono (Nat.le_succ d)) ?_
  intro w' hw'
  rw [Cell.stop_between hr] at hQ
  rw [hr] at hw'
  exact hQ w' hw'

theorem mem_doneSet_charge {charged receipted : Bool} : "charge" ∈ doneSet charged receipted ↔ charged = true := by
  cases charged <;> cases receipted <;> decide

theorem mem_doneSet_receipt {charged receipted : Bool} :
    "receipt" ∈ insert "charge" (doneSet charged receipted) ↔ receipted = true := by
  cases charged <;> cases receipted <;> decide

theorem insert_charge (charged receipted : Bool) :
    insert "charge" (doneSet charged receipted) = doneSet true receipted := by
  cases charged <;> cases receipted <;> decide

theorem insert_receipt (charged receipted : Bool) :
    insert "receipt" (insert "charge" (doneSet charged receipted)) = doneSet true true := by
  cases charged <;> cases receipted <;> decide

/-- What is recorded after its effect is made between the two. -/
theorem stop_after_past (hc : c.recorded = false) : c.stop .after .past = ⟨(c.stop .after .between).count, true⟩ := by
  rw [Cell.stop_past hc, Cell.stop_between hc]
  rfl

/-- The charge, and the checkpoint that has it. -/
theorem checkpoint_charge (hc : c.recorded = false) (h : At uuid store d .checkpoint c r w) :
    (do crash .pre_charge k
        charge ORDER_ID AMOUNT Option.none
        crash .post_charge_pre_record k
        save store (doneSet true r.recorded)
        crash .post_charge_record k : GateProg Unit).Ends
      (fun _ w' => At uuid store d .checkpoint (c.stop .after .past) r w' ∧ k.receipt ≠ .before)
      (Exited uuid store d .checkpoint k c r) w := by
  refine crash_then ?_ fun hpre => ?_
  · rintro rfl
    exact Exited.atCharge rfl hc ((Cell.stop_before _ _).symm ▸ h)
  refine Prog.Ends.bind (Q := fun _ => At uuid store d .checkpoint (c.stop .after .between) r)
    (charge_ends _ h.idle ?_) ?_
  · have hrec : Records store .checkpoint false r.recorded w := hc ▸ h.records
    rw [Cell.stop_between hc]
    exact h.charge rfl hrec
  intro _ w₁ h₁
  refine crash_then ?_ fun hbetween => ?_
  · rintro rfl
    exact Exited.atCharge rfl hc h₁
  refine Prog.Ends.bind (Q := fun _ => At uuid store d .checkpoint (c.stop .after .past) r) ?_ ?_
  · have hsave := save_ends (E := Exited uuid store d .checkpoint k c r)
      (Q := fun _ => At uuid store d .checkpoint (c.stop .after .past) r) (c.stop .after .past) r h₁
      (by rw [stop_after_past hc]) rfl fun w' hw' => hw'
    rwa [stop_after_past hc] at hsave ⊢
  intro _ w₂ h₂
  refine crash_ends ?_ fun hpast => ⟨h₂, receipt_of_ne hpre hbetween hpast⟩
  rintro rfl
  exact Exited.atCharge rfl hc h₂

/-- The receipt, and the checkpoint that has both. -/
theorem checkpoint_receipt (huuid : Set.InjOn uuid (Set.Iic d)) (hr : r.recorded = false)
    (hcharged : (c.stop .after .past).recorded = true) (h : At uuid store d .checkpoint (c.stop .after .past) r w) :
    (do write_receipt_unique store uuid
        crash .post_receipt_pre_record k
        save store (doneSet true true)
        crash .post_receipt_record k : GateProg Unit).Ends
      (fun _ w' => At uuid store (d + 1) .checkpoint (c.stop .after .past) (r.stop .after .past) w' ∧
        (k.receipt ≠ .before → k = .none)) (Exited uuid store d .checkpoint k c r) w := by
  refine Prog.Ends.bind (Q := fun _ => At uuid store (d + 1) .checkpoint (c.stop .after .past)
    (r.stop .after .between)) (unique_ends huuid (o := .checkpoint) nofun h ?_) ?_
  · intro w' hw' _
    rw [Cell.stop_between hr]
    rw [hr] at hw'
    exact hw'
  intro _ w₁ h₁
  refine crash_then ?_ fun hbetween => ?_
  · rintro rfl
    exact Exited.atReceipt rfl nofun hr h₁
  refine Prog.Ends.bind (Q := fun _ => At uuid store (d + 1) .checkpoint (c.stop .after .past) (r.stop .after .past))
    ?_ ?_
  · have hsave := save_ends (E := Exited uuid store d .checkpoint k c r)
      (Q := fun _ => At uuid store (d + 1) .checkpoint (c.stop .after .past) (r.stop .after .past))
      (c.stop .after .past) (r.stop .after .past) h₁ rfl (by rw [stop_after_past hr]) fun w' hw' => hw'
    rw [hcharged] at hsave
    rwa [stop_after_past hr] at hsave ⊢
  intro _ w₂ h₂
  refine crash_ends ?_ fun hpast => ⟨h₂, fun hpassed => eq_none_of_ne hpassed hbetween hpast⟩
  rintro rfl
  exact Exited.atReceipt rfl nofun hr h₂

/-- **Both steps are recorded after their effects.** -/
theorem run_checkpoint_ends (huuid : Set.InjOn uuid (Set.Iic d)) (h : At uuid store d .checkpoint c r w) :
    Attempt uuid store d .checkpoint k c r (run_checkpoint uuid store k) w := by
  unfold Attempt run_checkpoint
  refine Prog.Ends.bind (Q := fun done w₁ => done = doneSet c.recorded r.recorded ∧ w₁ = w)
    (loadCkpt_ends h ⟨rfl, rfl⟩) ?_
  rintro _ w₁ ⟨rfl, hw⟩
  subst hw
  -- the charge, unless the checkpoint has it
  refine Prog.Ends.bind (Q := fun _ w₂ => At uuid store d .checkpoint (c.stop .after .past) r w₂ ∧
    (c.recorded = false → k.receipt ≠ .before)) (.onlyIf ?_ ?_) ?_
  · intro hnot
    have hc : c.recorded = false := Bool.eq_false_iff.mpr fun hc => hnot (mem_doneSet_charge.mpr hc)
    rw [insert_charge]
    exact (checkpoint_charge hc h).mono (fun _ _ hpart => ⟨hpart.1, fun _ => hpart.2⟩) fun _ _ he => he
  · intro hdone
    have hc : c.recorded = true := mem_doneSet_charge.mp (not_not.mp hdone)
    rw [Cell.stop_of_recorded hc]
    exact ⟨h, fun hnot => absurd hc (by simp [hnot])⟩
  rintro _ w₂ ⟨h₂, hpassed⟩
  have hcharged : (c.stop .after .past).recorded = true := by
    cases hc : c.recorded with
    | true => rw [Cell.stop_of_recorded hc, hc]
    | false => rw [stop_after_past hc]
  -- the receipt, likewise
  refine .onlyIf ?_ ?_
  · intro hnot
    have hr : r.recorded = false := Bool.eq_false_iff.mpr fun hr => hnot (mem_doneSet_receipt.mpr hr)
    rw [insert_receipt]
    exact (checkpoint_receipt huuid hr hcharged h₂).mono (fun _ _ hpart => ⟨hpart.1, fun hc _ => hpart.2 (hpassed hc)⟩)
      fun _ _ he => he
  · intro hdone
    have hr : r.recorded = true := mem_doneSet_receipt.mp (not_not.mp hdone)
    rw [Cell.stop_of_recorded hr]
    exact ⟨h₂.mono (Nat.le_succ d), fun _ hnot => absurd hr (by simp [hnot])⟩

/-- **One worker.** -/
theorem attempt_ends (huuid : Set.InjOn uuid (Set.Iic d)) (h : At uuid store d o c r w) :
    Attempt uuid store d o k c r (RUNNERS uuid store k o) w := by
  cases o with
  | none => exact run_none_ends huuid h
  | checkpoint => exact run_checkpoint_ends huuid h
  | dbos => exact run_dbos_ends huuid h
  | agenttx => exact run_agenttx_ends h

/-! ## Histories

One exit after the other, by induction on the history. -/

/-- A store that no worker has touched. -/
structure Fresh (store : String) (w : World) : Prop where
  idle : w.tx = Option.none
  charges : w.app.charges = []
  steps : w.app.steps.rows = []
  wal : w.app.wal.rows = []
  receipts : glob store w.files = ∅
  checkpoint : w.files.read (ckptPath store) = Option.none
  no_links : w.files.NoLinks
  draws : w.draws = 0

/-- Workers ran one after the other on a fresh store, and each exited at its kill point. -/
inductive Killed (uuid : Nat → String) (store : String) (o : Orch) : List Point → World → Prop where
  | fresh {w : World} : Fresh store w → Killed uuid store o [] w
  | exit {ks : List Point} {w w' : World} {e : Exn} (k : Point) : Killed uuid store o ks w →
      (RUNNERS uuid store k o).run w = some (.error e, w') → Killed uuid store o (ks ++ [k]) w'.close

theorem Fresh.at (h : Fresh store w) : At uuid store 0 o ⟨0, false⟩ ⟨0, false⟩ w := by
  refine ⟨Nat.le_of_eq h.draws, h.idle, h.charges, ⟨?_, ?_, ?_⟩, ?_, h.no_links⟩
  · rw [h.receipts, Set.ncard_empty]
  · rw [h.receipts]
    exact fun _ hname => hname.elim
  · rw [h.receipts]
    exact fun _ hname => hname.elim
  · cases o with
    | none => exact ⟨rfl, rfl⟩
    | checkpoint => exact Or.inr ⟨h.checkpoint, rfl, rfl⟩
    | dbos =>
      show (_ ↔ _) ∧ (_ ↔ _)
      simp [h.steps]
    | agenttx =>
      show (_ ↔ _) ∧ (_ ↔ _)
      simp [h.wal]

theorem At.close (h : At uuid store d o c r w) : w.close = w := by
  obtain ⟨app, tx, files, draws⟩ := w
  have hidle : tx = Option.none := h.idle
  rw [hidle]
  rfl

/-- **A history of exits** is one of the charge and one of the receipt. -/
theorem Killed.at {ks : List Point} (huuid : Set.InjOn uuid (Set.Iic ks.length)) (h : Killed uuid store o ks w) :
    ∃ c r, At uuid store ks.length o c r w ∧ History o.charge (ks.map Point.charge) c ∧
      History o.receipt (ks.map Point.receipt) r := by
  induction h with
  | fresh h₀ => exact ⟨_, _, h₀.at, .fresh, .fresh⟩
  | @exit ks w w' e k _ hrun ih =>
    rw [List.length_append, List.length_singleton] at huuid ⊢
    have hless : Set.InjOn uuid (Set.Iic ks.length) := huuid.mono (Set.Iic_subset_Iic.mpr (Nat.le_succ _))
    obtain ⟨c, r, hat, hc, hr⟩ := ih hless
    obtain ⟨res, w₁, hrun', -, hexit⟩ := (attempt_ends (k := k) hless hat).run
    rw [hrun] at hrun'
    cases hrun'
    have hexited := hexit e rfl
    rw [hexited.left.close, List.map_append, List.map_append]
    exact ⟨_, _, hexited.left, hc.stop _ hexited.charge, hr.stop _ hexited.receipt⟩

/-! ## The damage

The totals of `Lib.Redo` are of stages; the gate counts exits at named points. -/

/-- How often the order is charged after workers that exited at `ks` and one that did not. -/
def Orch.charges (o : Orch) (ks : List Point) : Nat :=
  match o with
  | .none => ks.countP (· ≠ .pre_charge) + 1
  | .checkpoint => ks.count .post_charge_pre_record + 1
  | .dbos => 1
  | .agenttx => 1

/-- And how many receipts it has. -/
def Orch.receipts (o : Orch) (ks : List Point) : Nat :=
  match o with
  | .none => ks.countP (· ∉ [.pre_charge, .post_charge_pre_record, .post_charge_record]) + 1
  | .checkpoint => ks.count .post_receipt_pre_record + 1
  | .dbos => ks.count .post_receipt_pre_record + 1
  | .agenttx => 1

theorem count_map (f : Point → Stage) {p : Point} (hf : ∀ k, f k = .between ↔ k = p) (ks : List Point) :
    (ks.map f).count .between = ks.count p := by
  rw [List.count, List.count, List.countP_map]
  refine List.countP_congr fun k _ => ?_
  simp [hf]

theorem total_charges (o : Orch) (ks : List Point) : o.charge.total (ks.map Point.charge) = o.charges ks := by
  cases o with
  | none =>
    show (ks.map Point.charge).countP _ + 1 = ks.countP _ + 1
    rw [List.countP_map]
    congr 1
    refine List.countP_congr fun k _ => ?_
    cases k <;> decide
  | checkpoint =>
    show (ks.map Point.charge).count .between + 1 = ks.count .post_charge_pre_record + 1
    rw [count_map]
    intro k
    cases k <;> decide
  | dbos => rfl
  | agenttx => rfl

theorem total_receipts (o : Orch) (ks : List Point) :
    o.receipt.total (ks.map Point.receipt) = o.receipts ks := by
  have hafter : (ks.map Point.receipt).count .between = ks.count .post_receipt_pre_record := by
    apply count_map
    intro k
    cases k <;> decide
  cases o with
  | none =>
    show (ks.map Point.receipt).countP _ + 1 = ks.countP _ + 1
    rw [List.countP_map]
    congr 1
    refine List.countP_congr fun k _ => ?_
    cases k <;> decide
  | checkpoint => exact congrArg (· + 1) hafter
  | dbos => exact congrArg (· + 1) hafter
  | agenttx => rfl

theorem At.oracle (h : At uuid store d o c r w) : oracle store w = (c.count, r.count) := by
  rw [AgentTx.Gate1.oracle, h.charges, h.receipts.count]
  congr 1
  rw [List.countP_eq_length.mpr, List.length_replicate]
  intro row hrow
  rw [List.eq_of_mem_replicate hrow]
  rfl

/-- **The next worker that is not killed** comes to its end. -/
theorem Killed.finishes {ks : List Point} (huuid : Set.InjOn uuid (Set.Iic ks.length)) (h : Killed uuid store o ks w) :
    ∃ w', (RUNNERS uuid store .none o).run w = some (.ok (), w') ∧ w'.close = w' ∧
      oracle store w' = (o.charges ks, o.receipts ks) ∧
      ∀ name ∈ glob store w'.files, w'.files.read (receiptPath store name) = some content := by
  obtain ⟨c, r, hat, hc, hr⟩ := h.at huuid
  obtain ⟨res, w', hrun, hdone, hexit⟩ := (attempt_ends (k := .none) huuid hat).run
  cases res with
  | error e => exact absurd rfl (hexit e rfl).point
  | ok a =>
    obtain ⟨hat', -⟩ := hdone a rfl
    refine ⟨w', hrun, hat'.close, ?_, hat'.receipts.whole⟩
    rw [hat'.oracle, hc.total, hr.total, total_charges, total_receipts]

theorem one_le_charges (o : Orch) (ks : List Point) : 1 ≤ o.charges ks := by
  cases o <;> simp [Orch.charges]

theorem one_le_receipts (o : Orch) (ks : List Point) : 1 ≤ o.receipts ks := by
  cases o <;> simp [Orch.receipts]

/-- **Headline.** However often workers exited, and at whatever points, the next one that is not killed comes to its
    end, with as many charges and receipts as the exits between effect and record make them, and no receipt that is
    not whole; nothing is ever lost. -/
theorem damage_is_counted {ks : List Point} (huuid : Set.InjOn uuid (Set.Iic ks.length))
    (h : Killed uuid store o ks w) :
    ∃ w', (RUNNERS uuid store .none o).run w = some (.ok (), w') ∧
      oracle store w' = (o.charges ks, o.receipts ks) ∧
      (∀ name ∈ glob store w'.files, w'.files.read (receiptPath store name) = some content) ∧
      classify store w' = if o.charges ks = 1 ∧ o.receipts ks = 1 then .CORRECT else .DUPLICATE := by
  obtain ⟨w', hrun, -, horacle, hwhole⟩ := h.finishes huuid
  have hcharged := one_le_charges o ks
  have hreceipt := one_le_receipts o ks
  refine ⟨w', hrun, horacle, hwhole, ?_⟩
  rw [classify, horacle, outcome]
  split_ifs <;> first | rfl | omega

/-- Two workers draw two names. -/
theorem injOn_of_ne (h : uuid 0 ≠ uuid 1) : Set.InjOn uuid (Set.Iic 1) := by
  intro i hi j hj hij
  have hi' : i ≤ 1 := hi
  have hj' : j ≤ 1 := hj
  interval_cases i <;> interval_cases j
  · rfl
  · exact absurd hij h
  · exact absurd hij.symm h
  · rfl

/-! ### A worker that exits between the receipt and its record -/

/-- Two names that were drawn. -/
def drawn (i : Nat) : String :=
  if i = 0 then "0f8fad5bd9cb469fa16570867728950e" else "7c9e6679742540de944be07fc1f90ae7"

/-- A store after `rm -rf` and `os.makedirs`. -/
def start : World := ⟨⟨[], .empty, .empty⟩, Option.none, .empty, 0⟩

theorem start_fresh (store : String) : Fresh store start := by
  refine ⟨rfl, rfl, rfl, rfl, ?_, rfl, ?_, rfl⟩
  · refine Set.eq_empty_of_forall_notMem fun name hname => ?_
    cases hname.1
  · intro p q n hp
    cases hp

theorem damage_is_counted_dbos : ∃ w w', Killed drawn "/tmp/g1" .dbos [.post_receipt_pre_record] w ∧
    (RUNNERS drawn "/tmp/g1" .none .dbos).run w = some (.ok (), w') ∧ oracle "/tmp/g1" w' = (1, 2) ∧
      classify "/tmp/g1" w' = .DUPLICATE := by
  have hrun : ∃ w, (RUNNERS drawn "/tmp/g1" .post_receipt_pre_record .dbos).run start =
      some (.error .Crash, w) := ⟨_, rfl⟩
  obtain ⟨w, hrun⟩ := hrun
  have hkilled : Killed drawn "/tmp/g1" .dbos [.post_receipt_pre_record] w.close :=
    Killed.exit .post_receipt_pre_record (.fresh (start_fresh _)) hrun
  obtain ⟨w', hfinal, horacle, -, hclass⟩ := damage_is_counted (injOn_of_ne (by decide)) hkilled
  exact ⟨w.close, w', hkilled, hfinal, horacle, hclass⟩

end AgentTx.Gate1
