import AgentTx.Gate1.Sound

/-!
# `Gate1.Anywhere` — workers that are stopped anywhere

Workers of one store run one after the other, and each may be stopped between any two of its statements. What the
transaction of `dbos` and the receipt of `agenttx` promise still holds in every state, and the next worker that is not
stopped finishes the turn (`stopped_anywhere`).

The triples of this module have the invariant `Sound` at every statement; what an exit leaves is any state with it, so
that nothing has to be known about where the worker was. That the next worker finishes is shown apart from them: a
runner comes to its end on any store (`runs_runner`), and then its triple says in which state.

Main result: `stopped_anywhere` (`Intact` all along, `Made` when a worker is not stopped).
-/

namespace AgentTx.Gate1

variable {uuid : Nat → String} {store : String} {o : Orch} {k : Point} {charged receipted : Bool} {w : World}

/-! ## The runners

One triple each, with `Sound` as the invariant of every statement. -/

/-- **Nothing is recorded.** -/
theorem run_none_spec : (rules uuid store .none).Triple () (Idle uuid store .none charged receipted)
    (run_none uuid store k) (fun _ => Complete uuid store .none charged receipted) (Exits k) := by
  intro w hw h
  obtain ⟨rfl, rfl⟩ : charged = false ∧ receipted = false := h.sound.records
  rw [run_none_eq]
  revert w
  refine RelyGuarantee.Triple.bind (Q := fun _ => Charged uuid store .none false false)
    (charge_part_spec nofun fun _ h => h.records) fun _ => ?_
  refine RelyGuarantee.Triple.bind (unique_spec (by decide)) fun _ => ?_
  exact (crash_spec .post_receipt_pre_record nofun).bind fun _ => crash_spec .post_receipt_record nofun

/-- A worker that reads what is recorded, and records the charge in its transaction. -/
theorem recorded_spec {done : List String} {receipt : GateProg Unit} {rec rec' : Record}
    (hcharge : "charge" ∈ done ↔ charged = true) (hreceipt : "receipt" ∈ done ↔ receipted = true)
    (hrec : ∀ r w, Sound uuid store o false r w →
      Records store o true r { w with app := w.app.charged (some rec) })
    (hwrite : (rules uuid store o).Triple () (Charged uuid store o true false) receipt
      (fun _ => Complete uuid store o true false) (Exits k))
    (hrec' : ∀ w, Sound uuid store o true false w → Records store o true true { w with app := w.app.record rec' }) :
    (rules uuid store o).Triple () (Idle uuid store o charged receipted)
      (do Prog.onlyIf ("charge" ∉ done) do
            crash .pre_charge k
            charge ORDER_ID AMOUNT (some rec)
            crash .post_charge_pre_record k
            crash .post_charge_record k
          Prog.onlyIf ("receipt" ∉ done) do
            receipt
            crash .post_receipt_pre_record k
            insertRow (·.record rec')
            crash .post_receipt_record k : GateProg Unit)
      (fun _ => Complete uuid store o true true) (Exits k) := by
  -- the charge, then the receipt, each unless it is recorded as done
  refine RelyGuarantee.Triple.bind (Q := fun _ => Charged uuid store o true receipted) (.onlyIf ?_ ?_) fun _ =>
    .onlyIf ?_ ?_
  · intro hnot
    have hc : charged = false := Bool.eq_false_iff.mpr fun hc => hnot (hcharge.mpr hc)
    subst hc
    exact charge_part_spec (fun _ => ⟨rfl, rfl⟩) (hrec receipted)
  · intro hdone w _ h
    have hc : charged = true := hcharge.mp (not_not.mp hdone)
    subst hc
    exact ⟨h, h.sound.charge rfl⟩
  · intro hnot
    have hr : receipted = false := Bool.eq_false_iff.mpr fun hr => hnot (hreceipt.mpr hr)
    subst hr
    refine RelyGuarantee.Triple.bind hwrite fun _ => ?_
    refine (crash_spec .post_receipt_pre_record nofun).bind fun _ => ?_
    exact (record_spec hrec').bind fun _ => crash_spec .post_receipt_record nofun
  · intro hdone w _ h
    have hr : receipted = true := hreceipt.mp (not_not.mp hdone)
    subst hr
    exact ⟨h, h.idle.sound.receipt rfl⟩

/-- **A step is recorded in the transaction of the charge**, and after the receipt. -/
theorem run_dbos_spec : (rules uuid store .dbos).Triple () (Idle uuid store .dbos charged receipted)
    (run_dbos uuid store k) (fun _ => Complete uuid store .dbos true true) (Exits k) := by
  refine RelyGuarantee.Triple.bind (Q := fun done w => Idle uuid store .dbos charged receipted w ∧
    ("charge" ∈ done ↔ charged = true) ∧ ("receipt" ∈ done ↔ receipted = true)) ?_ fun done => ?_
  · refine RelyGuarantee.Triple.read (stable _) (fun _ => trivial) ?_
    intro w _ h _
    refine ⟨h, ?_⟩
    rw [World.tables, h.tx]
    exact h.sound.records
  · rintro w hw ⟨h, hcharge, hreceipt⟩
    revert w
    exact recorded_spec hcharge hreceipt (fun _ _ h => h.records.dbos_charge rfl) (unique_spec (by decide))
      fun _ h => h.records.dbos_receipt rfl

/-- **The receipt has the name of the turn.** -/
theorem run_agenttx_spec : (rules uuid store .agenttx).Triple () (Idle uuid store .agenttx charged receipted)
    (run_agenttx store k) (fun _ => Complete uuid store .agenttx true true) (Exits k) := by
  refine RelyGuarantee.Triple.bind (Q := fun done w => Idle uuid store .agenttx charged receipted w ∧
    ("charge" ∈ done ↔ charged = true) ∧ ("receipt" ∈ done ↔ receipted = true)) ?_ fun done => ?_
  · refine RelyGuarantee.Triple.read (stable _) (fun _ => trivial) ?_
    intro w _ h _
    refine ⟨h, ?_⟩
    rw [World.tables, h.tx, mem_done, mem_done]
    exact h.sound.records
  · rintro w hw ⟨h, hcharge, hreceipt⟩
    revert w
    exact recorded_spec hcharge hreceipt (fun _ _ h => h.records.agenttx_charge rfl) keyed_spec
      fun _ h => h.records.agenttx_receipt rfl

/-- **Both steps are recorded after their effects.** -/
theorem run_checkpoint_spec : (rules uuid store .checkpoint).Triple () (Idle uuid store .checkpoint charged receipted)
    (run_checkpoint uuid store k) (fun _ => Complete uuid store .checkpoint true true) (Exits k) := by
  refine RelyGuarantee.Triple.bind loadCkpt_spec fun done => ?_
  rintro w hw ⟨rfl, h⟩
  revert w
  -- the charge, then the receipt, each unless the checkpoint has it
  refine RelyGuarantee.Triple.bind (Q := fun _ => Charged uuid store .checkpoint true receipted) (.onlyIf ?_ ?_)
    fun _ => .onlyIf ?_ ?_
  · intro hnot
    have hc : charged = false := Bool.eq_false_iff.mpr fun hc => hnot (mem_doneSet_charge.mpr hc)
    subst hc
    refine (crash_spec .pre_charge nofun).bind fun _ => ?_
    refine RelyGuarantee.Triple.bind (Q := fun _ w => Idle uuid store .checkpoint false receipted w ∧
      w.app.charges ≠ []) (charge_spec nofun fun _ h => h.records) fun _ => ?_
    refine (crash_spec .post_charge_pre_record nofun).bind fun _ => ?_
    rw [insert_charge]
    refine RelyGuarantee.Triple.bind (Q := fun _ => Charged uuid store .checkpoint true receipted) ?_
      fun _ => crash_spec .post_charge_record nofun
    -- a receipt that is recorded was written, so the checkpoint may say so again
    refine (save_spec false receipted).conseq ?_ (fun _ _ _ h => h.1) fun _ _ _ he => he
    rintro w - ⟨hidle, hcharges⟩
    exact ⟨⟨hidle, hcharges⟩, hidle.sound.receipt⟩
  · intro hdone w _ h
    have hc : charged = true := mem_doneSet_charge.mp (not_not.mp hdone)
    subst hc
    exact ⟨h, h.sound.charge rfl⟩
  · intro hnot
    have hr : receipted = false := Bool.eq_false_iff.mpr fun hr => hnot (mem_doneSet_receipt.mpr hr)
    subst hr
    refine RelyGuarantee.Triple.bind (unique_spec (by decide)) fun _ => ?_
    refine (crash_spec .post_receipt_pre_record nofun).bind fun _ => ?_
    rw [insert_receipt]
    refine RelyGuarantee.Triple.bind (Q := fun _ => Complete uuid store .checkpoint true true) ?_
      fun _ => crash_spec .post_receipt_record nofun
    exact (save_spec true false).conseq (fun _ _ h => ⟨h.charged, fun _ => h.receipt⟩) (fun _ _ _ h => ⟨h.1, h.2 rfl⟩)
      fun _ _ _ he => he
  · intro hdone w _ h
    have hr : receipted = true := mem_doneSet_receipt.mp (not_not.mp hdone)
    subst hr
    exact ⟨h, h.idle.sound.receipt rfl⟩

/-- **One worker.** -/
theorem runner_spec : (rules uuid store o).Triple () (Idle uuid store o charged receipted) (RUNNERS uuid store k o)
    (fun _ w => ∃ c r, Complete uuid store o c r w) (Exits k) := by
  cases o with
  | none => exact run_none_spec.post fun _ _ _ h => ⟨_, _, h⟩
  | checkpoint => exact run_checkpoint_spec.post fun _ _ _ h => ⟨_, _, h⟩
  | dbos => exact run_dbos_spec.post fun _ _ _ h => ⟨_, _, h⟩
  | agenttx => exact run_agenttx_spec.post fun _ _ _ h => ⟨_, _, h⟩

/-! ## Workers come to their end

No statement of a runner blocks, on whatever store. -/

theorem runs_crash (p : Point) : (crash p k).Runs := fun _ => crash_ends (fun _ => trivial) fun _ => trivial

theorem runs_charge (also_record : Option Record) : (charge ORDER_ID AMOUNT also_record).Runs := by
  refine (Prog.runs_modify _ _).bind fun _ => (Prog.runs_modify _ _).bind fun _ => Prog.Runs.bind ?_ fun _ =>
    Prog.runs_modify _ _
  cases also_record with
  | none => exact fun _ => trivial
  | some r => exact Prog.runs_modify _ _

theorem runs_unique : (write_receipt_unique store uuid).Runs :=
  Prog.Runs.bind (.of_run fun _ => ⟨_, _, rfl⟩) fun _ => Prog.runs_writeFile _ _

theorem runs_charge_part (also_record : Option Record) :
    (do crash .pre_charge k
        charge ORDER_ID AMOUNT also_record
        crash .post_charge_pre_record k
        crash .post_charge_record k : GateProg Unit).Runs :=
  (runs_crash _).bind fun _ => (runs_charge _).bind fun _ => (runs_crash _).bind fun _ => runs_crash _

theorem runs_receipt_part {receipt : GateProg Unit} {rec : Record} (h : receipt.Runs) :
    (do receipt
        crash .post_receipt_pre_record k
        insertRow (·.record rec)
        crash .post_receipt_record k : GateProg Unit).Runs :=
  h.bind fun _ => (runs_crash _).bind fun _ => (Prog.runs_modify _ _).bind fun _ => runs_crash _

theorem runs_loadCkpt : (loadCkpt store).Runs := by
  refine Prog.Runs.bind (.of_run fun w => ⟨_, _, Prog.run_pathExists _ _⟩) fun found => ?_
  cases found with
  | false => exact fun _ => trivial
  | true => exact (Prog.runs_read _ _).bind fun _ => (Prog.runs_ofExcept _).bind fun _ => Prog.runs_ofExcept _

/-- **A worker comes to its end**, whatever is in the store. -/
theorem runs_runner : (RUNNERS uuid store k o).Runs := by
  cases o with
  | none =>
    exact (runs_crash _).bind fun _ => (runs_charge _).bind fun _ => (runs_crash _).bind fun _ =>
      (runs_crash _).bind fun _ => runs_unique.bind fun _ => (runs_crash _).bind fun _ => runs_crash _
  | checkpoint =>
    refine runs_loadCkpt.bind fun done => Prog.Runs.bind (.onlyIf ?_) fun _ => .onlyIf ?_
    · exact (runs_crash _).bind fun _ => (runs_charge _).bind fun _ => (runs_crash _).bind fun _ =>
        (Prog.runs_publish _ _ _ _).bind fun _ => runs_crash _
    · exact runs_unique.bind fun _ => (runs_crash _).bind fun _ => (Prog.runs_publish _ _ _ _).bind fun _ =>
        runs_crash _
  | dbos =>
    exact (Prog.runs_read _ _).bind fun done => Prog.Runs.bind (.onlyIf (runs_charge_part _)) fun _ =>
      .onlyIf (runs_receipt_part runs_unique)
  | agenttx =>
    exact (Prog.runs_read _ _).bind fun done => Prog.Runs.bind (.onlyIf (runs_charge_part _)) fun _ =>
      .onlyIf (runs_receipt_part (Prog.runs_publish _ _ _ _))

/-! ## Any worker, stopped anywhere

One worker at a time; what one leaves is what the next one finds. -/

theorem Fresh.idle_store (h : Fresh store w) : Idle uuid store o false false w := by
  have hat : At uuid store 0 o ⟨0, false⟩ ⟨0, false⟩ w := h.at
  refine ⟨h.idle, ?_, nofun, fun _ => h.charges, hat.receipts.names, nofun, fun _ => hat.receipts.whole, hat.records,
    h.no_links⟩
  rw [h.charges]
  exact fun row hrow => absurd hrow (List.not_mem_nil)

/-- **One worker after the other.** -/
theorem verified : Serial.Verified (workers uuid store o) (rules uuid store o) (fun w => w.tx = Option.none)
    (fun _ w => ∃ c r, Idle uuid store o c r w) (fun _ w => ∃ c r, Complete uuid store o c r w)
    fun e _ => e = .Crash := by
  refine ⟨?_, ?_, ?_⟩
  · rintro k w hw ⟨c, r, h⟩
    exact RelyGuarantee.Safe.mono (fun _ _ _ hQ => hQ) (fun _ _ _ he => he.1) hw (runner_spec w hw h)
  · rintro k w ⟨c, r, h⟩ htx
    exact ⟨⟨c, r, h⟩, c, r, htx, h⟩
  · rintro w ⟨c, r, h⟩
    exact ⟨⟨c, r, h.setTx Option.none⟩, rfl⟩

/-- What is promised of the effects that are there. -/
structure Intact (store : String) (o : Orch) (w : World) : Prop where
  charge : o.charge = .together → (oracle store w).1 ≤ 1
  receipt : o = .agenttx → (oracle store w).2 ≤ 1
  whole : o = .agenttx → ∀ name ∈ glob store w.files, w.files.read (receiptPath store name) = some content

/-- Both effects are there. -/
structure Made (store : String) (w : World) : Prop where
  charge : 1 ≤ (oracle store w).1
  receipt : 1 ≤ (oracle store w).2

theorem Sound.intact (h : Sound uuid store o charged receipted w) : Intact store o w := by
  refine ⟨?_, ?_, h.whole⟩
  · intro ho
    have hlen : w.app.charges.length ≤ 1 := by
      rw [h.once ho]
      split_ifs <;> simp
    exact List.countP_le_length.trans hlen
  · rintro rfl
    have hsub : glob store w.files ⊆ {receiptName "T1"} := h.names
    have hle := Set.ncard_le_ncard hsub (Set.finite_singleton _)
    rw [Set.ncard_singleton] at hle
    exact hle

theorem Complete.made (h : Complete uuid store o charged receipted w) : Made store w := by
  refine ⟨?_, ?_⟩
  · obtain ⟨row, hrow⟩ := List.exists_mem_of_ne_nil _ h.charged.charges
    refine List.countP_pos_iff.mpr ⟨row, hrow, ?_⟩
    rw [h.charged.idle.sound.rows row hrow]
    rfl
  · exact (Set.ncard_pos (finite_glob h.charged.idle.sound.names)).mpr h.receipt

/-- **Headline.** Workers are stopped anywhere, one after the other. An order that is charged along with its record is
    never charged twice, a receipt with the name of the turn is never there twice nor in part, and a worker raises
    nothing but its own exit. What a worker that returns was to do is there, and whenever no worker is under way the
    next one that is not stopped returns. -/
theorem stopped_anywhere {s : Serial.State Stmt World Exn Unit}
    (hs : (workers uuid store o).Reachable (fun _ _ => True) (Fresh store) s) :
    Intact store o s.shared ∧ (∀ e, s.proc = some (.raise e) → e = .Crash) ∧
      (s.proc = some (.ret ()) → Made store s.shared) ∧
      (s.proc = Option.none → ∃ w', (RUNNERS uuid store .none o).run s.shared = some (.ok (), w') ∧
        Intact store o w' ∧ Made store w' ∧ (o = .agenttx → classify store w' = .CORRECT)) := by
  have h₀ : ∀ w, Fresh store w → (rules uuid store o).Inv w ∧ w.tx = Option.none := by
    intro w hw
    exact ⟨⟨_, _, hw.idle_store.sound⟩, hw.idle⟩
  obtain ⟨hinv, hproc⟩ := verified.stateOk h₀ hs
  obtain ⟨c, r, hsound⟩ := hinv
  refine ⟨hsound.intact, fun e he => verified.err h₀ hs he, ?_, ?_⟩
  · intro hret
    obtain ⟨c', r', hcomplete⟩ := verified.post h₀ hs hret
    exact hcomplete.made
  · intro hnone
    rw [hnone] at hproc
    -- the next worker ends, since its program does and nothing it does can block
    obtain ⟨res, w', hrun, hok, hraise⟩ :=
      (runner_spec.ends (fun _ _ => trivial) ⟨c, r, hsound⟩ ⟨hproc, hsound⟩ (runs_runner (k := .none) s.shared)).run
    cases res with
    | error e => exact absurd rfl (hraise e rfl).2.1.2
    | ok a =>
      obtain ⟨-, ⟨c', r', hcomplete⟩, -⟩ := hok a rfl
      have hintact := hcomplete.charged.idle.sound.intact
      have hmade := hcomplete.made
      refine ⟨w', hrun, hintact, hmade, ?_⟩
      -- at most one of each, and at least one
      rintro rfl
      have hcharge := hintact.charge rfl
      have hreceipt := hintact.receipt rfl
      have hcharge' := hmade.charge
      have hreceipt' := hmade.receipt
      rw [classify, outcome]
      split_ifs <;> first | rfl | omega

/-! ### A worker that is stopped while it writes the receipt -/

theorem stopped_anywhere_torn : ∃ w w', (workers drawn "/tmp/g1" .dbos).Reachable (fun _ _ => True) (Fresh "/tmp/g1")
      ⟨w, Option.none⟩ ∧
    w.files.read (receiptPath "/tmp/g1" (receiptName (drawn 0))) = some [] ∧
    (RUNNERS drawn "/tmp/g1" .none .dbos).run w = some (.ok (), w') ∧ Made "/tmp/g1" w' := by
  have hsteps : Prog.Steps (fun _ _ => True) (run_dbos drawn "/tmp/g1" .none) start _ _ :=
    .head trivial rfl (.head trivial rfl (.head trivial rfl (.head trivial rfl (.head trivial rfl
      (.head trivial rfl (.head trivial rfl .refl))))))
  have hinit : (workers drawn "/tmp/g1" .dbos).Reachable (fun _ _ => True) (Fresh "/tmp/g1") ⟨start, Option.none⟩ :=
    .start ⟨start_fresh _, rfl⟩
  have hreach := ((hinit.begin rfl .none).steps rfl hsteps).halt rfl
  obtain ⟨-, -, -, hnext⟩ := stopped_anywhere hreach
  obtain ⟨w', hrun, -, hmade, -⟩ := hnext rfl
  exact ⟨_, w', hreach, rfl, hrun, hmade⟩

end AgentTx.Gate1
