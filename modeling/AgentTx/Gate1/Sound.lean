import AgentTx.Gate1.Damage

/-!
# `Gate1.Sound` — what holds of a store after every single statement

`Gate1.Damage` has workers that exit at named points. Here a worker may be stopped between any two statements, within a
transaction or in the middle of a file. `Sound` is what the tables and files have to do with the records then: less
than `At`, since an effect may be there that no record tells of, or a receipt in part. Each tool keeps it (`…_spec`).

Layout of the proof:
* **What is sound** — how `Sound` goes on when a transaction is committed (`Sound.charge_committed`), when a record is
  inserted (`Sound.recorded`) and when files change under names that are no receipts (`Sound.files`).
* **The statements** — inside a transaction the tables that are open are a function of those committed (`Pending`),
  and a worker that is stopped there loses them. A receipt under the name of the turn is renamed into place whole
  (`keyed_spec`); one under a new name is written in place, and may be there in part (`unique_spec`).
-/

namespace AgentTx.Gate1

section Sound

variable (uuid : Nat → String) (store : String)

/-- What the tables and files have to do with the records, which say that the charge and the receipt are done or
    not. -/
structure Sound (o : Orch) (charged receipted : Bool) (w : World) : Prop where
  rows : ∀ row ∈ w.app.charges, row = ⟨ORDER_ID, AMOUNT⟩
  charge : charged = true → w.app.charges ≠ []
  once : o.charge = .together → w.app.charges = if charged then [⟨ORDER_ID, AMOUNT⟩] else []
  names : ∀ name ∈ glob store w.files, Named uuid o w.draws name
  receipt : receipted = true → (glob store w.files).Nonempty
  whole : o = .agenttx → ∀ name ∈ glob store w.files, w.files.read (receiptPath store name) = some content
  records : Records store o charged receipted w
  no_links : w.files.NoLinks

/-- The rules for a worker. -/
def rules (o : Orch) : RelyGuarantee Unit Stmt World :=
  Serial.alone (fun w => ∃ charged receipted, Sound uuid store o charged receipted w) (fun _ _ _ => True)
    fun _ _ => True

/-- No transaction is open. -/
structure Idle (o : Orch) (charged receipted : Bool) (w : World) : Prop where
  tx : w.tx = Option.none
  sound : Sound uuid store o charged receipted w

/-- The open transaction has made `u` of the tables. -/
structure Pending (u : App → App) (o : Orch) (charged receipted : Bool) (w : World) : Prop where
  tx : w.tx = some (u w.app)
  sound : Sound uuid store o charged receipted w

/-- A worker raises nothing but its own exit. -/
def Exits (k : Point) (e : Exn) (_ : World) : Prop := e = .Crash ∧ k ≠ .none

end Sound

variable {uuid : Nat → String} {store : String} {o : Orch} {k : Point} {charged receipted : Bool} {w w' : World}
  {fs fs' : FileSys} {P : World → Prop}

theorem stable (P : World → Prop) : (rules uuid store o).Stable () P := Serial.stable_alone P

/-! ## What is sound -/

/-- A transaction that is open or lost. -/
theorem Sound.setTx (h : Sound uuid store o charged receipted w) (tx : Option App) :
    Sound uuid store o charged receipted { w with tx := tx } :=
  ⟨h.rows, h.charge, h.once, h.names, h.receipt, h.whole, h.records, h.no_links⟩

theorem Named.mono {draws draws' : Nat} {name : String} (h : Named uuid o draws name) (hd : draws ≤ draws') :
    Named uuid o draws' name := by
  cases o with
  | agenttx => exact h
  | _ =>
    obtain ⟨i, hi, hname⟩ := h
    exact ⟨i, Nat.lt_of_lt_of_le hi hd, hname⟩

/-- The receipts stay as they are. -/
theorem Sound.files (h : Sound uuid store o charged receipted w) (hlinks : fs.NoLinks)
    (hreceipts : ∀ name, IsReceipt name → fs.read (receiptPath store name) = w.files.read (receiptPath store name))
    (hrec : Records store o charged receipted { w with files := fs }) :
    Sound uuid store o charged receipted { w with files := fs } := by
  have hglob := glob_congr hreceipts
  refine ⟨h.rows, h.charge, h.once, ?_, ?_, ?_, hrec, hlinks⟩
  · intro name hname
    have hold : name ∈ glob store w.files := hglob ▸ hname
    exact h.names name hold
  · intro hr
    show (glob store fs).Nonempty
    rw [hglob]
    exact h.receipt hr
  · intro ho name hname
    have hold : name ∈ glob store w.files := hglob ▸ hname
    exact (hreceipts name (mem_glob.mp hold).2).trans (h.whole ho name hold)

/-- **The charge is committed**, with what is recorded of it. -/
theorem Sound.charge_committed {also_record : Option Record} {charged' : Bool}
    (h : Sound uuid store o charged receipted w) (ho : o.charge = .together → charged = false ∧ charged' = true)
    (hrec : Records store o charged' receipted { w with app := w.app.charged also_record }) :
    Sound uuid store o charged' receipted { w with app := w.app.charged also_record } := by
  have hrows : (w.app.charged also_record).charges = w.app.charges ++ [⟨ORDER_ID, AMOUNT⟩] := charged_charges _ _
  refine ⟨?_, ?_, ?_, h.names, h.receipt, h.whole, hrec, h.no_links⟩
  · intro row hrow
    have hmem : row ∈ w.app.charges ++ [⟨ORDER_ID, AMOUNT⟩] := hrows ▸ hrow
    rcases List.mem_append.mp hmem with hold | hnew
    · exact h.rows row hold
    · exact List.mem_singleton.mp hnew
  · intro _
    show (w.app.charged also_record).charges ≠ []
    rw [hrows]
    exact List.append_ne_nil_of_right_ne_nil _ (List.cons_ne_nil _ _)
  · intro htogether
    obtain ⟨hc, hc'⟩ := ho htogether
    have hnone := h.once htogether
    show (w.app.charged also_record).charges = _
    rw [hrows, hnone, hc, hc']
    rfl

/-- **The receipt is recorded** in a table. -/
theorem Sound.recorded {rec : Record} (h : Sound uuid store o charged receipted w)
    (hreceipt : (glob store w.files).Nonempty)
    (hrec : Records store o charged true { w with app := w.app.record rec }) :
    Sound uuid store o charged true { w with app := w.app.record rec } := by
  have hcharges : (w.app.record rec).charges = w.app.charges := by
    cases rec <;> rfl
  refine ⟨?_, ?_, ?_, h.names, fun _ => hreceipt, h.whole, hrec, h.no_links⟩
  · show ∀ row ∈ (w.app.record rec).charges, _
    rw [hcharges]
    exact h.rows
  · show _ → (w.app.record rec).charges ≠ []
    rw [hcharges]
    exact h.charge
  · show _ → (w.app.record rec).charges = _
    rw [hcharges]
    exact h.once

/-! ## The statements -/

theorem crash_spec (p : Point) (hp : p ≠ .none) :
    (rules uuid store o).Triple () P (crash p k) (fun _ => P) (Exits k) := by
  unfold crash
  split_ifs with h
  · exact fun _ _ _ => ⟨rfl, h ▸ hp⟩
  · exact fun _ _ hP => hP

theorem beginTx_spec : (rules uuid store o).Triple () (Idle uuid store o charged receipted) beginTx
    (fun _ => Pending uuid store id o charged receipted) (Exits k) := by
  refine RelyGuarantee.Triple.modify (stable _) ?_
  intro w hw h _
  have htables : w.tables = w.app := by
    rw [World.tables, h.tx]
    rfl
  have hsound := h.sound.setTx (some w.tables)
  exact ⟨trivial, ⟨_, _, hsound⟩, congrArg some htables, hsound⟩

/-- An insert into an open transaction. -/
theorem insertRow_spec {u u' f : App → App} (hf : ∀ a, f (u a) = u' a) :
    (rules uuid store o).Triple () (Pending uuid store u o charged receipted) (insertRow f)
      (fun _ => Pending uuid store u' o charged receipted) (Exits k) := by
  refine RelyGuarantee.Triple.modify (stable _) ?_
  intro w hw h _
  have htables : w.tables = u w.app := by
    rw [World.tables, h.tx]
    rfl
  have hset : w.setTables (f w.tables) = { w with tx := some (u' w.app) } := by
    rw [World.setTables, h.tx, htables, hf]
  rw [hset]
  have hsound := h.sound.setTx (some (u' w.app))
  exact ⟨trivial, ⟨_, _, hsound⟩, rfl, hsound⟩

/-- **`charge`.** -/
theorem charge_spec {also_record : Option Record} {charged' : Bool}
    (ho : o.charge = .together → charged = false ∧ charged' = true)
    (hrec : ∀ w, Sound uuid store o charged receipted w →
      Records store o charged' receipted { w with app := w.app.charged also_record }) :
    (rules uuid store o).Triple () (Idle uuid store o charged receipted) (charge ORDER_ID AMOUNT also_record)
      (fun _ w => Idle uuid store o charged' receipted w ∧ w.app.charges ≠ []) (Exits k) := by
  refine beginTx_spec.bind fun _ => ?_
  refine RelyGuarantee.Triple.bind (Q := fun _ =>
    Pending uuid store (App.insertCharge ORDER_ID AMOUNT) o charged receipted) (insertRow_spec fun _ => rfl) fun _ => ?_
  refine RelyGuarantee.Triple.bind (Q := fun _ =>
    Pending uuid store (App.charged also_record) o charged receipted) ?_ fun _ => ?_
  · cases also_record with
    | none => exact fun _ _ h => h
    | some r =>
      have hboth : ∀ a : App, (App.insertCharge ORDER_ID AMOUNT a).record r = a.charged (some r) := fun _ => rfl
      exact insertRow_spec (f := (·.record r)) (u := App.insertCharge ORDER_ID AMOUNT) hboth
  · -- the charge and its record become durable at once
    refine RelyGuarantee.Triple.modify (stable _) ?_
    intro w hw h _
    have htables : w.tables = w.app.charged also_record := by
      rw [World.tables, h.tx]
      rfl
    rw [htables]
    have hsound := (h.sound.charge_committed ho (hrec w h.sound)).setTx Option.none
    refine ⟨trivial, ⟨_, _, hsound⟩, ⟨rfl, hsound⟩, ?_⟩
    show (w.app.charged also_record).charges ≠ []
    rw [charged_charges]
    exact List.append_ne_nil_of_right_ne_nil _ (List.cons_ne_nil _ _)

/-- The order is charged. -/
structure Charged (uuid : Nat → String) (store : String) (o : Orch) (charged receipted : Bool) (w : World) : Prop where
  idle : Idle uuid store o charged receipted w
  charges : w.app.charges ≠ []

/-- And there is a receipt. -/
structure Complete (uuid : Nat → String) (store : String) (o : Orch) (charged receipted : Bool) (w : World) : Prop where
  charged : Charged uuid store o charged receipted w
  receipt : (glob store w.files).Nonempty

/-- The charge of a runner that records it in the transaction, or not at all. -/
theorem charge_part_spec {also_record : Option Record} {charged' : Bool}
    (ho : o.charge = .together → charged = false ∧ charged' = true)
    (hrec : ∀ w, Sound uuid store o charged receipted w →
      Records store o charged' receipted { w with app := w.app.charged also_record }) :
    (rules uuid store o).Triple () (Idle uuid store o charged receipted)
      (do crash .pre_charge k
          charge ORDER_ID AMOUNT also_record
          crash .post_charge_pre_record k
          crash .post_charge_record k : GateProg Unit)
      (fun _ => Charged uuid store o charged' receipted) (Exits k) := by
  refine (crash_spec .pre_charge nofun).bind fun _ => ?_
  refine RelyGuarantee.Triple.bind (Q := fun _ => Charged uuid store o charged' receipted)
    ((charge_spec ho hrec).post fun _ _ _ h => ⟨h.1, h.2⟩) fun _ => ?_
  exact (crash_spec .post_charge_pre_record nofun).bind fun _ => crash_spec .post_charge_record nofun

/-- **`write_receipt_unique`.** -/
theorem unique_spec (ho : o ≠ .agenttx) :
    (rules uuid store o).Triple () (Charged uuid store o charged false) (write_receipt_unique store uuid)
      (fun _ => Complete uuid store o charged false) (Exits k) := by
  refine RelyGuarantee.Triple.bind (Q := fun n w => Charged uuid store o charged false w ∧ n < w.draws) ?_ fun n => ?_
  · -- a name is drawn
    refine RelyGuarantee.Triple.step (stable _) ?_
    intro w n w' _ h _ hact
    cases hact
    obtain ⟨⟨htx, hs⟩, hcharges⟩ := h
    have hsound : Sound uuid store o charged false { w with draws := w.draws + 1 } :=
      ⟨hs.rows, hs.charge, hs.once, fun name hname => (hs.names name hname).mono (Nat.le_succ _), hs.receipt, hs.whole,
        hs.records.keep rfl rfl, hs.no_links⟩
    exact ⟨trivial, ⟨_, _, hsound⟩, ⟨⟨htx, hsound⟩, hcharges⟩, Nat.lt_succ_self _⟩
  · refine (RelyGuarantee.Triple.writeFile (stable _) (fun _ _ => stable _)
      (fun w h => h.1.idle.sound.no_links) ?_).post ?_
    · rintro c w fs _ ⟨⟨⟨htx, hs⟩, hcharges⟩, hn⟩ hfs
      have hsound : Sound uuid store o charged false { w with files := fs } := by
        refine ⟨hs.rows, hs.charge, hs.once, ?_, nofun, fun h => absurd h ho, ?_, hfs.no_links⟩
        · intro name hname
          by_cases heq : name = receiptName (uuid n)
          · -- the file that is being written has a drawn name
            cases o with
            | agenttx => exact absurd rfl ho
            | _ => exact ⟨n, hn, heq⟩
          · have hread : fs.read (receiptPath store name) = w.files.read (receiptPath store name) :=
              hfs.read fun h => heq (receiptPath_injective h)
            have hmem := mem_glob.mp hname
            exact hs.names name (mem_glob.mpr ⟨hread ▸ hmem.1, hmem.2⟩)
        · exact hs.records.keep rfl (hfs.read (ckptPath_ne _))
      exact ⟨trivial, ⟨_, _, hsound⟩, ⟨⟨htx, hsound⟩, hcharges⟩, hn⟩
    · rintro _ w - ⟨⟨hcharged, -⟩, hread⟩
      have hfile : w.files.read (receiptPath store (receiptName (uuid n))) = some content := hread
      refine ⟨hcharged, receiptName (uuid n), mem_glob.mpr ⟨?_, uuid n, rfl⟩⟩
      rw [hfile]
      rfl

/-- **`write_receipt_keyed`.** -/
theorem keyed_spec :
    (rules uuid store .agenttx).Triple () (Charged uuid store .agenttx charged false) (write_receipt_keyed store "T1")
      (fun _ => Complete uuid store .agenttx charged false) (Exits k) := by
  let tmp := receiptPath store (".tmp_" ++ "T1")
  -- the temporary name is not one that `glob` finds
  have htmp : ∀ name, IsReceipt name → receiptPath store name ≠ tmp := by
    intro name hname heq
    exact not_isReceipt_tmp "T1" (receiptPath_injective heq ▸ hname)
  have hwrite : (rules uuid store .agenttx).Triple () (Charged uuid store .agenttx charged false)
      (Prog.writeFile tmp content : GateProg Unit)
      (fun _ w => Charged uuid store .agenttx charged false w ∧ w.files.read tmp = some content) (Exits k) := by
    refine RelyGuarantee.Triple.writeFile (stable _) (fun _ _ => stable _) (fun w h => h.idle.sound.no_links) ?_
    rintro c w fs _ ⟨⟨htx, hs⟩, hcharges⟩ hfs
    have hsound := hs.files hfs.no_links (fun name hname => hfs.read (htmp name hname))
      (hs.records.keep rfl (hfs.read (ckptPath_ne _)))
    exact ⟨trivial, ⟨_, _, hsound⟩, ⟨htx, hsound⟩, hcharges⟩
  refine hwrite.bind fun _ => ?_
  refine RelyGuarantee.Triple.replace (stable _) ?_ ?_
  · rintro w - ⟨-, hread⟩ hmissing
    have hnone := FileSys.replace_eq_none.mp hmissing
    have hfile : (w.files.dir tmp).map w.files.data = some content := hread
    rw [show w.files.dir tmp = Option.none from hnone] at hfile
    cases hfile
  · rintro w fs - ⟨⟨⟨htx, hs⟩, hcharges⟩, hread⟩ - hreplace
    have hreplace' : w.files.replace tmp (receiptPath store (receiptName "T1")) = some fs := hreplace
    have hself : fs.read (receiptPath store (receiptName "T1")) = some content :=
      (FileSys.read_replace_self hreplace').trans hread
    have hothers : ∀ name, IsReceipt name → name ≠ receiptName "T1" →
        fs.read (receiptPath store name) = w.files.read (receiptPath store name) := by
      intro name hname hne
      exact FileSys.read_replace_of_ne hreplace' (htmp name hname) fun heq => hne (receiptPath_injective heq)
    -- the rename publishes one receipt, whole
    have hglob := glob_insert hself hothers
    have hsound : Sound uuid store .agenttx charged false { w with files := fs } := by
      refine ⟨hs.rows, hs.charge, hs.once, ?_, nofun, fun _ => whole_insert (hs.whole rfl) hself hothers, ?_,
        hs.no_links.replace hreplace'⟩
      · intro name hname
        have hmem : name ∈ insert (receiptName "T1") (glob store w.files) := hglob ▸ hname
        rcases Set.mem_insert_iff.mp hmem with heq | hold
        · exact heq
        · exact hs.names name hold
      · exact hs.records.keep rfl (FileSys.read_replace_of_ne hreplace' (ckptPath_ne _) (ckptPath_ne _))
    refine ⟨trivial, ⟨_, _, hsound⟩, ⟨⟨htx, hsound⟩, hcharges⟩, receiptName "T1", ?_⟩
    show receiptName "T1" ∈ glob store fs
    rw [hglob]
    exact Set.mem_insert _ _

/-- The record of the receipt, as a row. -/
theorem record_spec {rec : Record}
    (hrec : ∀ w, Sound uuid store o charged false w →
      Records store o charged true { w with app := w.app.record rec }) :
    (rules uuid store o).Triple () (Complete uuid store o charged false) (insertRow (·.record rec))
      (fun _ => Complete uuid store o charged true) (Exits k) := by
  refine RelyGuarantee.Triple.modify (stable _) ?_
  rintro w - ⟨⟨⟨htx, hs⟩, hcharges⟩, hreceipt⟩ -
  have htables : w.tables = w.app := by
    rw [World.tables, htx]
    rfl
  have hset : w.setTables (w.tables.record rec) = { w with app := w.app.record rec } := by
    rw [World.setTables, htx, htables]
  rw [hset]
  have hsound := hs.recorded hreceipt (hrec w hs)
  refine ⟨trivial, ⟨_, _, hsound⟩, ⟨⟨htx, hsound⟩, ?_⟩, hreceipt⟩
  have hsame : (w.app.record rec).charges = w.app.charges := by
    cases rec <;> rfl
  show (w.app.record rec).charges ≠ []
  rw [hsame]
  exact hcharges

/-- **`save`**, of effects that are there. -/
theorem save_spec (charged receipted : Bool) {charged' receipted' : Bool} :
    (rules uuid store .checkpoint).Triple ()
      (fun w => Charged uuid store .checkpoint charged receipted w ∧
        (receipted' = true → (glob store w.files).Nonempty))
      (save store (doneSet charged' receipted'))
      (fun _ w => Charged uuid store .checkpoint charged' receipted' w ∧
        (receipted' = true → (glob store w.files).Nonempty)) (Exits k) := by
  have hne : ∀ name, receiptPath store name ≠ ckptTmp store ∧ receiptPath store name ≠ ckptPath store :=
    fun name => ⟨(ckptTmp_ne name).symm, (ckptPath_ne name).symm⟩
  have htmp : ckptPath store ≠ ckptTmp store := by
    intro h
    exact absurd (FsPath.mk.inj h).2 (by decide)
  refine RelyGuarantee.Triple.bind (Q := fun _ w => (Charged uuid store .checkpoint charged receipted w ∧
    (receipted' = true → (glob store w.files).Nonempty)) ∧
      w.files.read (ckptTmp store) = some (ckptText (doneSet charged' receipted'))) ?_ fun _ => ?_
  · refine RelyGuarantee.Triple.writeFile (stable _) (fun _ _ => stable _) (fun w h => h.1.idle.sound.no_links) ?_
    rintro c w fs _ ⟨⟨⟨htx, hs⟩, hcharges⟩, hreceipt⟩ hfs
    have hreceipts : ∀ name, IsReceipt name →
        fs.read (receiptPath store name) = w.files.read (receiptPath store name) :=
      fun name _ => hfs.read (hne name).1
    have hsound := hs.files hfs.no_links hreceipts (hs.records.keep rfl (hfs.read htmp))
    refine ⟨trivial, ⟨_, _, hsound⟩, ⟨⟨htx, hsound⟩, hcharges⟩, fun hr => ?_⟩
    show (glob store fs).Nonempty
    rw [glob_congr hreceipts]
    exact hreceipt hr
  refine RelyGuarantee.Triple.replace (stable _) ?_ ?_
  · rintro w - ⟨-, hread⟩ hmissing
    have hnone := FileSys.replace_eq_none.mp hmissing
    have hfile : (w.files.dir (ckptTmp store)).map w.files.data = some _ := hread
    rw [show w.files.dir (ckptTmp store) = Option.none from hnone] at hfile
    cases hfile
  · rintro w fs - ⟨⟨⟨⟨htx, hs⟩, hcharges⟩, hreceipt⟩, hread⟩ - hreplace
    have hreplace' : w.files.replace (ckptTmp store) (ckptPath store) = some fs := hreplace
    have hself : fs.read (ckptPath store) = some (ckptText (doneSet charged' receipted')) :=
      (FileSys.read_replace_self hreplace').trans hread
    -- the checkpoint is no receipt
    have hglob : glob store fs = glob store w.files :=
      glob_congr fun name _ => FileSys.read_replace_of_ne hreplace' (hne name).1 (hne name).2
    have hreceipt' : receipted' = true → (glob store fs).Nonempty := fun hr => hglob ▸ hreceipt hr
    have hsound : Sound uuid store .checkpoint charged' receipted' { w with files := fs } := by
      refine ⟨hs.rows, fun _ => hcharges, nofun, ?_, hreceipt', nofun, Or.inl hself, hs.no_links.replace hreplace'⟩
      intro name hname
      have hold : name ∈ glob store w.files := hglob ▸ hname
      exact hs.names name hold
    exact ⟨trivial, ⟨_, _, hsound⟩, ⟨⟨htx, hsound⟩, hcharges⟩, hreceipt'⟩

/-- **The checkpoint is loaded.** -/
theorem loadCkpt_spec :
    (rules uuid store .checkpoint).Triple () (Idle uuid store .checkpoint charged receipted) (loadCkpt store)
      (fun done w => done = doneSet charged receipted ∧ Idle uuid store .checkpoint charged receipted w) (Exits k) := by
  refine RelyGuarantee.Triple.bind (Q := fun found w => Idle uuid store .checkpoint charged receipted w ∧
    (if found = true then w.files.read (ckptPath store) = some (ckptText (doneSet charged receipted))
      else charged = false ∧ receipted = false)) ?_ fun found => ?_
  · refine RelyGuarantee.Triple.read (stable _) (fun _ => trivial) ?_
    rintro w - h -
    have hexists : w.files.pathExists (ckptPath store) = (w.files.read (ckptPath store)).isSome := by
      rw [FileSys.read, Option.isSome_map]
      rfl
    refine ⟨h, ?_⟩
    show if w.files.pathExists (ckptPath store) = true then _ else _
    rw [hexists]
    rcases h.sound.records with hread | ⟨hread, hnone⟩
    · rw [hread]
      exact rfl
    · rw [hread]
      exact hnone
  · cases found with
    | false =>
      rintro w - ⟨h, hc, hr⟩
      subst hc hr
      exact ⟨rfl, h⟩
    | true =>
      refine RelyGuarantee.Triple.bind (Q := fun bytes w => Idle uuid store .checkpoint charged receipted w ∧
        bytes = some (ckptText (doneSet charged receipted))) ?_ fun bytes => ?_
      · refine RelyGuarantee.Triple.read (stable _) (fun _ => trivial) ?_
        rintro w - ⟨h, hread⟩ -
        exact ⟨h, hread⟩
      · rintro w hw ⟨h, rfl⟩
        show (rules uuid store .checkpoint).Safe () _ _ (Prog.ofExcept (loadDone (ckptText _))) w
        rw [loadDone_ckptText]
        exact ⟨rfl, h⟩

end AgentTx.Gate1
