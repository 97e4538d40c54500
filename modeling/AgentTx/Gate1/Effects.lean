import AgentTx.Gate1.Protocol
import AgentTx.Lib.Prog.Total
import AgentTx.Lib.Redo

/-!
# `Gate1.Effects` — the effects of a turn and their records

A worker that exits at a named point leaves the charge and the receipt of the turn each in a state of `Lib.Redo`
(`At`): the orchestrators differ in the guard between effect and record (`Orch.charge`, `Orch.receipt`). Here is what
each tool makes of these states, and each kind of record.

Layout of the proof:
* **Names** — a receipt has the name of its turn or one that was drawn for it; the names differ from those of the
  other files in the store.
* **Receipts** — their set, as `glob` finds it: one more under a new name, the same one under the old name.
* **Records** — each orchestrator keeps them elsewhere: in a file, in a table, or in the name of the receipt.
* **The statements** — from one state of `Lib.Redo` to the next: `At.charge` for the charge, `unique_ends` and
  `keyed_ends` for a receipt, `save_ends` and `loadCkpt_ends` for the checkpoint.
-/

namespace AgentTx.Gate1

open Redo (Guard Stage Cell History)

/-- The guard of the charge. -/
def Orch.charge : Orch → Guard
  | .none => .nothing
  | .checkpoint => .after
  | .dbos => .together
  | .agenttx => .together

/-- The guard of the receipt. -/
def Orch.receipt : Orch → Guard
  | .none => .nothing
  | .checkpoint => .after
  | .dbos => .after
  | .agenttx => .inPlace

/-- Where a worker that exits at this point leaves the charge. -/
def Point.charge : Point → Stage
  | .pre_charge => .before
  | .post_charge_pre_record => .between
  | _ => .past

/-- And the receipt. -/
def Point.receipt : Point → Stage
  | .none => .past
  | .post_receipt_pre_record => .between
  | .post_receipt_record => .past
  | _ => .before

section At

variable (uuid : Nat → String) (store : String)

/-- The names that receipts can have when `draws` names are drawn. -/
def Named (o : Orch) (draws : Nat) (name : String) : Prop :=
  match o with
  | .agenttx => name = receiptName "T1"
  | _ => ∃ i < draws, name = receiptName (uuid i)

/-- There are `n` receipts, all of them whole. -/
structure Receipts (o : Orch) (n draws : Nat) (fs : FileSys) : Prop where
  count : (glob store fs).ncard = n
  names : ∀ name ∈ glob store fs, Named uuid o draws name
  whole : ∀ name ∈ glob store fs, fs.read (receiptPath store name) = some content

/-- The steps that a checkpoint lists. -/
def doneSet (charged receipted : Bool) : Finset String :=
  (if charged then {"charge"} else ∅) ∪ if receipted then {"receipt"} else ∅

/-- The records of the orchestrator. -/
def Records (o : Orch) (charged receipted : Bool) (w : World) : Prop :=
  match o with
  | .none => charged = false ∧ receipted = false
  | .checkpoint =>
      w.files.read (ckptPath store) = some (ckptText (doneSet charged receipted)) ∨
        w.files.read (ckptPath store) = Option.none ∧ charged = false ∧ receipted = false
  | .dbos =>
      ("charge" ∈ w.app.steps.rows ↔ charged = true) ∧ ("receipt" ∈ w.app.steps.rows ↔ receipted = true)
  | .agenttx =>
      (("T1", "charge") ∈ w.app.wal.rows ↔ charged = true) ∧ (("T1", "receipt") ∈ w.app.wal.rows ↔ receipted = true)

/-- The charge and the receipt of the turn are in these states, no worker is under way, and at most `d` names have
    been drawn. -/
structure At (d : Nat) (o : Orch) (c r : Cell) (w : World) : Prop where
  drawn : w.draws ≤ d
  idle : w.tx = Option.none
  charges : w.app.charges = List.replicate c.count ⟨ORDER_ID, AMOUNT⟩
  receipts : Receipts uuid store o r.count w.draws w.files
  records : Records store o c.recorded r.recorded w
  no_links : w.files.NoLinks

/-- The worker has exited at `k`, and drawn at most one name. -/
structure Exited (d : Nat) (o : Orch) (k : Point) (c r : Cell) (e : Exn) (w : World) : Prop where
  crash : e = .Crash
  point : k ≠ .none
  charge : k.charge = .between → c.recorded = false
  receipt : k.receipt = .between → r.recorded = false
  left : At uuid store (d + 1) o (c.stop o.charge k.charge) (r.stop o.receipt k.receipt) w

end At

variable {uuid : Nat → String} {store : String} {o : Orch} {k : Point} {c r : Cell} {w w' : World} {fs fs' : FileSys}
  {n d draws : Nat} {E : Exn → World → Prop}

/-! ## Names

Receipts and their temporary files are in one directory, so that their names must differ. -/

theorem receiptName_injective : Function.Injective receiptName := by
  intro a b h
  exact (String.append_right_inj "receipt_").mp ((String.append_left_inj ".txt").mp h)

theorem receiptPath_injective : Function.Injective (receiptPath store) := by
  intro a b h
  exact (FsPath.mk.inj h).2

theorem ckptPath_ne (name : String) : ckptPath store ≠ receiptPath store name := by
  intro h
  have hlist := congrArg String.toList (FsPath.mk.inj h).1
  rw [String.toList_append, List.self_eq_append_right] at hlist
  exact absurd hlist (by decide)

theorem ckptTmp_ne (name : String) : ckptTmp store ≠ receiptPath store name := by
  intro h
  have hlist := congrArg String.toList (FsPath.mk.inj h).1
  rw [String.toList_append, List.self_eq_append_right] at hlist
  exact absurd hlist (by decide)

/-- A temporary name is not matched. -/
theorem not_isReceipt_tmp (turn_key : String) : ¬ IsReceipt (".tmp_" ++ turn_key) := by
  rintro ⟨key, h⟩
  have hhead := congrArg (fun s : String => s.toList.head?) h
  have htmp : ".tmp_".toList = ['.', 't', 'm', 'p', '_'] := by decide
  have hreceipt : "receipt_".toList = ['r', 'e', 'c', 'e', 'i', 'p', 't', '_'] := by decide
  simp [receiptName, htmp, hreceipt] at hhead

theorem mem_glob {name : String} :
    name ∈ glob store fs ↔ (fs.read (receiptPath store name)).isSome ∧ IsReceipt name := by
  rw [FileSys.read, Option.isSome_map]
  exact Iff.rfl

/-! ## Receipts

`glob` is a set of names here; what it counts is how many there are. -/

/-- Only what is read under the names of receipts matters. -/
theorem glob_congr
    (hread : ∀ name, IsReceipt name → fs'.read (receiptPath store name) = fs.read (receiptPath store name)) :
    glob store fs' = glob store fs := by
  ext name
  rw [mem_glob, mem_glob]
  constructor
  · rintro ⟨hsome, hname⟩
    exact ⟨hread name hname ▸ hsome, hname⟩
  · rintro ⟨hsome, hname⟩
    exact ⟨(hread name hname).symm ▸ hsome, hname⟩

theorem Receipts.keep (h : Receipts uuid store o n draws fs)
    (hread : ∀ name, IsReceipt name → fs'.read (receiptPath store name) = fs.read (receiptPath store name)) :
    Receipts uuid store o n draws fs' := by
  have hglob := glob_congr hread
  refine ⟨hglob ▸ h.count, hglob ▸ h.names, ?_⟩
  intro name hname
  rw [hglob] at hname
  rw [hread name (mem_glob.mp hname).2]
  exact h.whole name hname

/-- One file is written. -/
theorem glob_insert {key : String} (hself : fs'.read (receiptPath store (receiptName key)) = some content)
    (hothers : ∀ name, IsReceipt name → name ≠ receiptName key →
      fs'.read (receiptPath store name) = fs.read (receiptPath store name)) :
    glob store fs' = insert (receiptName key) (glob store fs) := by
  ext name
  rw [Set.mem_insert_iff, mem_glob, mem_glob]
  by_cases hname : name = receiptName key
  · subst hname
    rw [hself]
    exact ⟨fun _ => Or.inl rfl, fun _ => ⟨rfl, key, rfl⟩⟩
  · constructor
    · rintro ⟨hsome, hreceipt⟩
      exact Or.inr ⟨hothers name hreceipt hname ▸ hsome, hreceipt⟩
    · rintro (heq | ⟨hsome, hreceipt⟩)
      · exact absurd heq hname
      · exact ⟨(hothers name hreceipt hname).symm ▸ hsome, hreceipt⟩

theorem whole_insert {key : String} (h : ∀ name ∈ glob store fs, fs.read (receiptPath store name) = some content)
    (hself : fs'.read (receiptPath store (receiptName key)) = some content)
    (hothers : ∀ name, IsReceipt name → name ≠ receiptName key →
      fs'.read (receiptPath store name) = fs.read (receiptPath store name)) :
    ∀ name ∈ glob store fs', fs'.read (receiptPath store name) = some content := by
  intro name hname
  rw [glob_insert hself hothers] at hname
  by_cases heq : name = receiptName key
  · rw [heq]
    exact hself
  · have hold := Set.mem_of_mem_insert_of_ne hname heq
    rw [hothers name (mem_glob.mp hold).2 heq]
    exact h name hold

/-- The receipts have drawn names. -/
theorem finite_glob (h : ∀ name ∈ glob store fs, Named uuid o draws name) : (glob store fs).Finite := by
  by_cases ho : o = .agenttx
  · subst ho
    exact (Set.finite_singleton (receiptName "T1")).subset h
  · refine ((Set.finite_lt_nat draws).image fun i => receiptName (uuid i)).subset fun name hname => ?_
    have hnamed := h name hname
    have hdrawn : ∃ i < draws, name = receiptName (uuid i) := by
      cases o with
      | agenttx => exact absurd rfl ho
      | _ => exact hnamed
    obtain ⟨i, hi, rfl⟩ := hdrawn
    exact ⟨i, hi, rfl⟩

/-- **A receipt under a new name** is one more. -/
theorem Receipts.unique (huuid : Set.InjOn uuid (Set.Iic draws)) (ho : o ≠ .agenttx)
    (h : Receipts uuid store o n draws fs)
    (hself : fs'.read (receiptPath store (receiptName (uuid draws))) = some content)
    (hothers : ∀ name, IsReceipt name → name ≠ receiptName (uuid draws) →
      fs'.read (receiptPath store name) = fs.read (receiptPath store name)) :
    Receipts uuid store o (n + 1) (draws + 1) fs' := by
  have hdrawn : ∀ d name, Named uuid o d name ↔ ∃ i < d, name = receiptName (uuid i) := by
    intro d name
    cases o with
    | agenttx => exact absurd rfl ho
    | _ => exact Iff.rfl
  -- the name was not drawn before
  have hnew : receiptName (uuid draws) ∉ glob store fs := by
    intro hmem
    obtain ⟨i, hi, heq⟩ := (hdrawn draws _).mp (h.names _ hmem)
    have hdi : draws = i := huuid (Set.mem_Iic.mpr (Nat.le_refl _)) (Nat.le_of_lt hi) (receiptName_injective heq)
    omega
  -- one more receipt
  have hglob := glob_insert hself hothers
  refine ⟨?_, ?_, whole_insert h.whole hself hothers⟩
  · rw [hglob, Set.ncard_insert_of_notMem hnew (finite_glob h.names), h.count]
  · intro name hname
    rw [hglob] at hname
    apply (hdrawn _ _).mpr
    rcases Set.mem_insert_iff.mp hname with rfl | hold
    · exact ⟨draws, Nat.lt_succ_self _, rfl⟩
    · obtain ⟨i, hi, heq⟩ := (hdrawn draws _).mp (h.names _ hold)
      exact ⟨i, Nat.lt_succ_of_lt hi, heq⟩

/-- **A receipt under the name of the turn** is the only one. -/
theorem Receipts.keyed (h : Receipts uuid store .agenttx n draws fs)
    (hself : fs'.read (receiptPath store (receiptName "T1")) = some content)
    (hothers : ∀ name, IsReceipt name → name ≠ receiptName "T1" →
      fs'.read (receiptPath store name) = fs.read (receiptPath store name)) :
    Receipts uuid store .agenttx 1 draws fs' := by
  have hglob : glob store fs' = {receiptName "T1"} := by
    rw [glob_insert hself hothers]
    ext name
    rw [Set.mem_insert_iff, Set.mem_singleton_iff]
    exact ⟨fun hname => hname.elim id (h.names name), Or.inl⟩
  refine ⟨?_, ?_, whole_insert h.whole hself hothers⟩
  · rw [hglob, Set.ncard_singleton]
  · intro name hname
    rw [hglob] at hname
    exact hname

/-! ## Records

What a worker reads of earlier ones when it starts. -/

theorem mem_insertOrIgnore_id {α : Type} [DecidableEq α] {t : KeyedRows (id : α → α)} {row x : α} :
    x ∈ (t.insertOrIgnore row).rows ↔ x ∈ t.rows ∨ x = row := by
  have hmem : x ∈ t.insertOrIgnore row ↔ _ := KeyedRows.mem_insertOrIgnore
  refine hmem.trans ⟨fun h => h.imp id And.left, ?_⟩
  rintro (h | rfl)
  · exact Or.inl h
  · by_cases hx : x ∈ t.rows
    · exact Or.inl hx
    · refine Or.inr ⟨rfl, fun y hy hyx => hx ?_⟩
      have hyx' : y = x := hyx
      exact hyx' ▸ hy

theorem mem_insertOrIgnore_self {α : Type} [DecidableEq α] {t : KeyedRows (id : α → α)} {row : α} :
    row ∈ (t.insertOrIgnore row).rows :=
  mem_insertOrIgnore_id.mpr (Or.inr rfl)

theorem mem_insertOrIgnore_ne {α : Type} [DecidableEq α] {t : KeyedRows (id : α → α)} {row x : α} (hne : x ≠ row) :
    x ∈ (t.insertOrIgnore row).rows ↔ x ∈ t.rows :=
  mem_insertOrIgnore_id.trans (or_iff_left hne)

/-- The records are in the tables and in the checkpoint. -/
theorem Records.keep {charged receipted : Bool} (h : Records store o charged receipted w) (happ : w'.app = w.app)
    (hread : w'.files.read (ckptPath store) = w.files.read (ckptPath store)) :
    Records store o charged receipted w' := by
  cases o with
  | none => exact h
  | checkpoint =>
    have hor : _ ∨ _ := h
    rw [← hread] at hor
    exact hor
  | dbos =>
    have hand : _ ∧ _ := h
    rw [← happ] at hand
    exact hand
  | agenttx =>
    have hand : _ ∧ _ := h
    rw [← happ] at hand
    exact hand

/-- The tables after the transaction of the charge. -/
def App.charged (also_record : Option Record) (a : App) : App :=
  also_record.elim (a.insertCharge ORDER_ID AMOUNT) (a.insertCharge ORDER_ID AMOUNT).record

/-- The records of `dbos` and of `agenttx` are rows. -/
theorem Records.dbos_charge {charged receipted : Bool} (h : Records store .dbos charged receipted w)
    (happ : w'.app = w.app.charged (some (.steps "charge"))) : Records store .dbos true receipted w' := by
  obtain ⟨-, hr⟩ := h
  show (_ ↔ _) ∧ (_ ↔ _)
  rw [happ]
  exact ⟨iff_of_true mem_insertOrIgnore_self rfl, (mem_insertOrIgnore_ne (by decide)).trans hr⟩

theorem Records.dbos_receipt {charged receipted : Bool} (h : Records store .dbos charged receipted w)
    (happ : w'.app = w.app.record (.steps "receipt")) : Records store .dbos charged true w' := by
  obtain ⟨hc, -⟩ := h
  show (_ ↔ _) ∧ (_ ↔ _)
  rw [happ]
  exact ⟨(mem_insertOrIgnore_ne (by decide)).trans hc, iff_of_true mem_insertOrIgnore_self rfl⟩

theorem Records.agenttx_charge {charged receipted : Bool} (h : Records store .agenttx charged receipted w)
    (happ : w'.app = w.app.charged (some (.wal "T1" "charge"))) : Records store .agenttx true receipted w' := by
  obtain ⟨-, hr⟩ := h
  show (_ ↔ _) ∧ (_ ↔ _)
  rw [happ]
  exact ⟨iff_of_true mem_insertOrIgnore_self rfl, (mem_insertOrIgnore_ne (by decide)).trans hr⟩

theorem Records.agenttx_receipt {charged receipted : Bool} (h : Records store .agenttx charged receipted w)
    (happ : w'.app = w.app.record (.wal "T1" "receipt")) : Records store .agenttx charged true w' := by
  obtain ⟨hc, -⟩ := h
  show (_ ↔ _) ∧ (_ ↔ _)
  rw [happ]
  exact ⟨(mem_insertOrIgnore_ne (by decide)).trans hc, iff_of_true mem_insertOrIgnore_self rfl⟩

/-- **The checkpoint is read back.** -/
theorem loadDone_ckptText (done : Finset String) : loadDone (ckptText done) = .ok done := by
  -- texts stay as they are when a value is dumped and reloaded
  have hitems : ∀ names : List String,
      Json.stringKeysItems (names.map Json.str) = names.map Json.str := by
    intro names
    induction names with
    | nil => rfl
    | cons name names ih =>
      show Json.str name :: Json.stringKeysItems (names.map Json.str) = _
      rw [ih]
      rfl
  have hnames : ∀ names : List String, (names.map Json.str).mapM asStr = .ok names := by
    intro names
    induction names with
    | nil => rfl
    | cons name names ih =>
      rw [List.map_cons, List.mapM_cons, ih]
      rfl
  have hloads : json_loads (Json.dumps (.obj [(.str "done", .arr ((done.sort (· ≤ ·)).map .str))])) =
      .ok (.obj [(.str "done", .arr ((done.sort (· ≤ ·)).map .str))]) := by
    rw [json_loads, Json.loads_dumps]
    show Except.ok (Json.obj [(.str "done", .arr (Json.stringKeysItems _))]) = _
    rw [hitems]
  unfold loadDone ckptText
  rw [Sha256.decode_encode]
  show (json_loads _ >>= _) = _
  rw [hloads]
  show (((done.sort (· ≤ ·)).map Json.str).mapM asStr >>= _) = _
  rw [hnames]
  show Except.ok (List.toFinset _) = _
  -- the list is the set, sorted
  rw [Finset.sort_toFinset]

theorem At.mono {d' : Nat} (h : At uuid store d o c r w) (hd : d ≤ d') : At uuid store d' o c r w :=
  ⟨h.drawn.trans hd, h.idle, h.charges, h.receipts, h.records, h.no_links⟩

/-! ## The statements

One lemma for each, on worlds that are in a state of `Lib.Redo`. -/

theorem crash_ends {Q : Unit → World → Prop} {p : Point} (hexit : p = k → E .Crash w) (hgo : p ≠ k → Q () w) :
    (crash p k).Ends Q E w := by
  unfold crash
  split_ifs with h
  · exact hexit h
  · exact hgo h

/-- A worker exits at a point, or goes on behind it with the world as it was. -/
theorem crash_then {α : Type} {Q : α → World → Prop} {p : Point} {f : Unit → GateProg α}
    (hexit : p = k → E .Crash w) (hgo : p ≠ k → (f ()).Ends Q E w) : (crash p k >>= f).Ends Q E w := by
  refine Prog.Ends.bind (Q := fun _ w' => w' = w ∧ p ≠ k) (crash_ends hexit fun hne => ⟨rfl, hne⟩) ?_
  rintro _ w' ⟨rfl, hne⟩
  exact hgo hne

theorem charged_charges (also_record : Option Record) (a : App) :
    (a.charged also_record).charges = a.charges ++ [⟨ORDER_ID, AMOUNT⟩] := by
  cases also_record with
  | none => rfl
  | some r => cases r <;> rfl

theorem charge_ends {Q : Unit → World → Prop} (also_record : Option Record) (hidle : w.tx = Option.none)
    (h : Q () { w with app := w.app.charged also_record, tx := Option.none }) :
    (charge ORDER_ID AMOUNT also_record).Ends Q E w := by
  obtain ⟨app, tx, files, draws⟩ := w
  cases hidle
  apply Prog.Ends.of_run_ok _ h
  cases also_record <;> rfl

/-- **The charge is there**, and what is recorded of it. -/
theorem At.charge {c' : Cell} {also_record : Option Record} (h : At uuid store d o c r w)
    (hcount : c'.count = c.count + 1)
    (hrec : Records store o c'.recorded r.recorded { w with app := w.app.charged also_record, tx := Option.none }) :
    At uuid store d o c' r { w with app := w.app.charged also_record, tx := Option.none } := by
  refine ⟨h.drawn, rfl, ?_, h.receipts, hrec, h.no_links⟩
  show (w.app.charged also_record).charges = _
  rw [charged_charges, h.charges, hcount, List.replicate_succ']

/-- **One more receipt.** -/
theorem unique_ends {Q : Unit → World → Prop} (huuid : Set.InjOn uuid (Set.Iic d)) (ho : o ≠ .agenttx)
    (h : At uuid store d o c r w)
    (hQ : ∀ w', At uuid store (d + 1) o c ⟨r.count + 1, r.recorded⟩ w' → w'.app = w.app → Q () w') :
    (write_receipt_unique store uuid).Ends Q E w := by
  unfold write_receipt_unique
  refine Prog.Ends.bind (Q := fun i w₁ => i = w.draws ∧ w₁ = { w with draws := w.draws + 1 })
    ((Prog.ends_step _ _).mpr ⟨_, _, rfl, rfl, rfl⟩) ?_
  rintro _ _ ⟨rfl, rfl⟩
  refine (Prog.ends_writeFile _ content h.no_links).mono ?_ fun _ _ he => he
  rintro _ _ ⟨fs, rfl, hlinks, hself, hothers⟩
  refine hQ _ ⟨Nat.succ_le_succ h.drawn, h.idle, h.charges, ?_, ?_, hlinks⟩ rfl
  · have hdrawn : Set.InjOn uuid (Set.Iic w.draws) := huuid.mono (Set.Iic_subset_Iic.mpr h.drawn)
    exact h.receipts.unique hdrawn ho hself fun name _ hne => hothers _ fun heq => hne (receiptPath_injective heq)
  · exact h.records.keep rfl (hothers _ (ckptPath_ne _))

/-- **The receipt of the turn.** -/
theorem keyed_ends {Q : Unit → World → Prop} (h : At uuid store d .agenttx c r w)
    (hQ : ∀ w', At uuid store d .agenttx c ⟨1, r.recorded⟩ w' → w'.app = w.app → Q () w') :
    (write_receipt_keyed store "T1").Ends Q E w := by
  unfold write_receipt_keyed
  refine (Prog.ends_publish Exn.FileNotFoundError _ _ content h.no_links).mono ?_ fun _ _ he => he
  rintro _ _ ⟨fs, rfl, hlinks, hself, hothers⟩
  refine hQ _ ⟨h.drawn, h.idle, h.charges, ?_, ?_, hlinks⟩ rfl
  · refine h.receipts.keyed hself fun name hname hne => hothers _ ?_ fun heq => hne (receiptPath_injective heq)
    intro heq
    exact not_isReceipt_tmp "T1" (receiptPath_injective heq ▸ hname)
  · exact h.records.keep rfl (hothers _ (ckptPath_ne _) (ckptPath_ne _))

/-- **The checkpoint is saved.** -/
theorem save_ends {Q : Unit → World → Prop} (c' r' : Cell) (h : At uuid store d .checkpoint c r w)
    (hc : c'.count = c.count) (hr : r'.count = r.count)
    (hQ : ∀ w', At uuid store d .checkpoint c' r' w' → Q () w') :
    (save store (doneSet c'.recorded r'.recorded)).Ends Q E w := by
  have hne : ∀ name, receiptPath store name ≠ ckptTmp store ∧ receiptPath store name ≠ ckptPath store :=
    fun name => ⟨(ckptTmp_ne name).symm, (ckptPath_ne name).symm⟩
  unfold save
  refine (Prog.ends_publish Exn.FileNotFoundError _ _ _ h.no_links).mono ?_ fun _ _ he => he
  rintro _ _ ⟨fs, rfl, hlinks, hself, hothers⟩
  refine hQ _ ⟨h.drawn, h.idle, ?_, ?_, Or.inl hself, hlinks⟩
  · rw [hc]
    exact h.charges
  · rw [hr]
    exact h.receipts.keep fun name _ => hothers _ (hne name).1 (hne name).2

/-- **The checkpoint is loaded.** -/
theorem loadCkpt_ends {Q : Finset String → World → Prop} (h : At uuid store d .checkpoint c r w)
    (hQ : Q (doneSet c.recorded r.recorded) w) : (loadCkpt store).Ends Q E w := by
  have hexists : w.files.pathExists (ckptPath store) = (w.files.read (ckptPath store)).isSome := by
    rw [FileSys.read, Option.isSome_map]
    rfl
  unfold loadCkpt
  refine Prog.Ends.bind (Q := fun b w₁ => b = w.files.pathExists (ckptPath store) ∧ w₁ = w)
    (.of_run_ok (Prog.run_pathExists _ _) ⟨rfl, rfl⟩) ?_
  rintro b w₁ ⟨rfl, hw⟩
  subst hw
  -- the checkpoint has what is recorded, or nothing is and it is not there
  rcases h.records with hread | ⟨hread, hc, hr⟩
  · rw [hexists, hread]
    refine Prog.Ends.bind (Q := fun bytes w₂ =>
      bytes = some (ckptText (doneSet c.recorded r.recorded)) ∧ w₂ = w₁)
      ((Prog.ends_read _ _).mpr ⟨hread, rfl⟩) ?_
    rintro _ w₂ ⟨rfl, hw⟩
    subst hw
    show (Prog.ofExcept (loadDone (ckptText _))).Ends Q E w₂
    rw [loadDone_ckptText]
    exact hQ
  · rw [hexists, hread]
    rw [hc, hr] at hQ
    exact hQ

/-! ## The runners

The points at which a worker may exit, as stages of its two effects. -/

theorem Exited.atCharge (hk : k.receipt = .before) (hc : c.recorded = false)
    (h : At uuid store d o (c.stop o.charge k.charge) r w) : Exited uuid store d o k c r .Crash w := by
  refine ⟨rfl, ?_, fun _ => hc, ?_, ?_⟩
  · rintro rfl
    cases hk
  · intro hb
    rw [hk] at hb
    cases hb
  · rw [hk, Cell.stop_before]
    exact h.mono (Nat.le_succ d)

theorem Exited.atReceipt (hk : k.charge = .past) (hne : k ≠ .none) (hr : r.recorded = false)
    (h : At uuid store (d + 1) o (c.stop o.charge .past) (r.stop o.receipt k.receipt) w) :
    Exited uuid store d o k c r .Crash w := by
  refine ⟨rfl, hne, ?_, fun _ => hr, ?_⟩
  · intro hb
    rw [hk] at hb
    cases hb
  · rw [hk]
    exact h

/-- A worker that has passed the charge exits behind it, or not at all. -/
theorem receipt_of_ne (hpre : .pre_charge ≠ k) (hbetween : .post_charge_pre_record ≠ k)
    (hpast : .post_charge_record ≠ k) : k.receipt ≠ .before := by
  cases k with
  | pre_charge => exact absurd rfl hpre
  | post_charge_pre_record => exact absurd rfl hbetween
  | post_charge_record => exact absurd rfl hpast
  | _ => nofun

/-- `run_none` has the same charge as the runners that ask first. -/
theorem run_none_eq : run_none uuid store k = ((do
    crash .pre_charge k
    charge ORDER_ID AMOUNT Option.none
    crash .post_charge_pre_record k
    crash .post_charge_record k : GateProg Unit) >>= fun _ => do
    write_receipt_unique store uuid
    crash .post_receipt_pre_record k
    crash .post_receipt_record k) := by
  simp only [run_none, Prog.bind_assoc]

/-- The charge, where nothing is recorded of it afterwards. -/
theorem charge_part (hc : c.recorded = false) (ho : o.charge = .nothing ∨ o.charge = .together)
    {also_record : Option Record} (h : At uuid store d o c r w)
    (hrec : Records store o (o.charge = .together) r.recorded
      { w with app := w.app.charged also_record, tx := Option.none }) :
    (do crash .pre_charge k
        charge ORDER_ID AMOUNT also_record
        crash .post_charge_pre_record k
        crash .post_charge_record k : GateProg Unit).Ends
      (fun _ w' => At uuid store d o (c.stop o.charge .past) r w' ∧ k.receipt ≠ .before)
      (Exited uuid store d o k c r) w := by
  -- the charge is made once more, and is recorded with it or not at all
  have hmade : o.charge.made c.count = c.count + 1 := by
    rcases ho with ho | ho <;> rw [ho] <;> rfl
  have hsame : c.stop o.charge .past = c.stop o.charge .between := by
    rw [Cell.stop_past hc, Cell.stop_between hc]
    rcases ho with ho | ho <;> rw [ho] <;> rfl
  have hat : At uuid store d o (c.stop o.charge .between) r
      { w with app := w.app.charged also_record, tx := Option.none } := by
    rw [Cell.stop_between hc, hmade]
    exact h.charge rfl hrec
  -- the three points at which the worker may exit
  refine crash_then ?_ fun hpre => ?_
  · rintro rfl
    exact Exited.atCharge rfl hc ((Cell.stop_before _ _).symm ▸ h)
  refine Prog.Ends.bind (Q := fun _ => At uuid store d o (c.stop o.charge .between) r) (charge_ends _ h.idle hat) ?_
  intro _ w₂ h₂
  refine crash_then ?_ fun hbetween => ?_
  · rintro rfl
    exact Exited.atCharge rfl hc h₂
  rw [hsame]
  refine crash_ends ?_ fun hpast => ⟨h₂, receipt_of_ne hpre hbetween hpast⟩
  rintro rfl
  exact Exited.atCharge rfl hc (hsame ▸ h₂)

end AgentTx.Gate1
