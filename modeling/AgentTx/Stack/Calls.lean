import AgentTx.Gateway.Alone
import AgentTx.Gateway.Contract
import AgentTx.Lib.Prog.Total
import AgentTx.Stack.Protocol

/-!
# `Stack.Calls` — the two calls of a turn

What the charge and the receipt of a turn keep of the tables and the files, wherever they are stopped (`contract`);
and that, on what they leave behind, only the clock can end a call early (`Clocked`).

Layout of the proof:
* **The contract** — the tables and the files of the node, as the first attempt found them: the charge is there with
  its row or not at all, the receipt whole or not at all, and what is committed stays.
* **The two calls** — `charge_callOk` and `receipt_callOk` answer for each stage of `Gateway.call`.
* **Calls that only the clock ends** — `charge_clocked` and `receipt_clocked`, by following the statements on the
  tables that the contract leaves possible.
-/

namespace AgentTx.Stack

open Gateway

def chargeKey (turn : String) : String := action_id "s" turn "c" (.int 0)

def receiptKey (turn : String) : String := action_id "s" turn "c" (.int 1)

/-- The row of a call with these arguments that is over. -/
structure Done (args : Json) (row : KeyRow) : Prop where
  status : row.status = .committed
  args_fp : row.args_fp = args_fingerprint args

/-- The action of this key is committed. -/
def Committed (d : Db ChargeRow) (key : String) : Prop := ∃ row, d.gw_keys key = some row ∧ row.status = .committed

/-- What the tool publishes. -/
def receipt (str : Json → String) (order : String) : List UInt8 := ReceiptTool.content str (.str order)

section Contract

variable (str : Json → String) (store order turn : String) (d₀ : Db ChargeRow) (x₀ : Outside Unit)

/-- **The tables and the files** of a turn that found `d₀` and `x₀`: the charge is one with its row, the receipt is
    whole and there before its row, and nothing else has changed. -/
structure Kept (d : Db ChargeRow) (x : Outside Unit) : Prop where
  charge : d.gw_keys (chargeKey turn) = none ∧ d.app = d₀.app ∨
    (∃ row, d.gw_keys (chargeKey turn) = some row ∧ Done (chargeArgs order) row) ∧
      d.app = d₀.app ++ [⟨.str order, .int 100⟩]
  receipt : x.files.read (ReceiptTool.final store (receiptKey turn)) = none ∨
    x.files.read (ReceiptTool.final store (receiptKey turn)) = some (receipt str order)
  recorded : ∀ row, d.gw_keys (receiptKey turn) = some row → Done (receiptArgs order) row ∧
    x.files.read (ReceiptTool.final store (receiptKey turn)) = some (Stack.receipt str order)
  rows : ∀ k, k ≠ chargeKey turn → k ≠ receiptKey turn → d.gw_keys k = d₀.gw_keys k
  files : ∀ name, name ≠ receiptKey turn ++ ".receipt" →
    x.files.read ⟨store ++ "/committed", name⟩ = x₀.files.read ⟨store ++ "/committed", name⟩
  no_links : x.files.NoLinks

/-- The actions of `held` are committed already. -/
def contract (held : String → Prop) : Contract ChargeRow (Outside Unit) where
  inv d x := Kept str store order turn d₀ x₀ d x ∧ ∀ k, held k → Committed d k
  may _ _ _ _ := True
  may_refl _ _ := trivial

end Contract

variable {str : Json → String} {store order turn : String} {d₀ d : Db ChargeRow} {x₀ x : Outside Unit}
  {held : String → Prop} {afp : String}

/-- A record of what is committed forgets nothing that is. -/
theorem Committed.record {key k : String} (h : Committed d k) (klass : ToolClass) (stored : Option String) :
    Committed (d.record key afp .committed klass stored) k := by
  by_cases hk : k = key
  · rw [hk]
    exact Db.record_status d key afp .committed klass stored
  · obtain ⟨row, hrow, hst⟩ := h
    exact ⟨row, (record_gw_keys_of_ne hk).trans hrow, hst⟩

/-- The row of a new action. -/
theorem record_row {key : String} (h : d.gw_keys key = none) (klass : ToolClass) (stored : Option String) :
    (d.record key afp .committed klass stored).gw_keys key = some ⟨some afp, .committed, klass, stored⟩ :=
  Db.record_of_none h afp .committed klass stored

/-- The action of a call that has returned is committed, and so is what it answers. -/
structure Answered (key : String) (res : Result) (d : Db ChargeRow) : Prop where
  committed : Committed d key
  key : res.key = key
  status : res.status = .committed ∨ res.status = .dedup_hit

/-- **The row of an action that is over** answers the call. -/
theorem Done.found {ph : Contract.Phases ChargeRow (Outside Unit)} {key : String} {klass : ToolClass} {args : Json}
    {row : KeyRow} (h : Done args row) (hrow : d.gw_keys key = some row)
    (hafter : ∀ res, Answered key res d → ph.after res d x) : ph.found key klass row d x := by
  unfold Contract.Phases.found
  rw [h.status]
  exact hafter _ ⟨⟨row, hrow, h.status⟩, rfl, Or.inr rfl⟩

/-! ## The charge

A charge is one transaction: its row and the row of its key are committed together or not at all. -/

/-- What is known at each stage of the charge. -/
def chargePhases (turn : String) : Contract.Phases ChargeRow (Outside Unit) where
  before _ _ := True
  ready d _ := d.gw_keys (chargeKey turn) = none
  prepared _ _ := False
  starting _ _ := False
  effected _ _ _ := False
  undoing _ _ := False
  undone _ _ := False
  after res d _ := Answered (chargeKey turn) res d

theorem Kept.charge_row {row : KeyRow} (h : Kept str store order turn d₀ x₀ d x)
    (hrow : d.gw_keys (chargeKey turn) = some row) : Done (chargeArgs order) row := by
  rcases h.charge with ⟨hnone, -⟩ | ⟨⟨row', hrow', hdone⟩, -⟩
  · rw [hnone] at hrow
    cases hrow
  · cases hrow.symm.trans hrow'
    exact hdone

/-- **The charge** is inserted with its row. -/
theorem Kept.charged (hne : receiptKey turn ≠ chargeKey turn) (h : Kept str store order turn d₀ x₀ d x)
    (hafp : args_fingerprint (chargeArgs order) = some afp) (hnone : d.gw_keys (chargeKey turn) = none)
    (stored : Option String) :
    Kept str store order turn d₀ x₀ (Db.record { d with app := d.app ++ [⟨.str order, .int 100⟩] } (chargeKey turn)
      afp .committed .transactional stored) x := by
  -- no row of the charge, no charge
  have happ : d.app = d₀.app := by
    rcases h.charge with ⟨-, happ⟩ | ⟨⟨row, hrow, -⟩, -⟩
    · exact happ
    · rw [hnone] at hrow
      cases hrow
  have hother : ∀ k, k ≠ chargeKey turn → (Db.record { d with app := d.app ++ [⟨.str order, .int 100⟩] }
      (chargeKey turn) afp .committed .transactional stored).gw_keys k = d.gw_keys k :=
    fun k hk => record_gw_keys_of_ne hk
  refine ⟨Or.inr ⟨⟨_, record_row hnone _ _, rfl, hafp.symm⟩, ?_⟩, h.receipt, fun row hrow => ?_, fun k hk hk' => ?_,
    h.files, h.no_links⟩
  · show d.app ++ _ = _
    rw [happ]
  · exact h.recorded row ((hother _ hne).symm.trans hrow)
  · exact (hother k hk).trans (h.rows k hk hk')

theorem charge_callOk (hne : receiptKey turn ≠ chargeKey turn) (hafp : args_fingerprint (chargeArgs order) = some afp) :
    Contract.CallOk (contract str store order turn d₀ x₀ held) (ChargeTool str (Outside Unit)) (chargeKey turn) afp
      (chargeArgs order) (chargePhases turn) fun _ _ => True := by
  constructor
  case raises => exact fun _ _ _ => trivial
  case mismatch => exact fun _ _ _ _ _ _ => trivial
  case new => exact fun _ _ _ _ hnone => hnone
  -- the row that is found is committed
  case found =>
    rintro d x row ⟨hkept, -⟩ - - hrow -
    exact (hkept.charge_row hrow).found hrow fun _ h => h
  -- charge and row in one transaction
  case db_effect =>
    rintro - d x v rows stored ⟨hkept, hheld⟩ hnone hres -
    cases hres
    refine ⟨⟨hkept.charged hne hafp hnone stored, fun k hk => ?_⟩, trivial, ?_, rfl, Or.inl rfl⟩
    · exact Committed.record (d := { d with app := _ }) (hheld k hk) .transactional stored
    · exact Db.record_status ..
  case direct => exact fun _ _ htx => absurd rfl htx
  case effect => exact fun htx => absurd rfl htx
  case finish => exact fun htx => absurd rfl htx
  all_goals exact fun hk => nomatch hk

/-! ## The receipt

A receipt is a rename and then a record. Between the two it is there without its row, and the next attempt renames
another one over it, which is equal. -/

/-- What is known at each stage of the receipt. -/
def receiptPhases (str : Json → String) (store order turn : String) : Contract.Phases ChargeRow (Outside Unit) where
  before _ _ := True
  ready d _ := d.gw_keys (receiptKey turn) = none
  prepared _ _ := False
  starting d _ := d.gw_keys (receiptKey turn) = none
  effected _ d x := d.gw_keys (receiptKey turn) = none ∧
    x.files.read (ReceiptTool.final store (receiptKey turn)) = some (receipt str order)
  undoing _ _ := False
  undone _ _ := False
  after res d _ := Answered (receiptKey turn) res d

/-- Calls on a temporary file change nothing that is committed. -/
theorem Kept.tmp {fs : FileSys} {k : String} (h : Kept str store order turn d₀ x₀ d x)
    (hfs : x.files.OnlyAt (ReceiptTool.tmp store k) fs) : Kept str store order turn d₀ x₀ d { x with files := fs } := by
  have hread : ∀ name, fs.read ⟨store ++ "/committed", name⟩ = x.files.read ⟨store ++ "/committed", name⟩ :=
    fun name => hfs.read (ReceiptTool.ne_tmp store k name)
  refine ⟨h.charge, ?_, fun row hrow => ?_, h.rows, fun name hname => (hread name).trans (h.files name hname),
    hfs.no_links⟩
  · have hsame : fs.read (ReceiptTool.final store (receiptKey turn)) = _ := hread _
    rw [hsame]
    exact h.receipt
  · have hsame : fs.read (ReceiptTool.final store (receiptKey turn)) = _ := hread _
    rw [hsame]
    exact h.recorded row hrow

/-- **The rename** puts the receipt there, whole. -/
theorem Kept.renamed {fs : FileSys} (h : Kept str store order turn d₀ x₀ d x)
    (hreplace : x.files.replace (ReceiptTool.tmp store (receiptKey turn))
      (ReceiptTool.final store (receiptKey turn)) = some fs)
    (hcontent : x.files.read (ReceiptTool.tmp store (receiptKey turn)) = some (Stack.receipt str order)) :
    fs.read (ReceiptTool.final store (receiptKey turn)) = some (Stack.receipt str order) ∧
      Kept str store order turn d₀ x₀ d { x with files := fs } := by
  have hread : fs.read (ReceiptTool.final store (receiptKey turn)) = some (Stack.receipt str order) :=
    (FileSys.read_replace_self hreplace).trans hcontent
  refine ⟨hread, h.charge, Or.inr hread, fun row hrow => ⟨(h.recorded row hrow).1, hread⟩, h.rows,
    fun name hname => ?_, h.no_links.replace hreplace⟩
  exact (FileSys.read_replace_of_ne hreplace (ReceiptTool.ne_tmp store _ name)
    fun hp => hname (congrArg FsPath.name hp)).trans (h.files name hname)

/-- The temporary file `n` holds `bytes`. -/
structure Writing (store turn : String) (n : Nat) (bytes : List UInt8) (x : Outside Unit) : Prop where
  inode : x.files.dir (ReceiptTool.tmp store (receiptKey turn)) = some n
  content : x.files.data n = bytes

/-- **`ReceiptTool.effect`**: the receipt is there when it returns. -/
theorem receipt_effect (d : Db ChargeRow) :
    ((contract str store order turn d₀ x₀ held).toolRules d).Triple () (fun _ => True)
      ((ReceiptTool str store : Tool ChargeRow (Outside Unit)).effect (receiptKey turn) (receiptArgs order))
      (fun _ x => x.files.read (ReceiptTool.final store (receiptKey turn)) = some (receipt str order))
      fun _ _ => True := by
  have hexists : ((contract str store order turn d₀ x₀ held).toolRules d).Triple () (fun _ => True)
      (Prog.pathExists (ReceiptTool.final store (receiptKey turn)) : Prog Unit (Outside Unit) String Bool)
      (fun found x => found = true →
        x.files.read (ReceiptTool.final store (receiptKey turn)) = some (receipt str order)) fun _ _ => True := by
    refine RelyGuarantee.Triple.read (Serial.stable_alone _) (fun _ => trivial) ?_
    rintro x ⟨hkept, -⟩ - - hfound
    rcases hkept.receipt with hnone | hwhole
    · have hdir : x.files.dir (ReceiptTool.final store (receiptKey turn)) = none := Option.map_eq_none_iff.mp hnone
      have hfound' : (x.files.dir (ReceiptTool.final store (receiptKey turn))).isSome = true := hfound
      rw [hdir] at hfound'
      cases hfound'
    · exact hwhole
  refine hexists.bind fun found => ?_
  cases found with
  | true => exact fun x _ hx => hx rfl
  | false =>
    refine RelyGuarantee.Triple.bind (Q := fun n => Writing store turn n []) ?_ fun n => ?_
    · refine RelyGuarantee.Triple.step (Serial.stable_alone _) ?_
      rintro x n x' ⟨hkept, hheld⟩ - - hact
      cases hact
      exact ⟨trivial, ⟨hkept.tmp (FileSys.onlyAt_openTrunc hkept.no_links _), hheld⟩, FileSys.openTrunc_dir_self _ _,
        FileSys.openTrunc_data_self _ _⟩
    -- `args["order"]` is there
    refine RelyGuarantee.Triple.bind (Q := fun v x => v = .str order ∧ Writing store turn n [] x) ?_ fun v => ?_
    · refine .ofExcept (fun v hv x _ hx => ⟨?_, hx⟩) fun _ _ _ _ _ => trivial
      cases hv
      rfl
    rintro x hx ⟨rfl, hwriting⟩
    have hbytes : ((contract str store order turn d₀ x₀ held).toolRules d).Triple ()
        (Writing store turn n ((receipt str order).take 0))
        (Prog.writeBytes n 0 (receipt str order) : Prog Unit (Outside Unit) String Unit)
        (fun _ => Writing store turn n ((receipt str order).take (receipt str order).length)) fun _ _ => True := by
      refine RelyGuarantee.Triple.writeBytes (F := fun k => Writing store turn n ((receipt str order).take k))
        (fun _ => Serial.stable_alone _) ?_
      rintro k b x hb ⟨hkept, hheld⟩ ⟨hn, hdata⟩ -
      refine ⟨trivial, ⟨hkept.tmp (FileSys.onlyAt_write hkept.no_links hn k [b]), hheld⟩, hn, ?_⟩
      show (x.files.write n k [b]).data n = _
      rw [FileSys.write_data_self, hdata, FileSys.overwrite_take hb]
    rw [List.take_length] at hbytes
    refine RelyGuarantee.Triple.bind hbytes (fun _ => ?_) x hx hwriting
    refine RelyGuarantee.Triple.bind (Q := fun _ => Writing store turn n (receipt str order)) ?_ fun _ => ?_
    · refine RelyGuarantee.Triple.modify (Serial.stable_alone _) ?_
      rintro x ⟨hkept, hheld⟩ ⟨hn, hdata⟩ -
      have honly : x.files.OnlyAt (ReceiptTool.tmp store (receiptKey turn)) (x.files.fsync n) :=
        FileSys.onlyAt_fsync hkept.no_links n
      exact ⟨trivial, ⟨hkept.tmp honly, hheld⟩, hn, hdata⟩
    refine RelyGuarantee.Triple.bind (Q := fun _ x =>
      x.files.read (ReceiptTool.final store (receiptKey turn)) = some (receipt str order)) ?_ fun _ => ?_
    · refine RelyGuarantee.Triple.replace (Serial.stable_alone _) (fun _ _ _ _ => ⟨trivial, trivial⟩) ?_
      rintro x fs ⟨hkept, hheld⟩ ⟨hn, hdata⟩ - hreplace
      have hcontent : x.files.read (ReceiptTool.tmp store (receiptKey turn)) = some (receipt str order) := by
        rw [FileSys.read, hn, Option.map_some, hdata]
      obtain ⟨hread, hkept'⟩ := hkept.renamed hreplace hcontent
      exact ⟨trivial, ⟨hkept', hheld⟩, hread⟩
    · exact fun _ _ hread => hread

/-- **The record** of a receipt that is there. -/
theorem Kept.record (hne : receiptKey turn ≠ chargeKey turn) (h : Kept str store order turn d₀ x₀ d x)
    (hafp : args_fingerprint (receiptArgs order) = some afp) (hnone : d.gw_keys (receiptKey turn) = none)
    (hread : x.files.read (ReceiptTool.final store (receiptKey turn)) = some (Stack.receipt str order))
    (stored : Option String) :
    Kept str store order turn d₀ x₀ (d.record (receiptKey turn) afp .committed .overlay stored) x := by
  have hother : ∀ k, k ≠ receiptKey turn →
      (d.record (receiptKey turn) afp .committed .overlay stored).gw_keys k = d.gw_keys k :=
    fun k hk => record_gw_keys_of_ne hk
  refine ⟨?_, h.receipt, fun row hrow => ⟨?_, hread⟩, fun k hk hk' => (hother k hk').trans (h.rows k hk hk'), h.files,
    h.no_links⟩
  · rw [hother _ (Ne.symm hne)]
    exact h.charge
  · cases hrow.symm.trans (record_row hnone .overlay stored)
    exact ⟨rfl, hafp.symm⟩

theorem receipt_callOk (hne : receiptKey turn ≠ chargeKey turn)
    (hafp : args_fingerprint (receiptArgs order) = some afp) :
    Contract.CallOk (contract str store order turn d₀ x₀ held) (ReceiptTool str store) (receiptKey turn) afp
      (receiptArgs order) (receiptPhases str store order turn) fun _ _ => True := by
  constructor
  case raises => exact fun _ _ _ => trivial
  case mismatch => exact fun _ _ _ _ _ _ => trivial
  case new => exact fun _ _ _ _ hnone => hnone
  case found =>
    rintro d x row ⟨hkept, -⟩ - - hrow -
    exact (hkept.recorded row hrow).1.found hrow fun _ h => h
  case direct => exact fun _ _ _ _ _ _ hready => hready
  -- the receipt is published before its row is there
  case effect =>
    intro _
    refine Contract.outside_alone (fun d => ?_) fun _ _ => trivial
    rintro x hx (hnone : d.gw_keys (receiptKey turn) = none)
    exact (receipt_effect d).conseq (fun _ _ h => h) (fun _ _ _ hread => ⟨hnone, hread⟩) (fun _ _ _ h => h) x hx trivial
  -- its row comes when it can be read
  case finish =>
    rintro - v stored - d x ⟨hkept, hheld⟩ ⟨hnone, hread⟩
    refine ⟨⟨hkept.record hne hafp hnone hread stored, fun k hk => (hheld k hk).record .overlay stored⟩, trivial, ?_,
      rfl, Or.inl rfl⟩
    exact Db.record_status ..
  all_goals exact fun hk => nomatch hk

/-! ## Calls that only the clock ends

For termination it is not enough to know what a call keeps: on what earlier attempts have left, no statement of it may
raise. The clock is the one exception, and it is set at the start of an attempt. -/

section Clocked

variable {R X α β : Type} {k : Nat} {w : World R X}

/-- Alone, it comes to its end, and only the clock can end it early. -/
def Clocked (k : Nat) (p : GwProg R X α) (w : World R X) : Prop :=
  p.Ends (fun _ w' => w'.clock.kill_at = k) (fun e w' => (e = .Crash ∧ k ≠ 0) ∧ w'.clock.kill_at = k) w

theorem Clocked.bind {p : GwProg R X α} {f : α → GwProg R X β} (h : Clocked k p w)
    (hf : ∀ a w', w'.clock.kill_at = k → Clocked k (f a) w') : Clocked k (p >>= f) w := Prog.Ends.bind h hf

/-- **The clock.** -/
theorem clocked_tick (hk : w.clock.kill_at = k) : Clocked k (Gateway.tick : GwProg R X Unit) w := by
  unfold Gateway.tick
  refine Prog.Ends.bind (Q := fun killed w' => (killed = true → k ≠ 0) ∧ w'.clock.kill_at = k) ?_ ?_
  · refine (Prog.ends_step _ _).mpr ⟨_, _, rfl, ?_, hk⟩
    intro hkilled
    rw [decide_eq_true_eq, hk] at hkilled
    exact hkilled.1
  · rintro killed w' ⟨hkilled, hk'⟩
    cases killed with
    | true => exact ⟨⟨rfl, hkilled rfl⟩, hk'⟩
    | false => exact hk'

/-- **A record** of a value that the column takes. -/
theorem clocked_record {key afp : String} {status : KeyStatus} {klass : ToolClass} {result : Json}
    (hstored : (Driver.text result).isSome) (hk : w.clock.kill_at = k) :
    Clocked k (record key afp status klass result : GwProg R X Unit) w := by
  obtain ⟨stored, hstored⟩ := Option.isSome_iff_exists.mp hstored
  unfold record recordInTx
  rw [hstored]
  exact Prog.Ends.of_run_ok rfl hk

/-- What a transaction rolls back leaves the clock as it is. -/
theorem Clocked.transaction {body : GwProg R X α} (h : Clocked k body w) : Clocked k (transaction body) w := by
  refine Prog.Ends.tryCatch (h.bind fun a w' hk => ?_) fun e w' he => ?_
  · exact Prog.Ends.of_run_ok rfl hk
  · exact Prog.Ends.of_run (r := .error e) rfl nofun fun e' he' => by
      cases he'
      exact he

variable {tool : Tool R X} {key afp : String} {args : Json}

/-- **A transactional tool** whose effect succeeds. -/
theorem clocked_perform_tx (htool : tool.klass = .transactional)
    (heffect : ∀ app, ∃ v rows, tool.db_effect key args app = .ok (v, rows) ∧ (Driver.text v).isSome)
    (hk : w.clock.kill_at = k) :
    Clocked k (perform tool key afp args) w := by
  unfold perform
  rw [htool]
  refine (clocked_tick hk).bind fun _ w₁ hk₁ => ?_
  have hbody : Clocked k (do
      let res ← tool.callDbEffect key args
      recordInTx key afp .committed .transactional res
      pure res) w₁ := by
    -- neither the effect nor its record raises
    obtain ⟨v, rows, hv, hstored⟩ := heffect w₁.working.app
    obtain ⟨stored, hstored⟩ := Option.isSome_iff_exists.mp hstored
    have hcall : (tool.callDbEffect key args).run w₁ =
        some (.ok v, { w₁ with working := { w₁.working with app := w₁.working.app ++ rows } }) := by
      simp [Tool.callDbEffect, execute, hv]
    refine Prog.Ends.bind (Q := fun res w₂ => res = v ∧ w₂.clock.kill_at = k)
      (Prog.Ends.of_run_ok hcall ⟨rfl, hk₁⟩) ?_
    rintro res w₂ ⟨rfl, hk₂⟩
    unfold recordInTx
    rw [hstored]
    exact Prog.Ends.of_run_ok rfl hk₂
  refine hbody.transaction.bind fun res w₂ hk₂ => ?_
  exact (clocked_tick hk₂).bind fun _ _ hk₃ => hk₃

/-- **A tool that is safe to run again** whose effect succeeds. -/
theorem clocked_perform_direct (htool : tool.klass = .overlay)
    (heffect : ∀ x, (tool.effect key args).Ends (fun v _ => (Driver.text v).isSome) (fun _ _ => False) x)
    (hk : w.clock.kill_at = k) :
    Clocked k (perform tool key afp args) w := by
  unfold perform
  rw [htool]
  have hcall : (tool.callEffect key args).Ends (fun v w' => (Driver.text v).isSome ∧ w'.clock.kill_at = k)
      (fun e w' => (e = .Crash ∧ k ≠ 0) ∧ w'.clock.kill_at = k) w := by
    refine Prog.Ends.bind (Q := fun _ w' => w'.clock.kill_at = k) (Prog.Ends.of_run_ok rfl hk) fun _ w₁ hk₁ => ?_
    have hzoom : (outside key (tool.effect key args)).Ends
        (fun v w₂ => w₂ = { w₁ with ext := w₂.ext } ∧ (Driver.text v).isSome)
        (fun e w₂ => w₂ = { w₁ with ext := w₂.ext } ∧ ∃ e', e = .raised e' ∧ False) w₁ :=
      Prog.Ends.zoom (fun x w => { w with ext := x }) (heffect w₁.ext) (fun _ _ => rfl) (fun _ _ _ => rfl) fun _ => rfl
    refine hzoom.mono ?_ ?_
    · rintro v w₂ ⟨hw₂, hstored⟩
      rw [hw₂]
      exact ⟨hstored, hk₁⟩
    · rintro e w₂ ⟨-, e', -, hfalse⟩
      exact hfalse.elim
  refine Prog.Ends.bind hcall fun res w₁ ⟨hstored, hk₁⟩ => ?_
  refine (clocked_tick hk₁).bind fun _ w₂ hk₂ => ?_
  exact (clocked_record hstored hk₂).bind fun _ w₃ hk₃ => (clocked_tick hk₃).bind fun _ _ hk₄ => hk₄

/-- **A call** whose row, if there is one, is over. -/
theorem clocked_call {session turn cid : String} {ordinal : Int} (hafp : args_fingerprint args = some afp)
    (hrow : ∀ row, w.working.gw_keys (action_id session turn cid ordinal) = some row → Done args row)
    (hperform : Clocked k (perform tool (action_id session turn cid ordinal) afp args) w)
    (hk : w.clock.kill_at = k) : Clocked k (call tool args session turn ordinal cid) w := by
  unfold call
  rw [hafp]
  refine Prog.Ends.bind (Q := fun o w' => o = w.working.gw_keys (action_id session turn cid ordinal) ∧ w' = w)
    (Prog.Ends.of_run_ok rfl ⟨rfl, rfl⟩) ?_
  rintro o w' ⟨rfl, rfl⟩
  cases hseen : w'.working.gw_keys (action_id session turn cid ordinal) with
  | none => exact hperform
  | some row =>
    obtain ⟨hst, hfp⟩ := hrow row hseen
    have hreplay : (replay tool (action_id session turn cid ordinal) afp args row).run w' =
        some (.ok (some ⟨.dedup_hit, Driver.read row.result, action_id session turn cid ordinal, tool.klass⟩), w') := by
      unfold replay
      rw [if_neg, if_pos hst]
      · rfl
      · rintro ⟨-, hne⟩
        exact hne (hfp.trans hafp)
    refine Prog.Ends.bind (Prog.Ends.of_run_ok hreplay ⟨rfl, hk⟩) (Q := fun o w'' => o.isSome = true ∧
      w''.clock.kill_at = k) ?_
    rintro o w'' ⟨ho, hk'⟩
    cases o with
    | none => cases ho
    | some res => exact hk'

end Clocked

/-- **The charge** only ends early when the clock ends it. -/
theorem charge_clocked {w : World ChargeRow (Outside Unit)} {k : Nat}
    (hkept : Kept str store order turn d₀ x₀ w.committed w.ext) (hidle : w.working = w.committed)
    (hk : w.clock.kill_at = k) :
    Clocked k (call (ChargeTool str (Outside Unit)) (chargeArgs order) "s" turn 0 "c") w := by
  obtain ⟨afp, hafp⟩ : ∃ afp, args_fingerprint (chargeArgs order) = some afp := exists_args_fingerprint rfl
  refine clocked_call hafp ?_ (clocked_perform_tx rfl (fun app => ⟨_, _, rfl, rfl⟩) hk) hk
  intro row hrow
  rw [hidle] at hrow
  exact hkept.charge_row hrow

/-- The receipt's effect succeeds, with a text. -/
theorem receipt_ends (x : Outside Unit) (key : String) :
    ((ReceiptTool str store : Tool ChargeRow (Outside Unit)).effect key (receiptArgs order)).Ends
      (fun v _ => (Driver.text v).isSome) (fun _ _ => False) x := by
  cases hexists : x.files.pathExists (ReceiptTool.final store key) with
  | true =>
    refine Prog.Ends.bind (Q := fun found _ => found = true) (Prog.Ends.of_run_ok rfl hexists) ?_
    rintro found x' rfl
    rfl
  | false =>
    refine Prog.Ends.bind (Q := fun found _ => found = false) (Prog.Ends.of_run_ok rfl hexists) ?_
    rintro found x' rfl
    obtain ⟨fs, n, hpublish, -⟩ := Prog.run_publish (τ := Unit) "FileNotFoundError" (ReceiptTool.tmp store key)
      (ReceiptTool.final store key) (receipt str order) x'
    have hwritten : ((Prog.writeFile (ReceiptTool.tmp store key) (receipt str order) >>= fun _ =>
        Prog.replace "FileNotFoundError" (ReceiptTool.tmp store key) (ReceiptTool.final store key)) >>= fun _ =>
          pure (ReceiptTool.value store key) : Prog Unit (Outside Unit) String Json).Ends
            (fun v _ => (Driver.text v).isSome) (fun _ _ => False) x' :=
      Prog.Ends.bind (Q := fun _ _ => True) (Prog.Ends.of_run_ok hpublish trivial) fun _ _ _ => rfl
    simp only [Prog.writeFile, Prog.bind_assoc] at hwritten
    exact hwritten

/-- **The receipt** only ends early when the clock ends it. -/
theorem receipt_clocked {w : World ChargeRow (Outside Unit)} {k : Nat}
    (hkept : Kept str store order turn d₀ x₀ w.committed w.ext) (hidle : w.working = w.committed)
    (hk : w.clock.kill_at = k) :
    Clocked k (call (ReceiptTool str store) (receiptArgs order) "s" turn 1 "c") w := by
  obtain ⟨afp, hafp⟩ : ∃ afp, args_fingerprint (receiptArgs order) = some afp := exists_args_fingerprint rfl
  refine clocked_call hafp ?_ (clocked_perform_direct rfl (fun x => receipt_ends x _) hk) hk
  intro row hrow
  rw [hidle] at hrow
  exact (hkept.recorded row hrow).1

end AgentTx.Stack
