import AgentTx.Core.Protocol
import AgentTx.Lib.Prog.Files
import AgentTx.Lib.Text
import Mathlib.Data.Set.Function
import Mathlib.Order.Interval.Set.Basic

/-!
# `Core.ExactlyOnce` — every step of a turn takes effect exactly once

Whatever attempts were made at a turn and wherever they ended, the charges and receipts there are those of
the first steps of the plan, each once (`Done`). An attempt goes through the plan: a step that is done answers
with its row or its file, and the first that is not takes effect in one statement, the commit or the rename.

Layout of the proof:
* **What is done** — `Done r`: the charges and receipts are those of the first `r` steps. An action takes effect by
  one statement, and goes from `o` to `o + 1` there (`Done.next`), by the commit (`Done.sql`) or the rename
  (`Done.fs`).
* **The tools and the turn** — each statement keeps `Behind o` until it is the one that takes effect; the loop over
  the plan is an induction on the steps to come.
* **Attempts** — stopped anywhere, in any number, and the clock that kills them.
* **An attempt that nothing kills** — every statement of it returns (`completes_run_turn`), so that some attempt does
  come to the end.

Main results: `steps_exactly_once` and `completes_run_turn`.
-/

namespace AgentTx.Core

open Gateway (WalType)

/-- The row that a step inserts. -/
def Step.charge : Step → Option Charge
  | .sql order_id amount => some ⟨order_id, amount⟩
  | _ => none

section Done

variable (plan : List Step) (key : Nat → String) (store : String)

/-- The receipt of one of the first `r` steps: its name in `committed/`, and its content. -/
def Receipt (r : Nat) (name : String) (bytes : List UInt8) : Prop :=
  ∃ o < r, ∃ order_id, plan[o]? = some (.fs order_id) ∧ name = key o ++ ".receipt" ∧ bytes = content order_id

/-- The first `r` steps have taken effect, each once, and no other has. -/
structure Done (r : Nat) (app : App) (files : FileSys) : Prop where
  le : r ≤ plan.length
  charges : app.charges = (plan.take r).filterMap Step.charge
  keys : ∀ o order_id amount, plan[o]? = some (.sql order_id amount) → ((app.gw_keys (key o)).isSome ↔ o < r)
  receipts : ∀ name bytes, files.read ⟨store ++ "/committed", name⟩ = some bytes ↔ Receipt plan key r name bytes
  no_links : files.NoLinks

/-- `F` holds, and no transaction is open. -/
structure On (F : App → FileSys → Prop) (w : World) : Prop where
  idle : w.tx = none
  fact : F w.app w.files

/-- The steps before `o` are done, and maybe more. -/
def Behind (o : Nat) (app : App) (files : FileSys) : Prop := ∃ r, o ≤ r ∧ Done plan key store r app files

/-- The rules for an attempt: the steps that are done are the first ones, all along. -/
def rules : RelyGuarantee Unit Stmt World :=
  Serial.alone (fun w => Behind plan key store 0 w.app w.files) (fun _ _ _ => True) fun _ _ => True

end Done

variable {plan : List Step} {key : Nat → String} {store : String} {o r : Nat} {app app' : App}
  {files files' : FileSys} {action : Step} {E : Exn → World → Prop}

/-! ## What is done

`Done r` as the tables and the files have it, and how it goes from one step of the plan to the next. -/

theorem Done.behind (h : Done plan key store r app files) (hr : o ≤ r) : Behind plan key store o app files :=
  ⟨r, hr, h⟩

/-- Only what is read in `committed/` matters. -/
theorem Done.read_eq (h : Done plan key store r app files) (hlinks : files'.NoLinks)
    (hread : ∀ name, files'.read ⟨store ++ "/committed", name⟩ = files.read ⟨store ++ "/committed", name⟩) :
    Done plan key store r app files' := by
  refine ⟨h.le, h.charges, h.keys, ?_, hlinks⟩
  intro name bytes
  rw [hread]
  exact h.receipts name bytes

/-- A temporary file is no receipt. -/
theorem Done.tmp {k : String} (h : Done plan key store r app files)
    (hfs : files.OnlyAt (Gateway.ReceiptTool.tmp store k) files') : Done plan key store r app files' :=
  h.read_eq hfs.no_links fun name => hfs.read (Gateway.ReceiptTool.ne_tmp store k name)

/-- Nor are those that the end of an attempt has left. -/
theorem Done.leaves (h : Done plan key store r app files) (hfs : Leaves store files files') :
    Done plan key store r app files' := by
  refine h.read_eq hfs.no_links fun name => ?_
  have hdir : store ++ "/committed" ≠ store ++ "/overlay" := by
    intro heq
    have hlist := congrArg String.toList heq
    simp only [String.toList_append] at hlist
    exact absurd (List.append_cancel_left hlist) (by decide)
  obtain ⟨hsame, hdata⟩ := hfs.elsewhere ⟨store ++ "/committed", name⟩ hdir
  unfold FileSys.read
  rw [hsame]
  cases hn : files.dir ⟨store ++ "/committed", name⟩ with
  | none => rfl
  | some n => simp [hdata n hn]

/-- A receipt is there when its action is done. -/
theorem Done.exists_iff {order_id : String} (hkey : Set.InjOn key (Set.Iio plan.length))
    (h : Done plan key store r app files) (hget : plan[o]? = some (.fs order_id)) :
    (files.read (Gateway.ReceiptTool.final store (key o))).isSome ↔ o < r := by
  have hlt : o < plan.length := (List.getElem?_eq_some_iff.mp hget).1
  constructor
  · intro hsome
    obtain ⟨bytes, hread⟩ := Option.isSome_iff_exists.mp hsome
    obtain ⟨i, hi, -, -, hname, -⟩ := (h.receipts _ bytes).mp hread
    have hio : o = i := hkey hlt (Nat.lt_of_lt_of_le hi h.le) ((String.append_left_inj ".receipt").mp hname)
    omega
  · intro hor
    rw [Gateway.ReceiptTool.final, (h.receipts _ _).mpr ⟨o, hor, order_id, hget, rfl, rfl⟩]
    rfl

/-- **The next action takes effect.** -/
theorem Done.next (h : Done plan key store o app files) (hget : plan[o]? = some action)
    (hcharges : app'.charges = app.charges ++ action.charge.toList)
    (hkeys : ∀ i order_id amount, plan[i]? = some (.sql order_id amount) →
      ((app'.gw_keys (key i)).isSome ↔ (app.gw_keys (key i)).isSome ∨ i = o))
    (hreceipts : ∀ name bytes, files'.read ⟨store ++ "/committed", name⟩ = some bytes ↔
      files.read ⟨store ++ "/committed", name⟩ = some bytes ∨
        ∃ order_id, action = .fs order_id ∧ name = key o ++ ".receipt" ∧ bytes = content order_id)
    (hlinks : files'.NoLinks) : Done plan key store (o + 1) app' files' := by
  have hlt : o < plan.length := (List.getElem?_eq_some_iff.mp hget).1
  refine ⟨hlt, ?_, ?_, ?_, hlinks⟩
  · -- the charges of one position more
    rw [hcharges, h.charges, List.take_add_one, hget, List.filterMap_append]
    cases action <;> rfl
  · intro i order_id amount hi
    -- only the key of this position is new
    rw [hkeys i order_id amount hi, h.keys i order_id amount hi]
    omega
  · -- a receipt there is one of the positions before, or the new one
    intro name bytes
    rw [hreceipts, h.receipts]
    constructor
    · rintro (⟨i, hi, hreceipt⟩ | ⟨order_id, rfl, hreceipt⟩)
      · exact ⟨i, by omega, hreceipt⟩
      · exact ⟨o, by omega, order_id, hget, hreceipt⟩
    · rintro ⟨i, hi, order_id, hi', hreceipt⟩
      by_cases hio : i = o
      · subst hio
        rw [hget] at hi'
        cases hi'
        exact Or.inr ⟨order_id, rfl, hreceipt⟩
      · exact Or.inl ⟨i, by omega, order_id, hi', hreceipt⟩

/-- The next action has no effect. -/
theorem Done.other {tool : String} (h : Done plan key store o app files) (hget : plan[o]? = some (.other tool)) :
    Done plan key store (o + 1) app files := by
  refine h.next hget (List.append_nil _).symm ?_ ?_ h.no_links
  · intro i order_id amount hi
    have hne : i ≠ o := by
      rintro rfl
      rw [hget] at hi
      cases hi
    simp [hne]
  · intro name bytes
    simp

/-- **A charge is committed**, with its key. -/
theorem Done.sql {order_id result : String} {amount : Int} (hkey : Set.InjOn key (Set.Iio plan.length))
    (h : Done plan key store o app files) (hget : plan[o]? = some (.sql order_id amount)) :
    Done plan key store (o + 1)
      ⟨app.charges ++ [⟨order_id, amount⟩], Function.update app.gw_keys (key o) (some result)⟩ files := by
  have hlt : o < plan.length := (List.getElem?_eq_some_iff.mp hget).1
  refine h.next hget rfl ?_ ?_ h.no_links
  · intro i order_id' amount' hi
    by_cases hio : i = o
    · subst hio
      simp
    · have hilt : i < plan.length := (List.getElem?_eq_some_iff.mp hi).1
      have hne : key i ≠ key o := fun heq => hio (hkey hilt hlt heq)
      simp [Function.update_of_ne hne, hio]
  · intro name bytes
    simp

/-- **A receipt is renamed** to its name. -/
theorem Done.fs {order_id : String} (hkey : Set.InjOn key (Set.Iio plan.length))
    (h : Done plan key store o app files) (hget : plan[o]? = some (.fs order_id))
    (hread : files.read (Gateway.ReceiptTool.tmp store (key o)) = some (content order_id))
    (hreplace : files.replace (Gateway.ReceiptTool.tmp store (key o)) (Gateway.ReceiptTool.final store (key o)) =
      some files') :
    Done plan key store (o + 1) app files' := by
  refine h.next hget (List.append_nil _).symm ?_ ?_ (h.no_links.replace hreplace)
  · intro i order_id' amount hi
    -- a receipt is not a charge
    have hne : i ≠ o := by
      rintro rfl
      rw [hget] at hi
      cases hi
    simp [hne]
  · intro name bytes
    by_cases hname : name = key o ++ ".receipt"
    · -- its name was free
      have hfree : files.read ⟨store ++ "/committed", key o ++ ".receipt"⟩ = none := by
        cases hold : files.read ⟨store ++ "/committed", key o ++ ".receipt"⟩ with
        | none => rfl
        | some old =>
          have hlt := (h.exists_iff hkey hget).mp (Option.isSome_iff_exists.mpr ⟨old, hold⟩)
          exact absurd hlt (Nat.lt_irrefl o)
      have hself : files'.read ⟨store ++ "/committed", key o ++ ".receipt"⟩ = some (content order_id) :=
        (FileSys.read_replace_self hreplace).trans hread
      subst hname
      rw [hself, hfree]
      simp [eq_comm]
    · have hother : files'.read ⟨store ++ "/committed", name⟩ = files.read ⟨store ++ "/committed", name⟩ :=
        FileSys.read_replace_of_ne hreplace (Gateway.ReceiptTool.ne_tmp store (key o) name)
          fun hp => hname (congrArg FsPath.name hp)
      rw [hother]
      simp [hname]

/-! ## Statements

What each statement of the runtime does to it: most of them nothing. -/

section Statements

variable {F G : App → FileSys → Prop}

theorem stable (P : World → Prop) : (rules plan key store).Stable () P := Serial.stable_alone P

theorem tick_spec : (rules plan key store).Triple () (On F) tick (fun _ => On F) fun _ _ => True := by
  refine RelyGuarantee.Triple.bind (Q := fun _ => On F) ?_ fun killed => ?_
  · refine RelyGuarantee.Triple.step (stable _) fun w killed w' hw hF _ hact => ?_
    cases hact
    exact ⟨trivial, hw, hF.idle, hF.fact⟩
  · cases killed with
    | true => exact fun _ _ _ => trivial
    | false => exact fun _ _ hF => hF

/-- The WAL says nothing of what is done. -/
theorem append_spec (type : WalType) (turn k : String) :
    (rules plan key store).Triple () (On F) (append type turn k) (fun _ => On F) fun _ _ => True := by
  refine RelyGuarantee.Triple.modify (stable _) ?_
  intro w hw hF _
  exact ⟨trivial, hw, hF.idle, hF.fact⟩

theorem appendUnlessHas_spec (type : WalType) (turn : String) :
    (rules plan key store).Triple () (On F) (appendUnlessHas turn type) (fun _ => On F) fun _ _ => True := by
  refine RelyGuarantee.Triple.bind (Q := fun _ => On F) ?_ fun found => ?_
  · exact RelyGuarantee.Triple.read (stable _) (fun _ => trivial) fun _ _ hF _ => hF
  · cases found with
    | true => exact fun _ _ hF => hF
    | false => exact append_spec type turn ""

/-- The open transaction has made `u` of the tables. -/
structure Pending (u : App → App) (F : App → FileSys → Prop) (w : World) : Prop where
  tx : w.tx = some (u w.app)
  fact : F w.app w.files

theorem beginTx_spec :
    (rules plan key store).Triple () (On F) beginTx (fun _ => Pending id F) fun _ _ => True := by
  refine RelyGuarantee.Triple.modify (stable _) ?_
  intro w hw hF _
  refine ⟨trivial, hw, ?_, hF.fact⟩
  show some w.tables = some w.app
  rw [World.tables, hF.idle]
  rfl

theorem insert_spec {u u' : App → App} {f : App → Except Exn App} (h : ∀ a b, f (u a) = .ok b → b = u' a) :
    (rules plan key store).Triple () (Pending u F) (insert f) (fun _ => Pending u' F) fun _ _ => True := by
  refine RelyGuarantee.Triple.bind (Q := fun r w => r = .ok () → Pending u' F w) ?_ fun r => ?_
  · refine RelyGuarantee.Triple.step (stable _) fun w r w' hw hF _ hact => ?_
    have htables : w.tables = u w.app := by
      rw [World.tables, hF.tx]
      rfl
    rw [htables] at hact
    cases hres : f (u w.app) with
    | error e =>
      rw [hres] at hact
      cases hact
      exact ⟨trivial, hw, nofun⟩
    | ok b =>
      rw [hres] at hact
      cases hact
      have hset : w.setTables b = { w with tx := some b } := by
        rw [World.setTables, hF.tx]
      rw [hset]
      refine ⟨trivial, hw, fun _ => ⟨?_, hF.fact⟩⟩
      exact congrArg some (h w.app b hres)
  · exact .ofExcept (fun _ hr _ _ hF => hF hr) fun _ _ _ _ _ => trivial

theorem commit_spec {u : App → App} (h : ∀ a fs, F a fs → G (u a) fs ∧ Behind plan key store 0 (u a) fs) :
    (rules plan key store).Triple () (Pending u F) commit (fun _ => On G) fun _ _ => True := by
  refine RelyGuarantee.Triple.modify (stable _) ?_
  intro w hw hF _
  have htables : w.tables = u w.app := by
    rw [World.tables, hF.tx]
    rfl
  obtain ⟨hG, hbehind⟩ := h w.app w.files hF.fact
  refine ⟨trivial, ?_, rfl, ?_⟩
  · show Behind plan key store 0 w.tables w.files
    rw [htables]
    exact hbehind
  · show G w.tables w.files
    rw [htables]
    exact hG

end Statements

/-! ## The tools

A tool looks first whether its action is done; only if it is not does it come to the statement that takes effect. -/

section Tools

variable (hkey : Set.InjOn key (Set.Iio plan.length))

include hkey

/-- **`sql_charge`.** -/
theorem sql_charge_spec {order_id : String} {amount : Int} (hget : plan[o]? = some (.sql order_id amount)) :
    (rules plan key store).Triple () (On (Behind plan key store o)) (sql_charge (key o) order_id amount)
      (fun _ => On (Behind plan key store (o + 1))) fun _ _ => True := by
  let due := Done plan key store o
  let charged (a : App) : App := { a with charges := a.charges ++ [⟨order_id, amount⟩] }
  let recorded (a : App) : App :=
    ⟨a.charges ++ [⟨order_id, amount⟩], Function.update a.gw_keys (key o) (some ("charged:" ++ order_id))⟩
  have hseen : (rules plan key store).Triple () (On (Behind plan key store o)) (seen (key o))
      (fun found w => (found.isSome → On (Behind plan key store (o + 1)) w) ∧ (found = none → On due w))
      fun _ _ => True := by
    refine RelyGuarantee.Triple.read (stable _) (fun _ => trivial) ?_
    rintro w - ⟨hidle, r, hr, hdone⟩ -
    have hrow := hdone.keys o order_id amount hget
    have htables : w.tables = w.app := by
      rw [World.tables, hidle]
      rfl
    rw [htables]
    refine ⟨fun hsome => ⟨hidle, hdone.behind (hrow.mp hsome)⟩, fun hnone => ⟨hidle, ?_⟩⟩
    rw [hnone] at hrow
    -- no row: the position is the first that is not done
    have hro : r = o := by
      by_contra hne
      exact Bool.noConfusion (hrow.mpr (by omega))
    subst hro
    exact hdone
  refine hseen.bind fun found => ?_
  cases found with
  -- a row with its result: nothing to do
  | some result => exact fun _ _ h => h.1 rfl
  | none =>
    intro w hw hdue
    refine RelyGuarantee.Triple.bind tick_spec (fun _ => beginTx_spec.bind fun _ => ?_) w hw (hdue.2 rfl)
    refine RelyGuarantee.Triple.bind (Q := fun _ => Pending charged due) ?_ fun _ => ?_
    · refine insert_spec fun a b hins => ?_
      unfold App.insertCharge at hins
      split_ifs at hins
      cases hins
      rfl
    refine RelyGuarantee.Triple.bind (Q := fun _ => Pending recorded due) ?_ fun _ => ?_
    · refine insert_spec fun a b hins => ?_
      unfold App.insertKey at hins
      split_ifs at hins
      cases hins
      rfl
    refine RelyGuarantee.Triple.bind (Q := fun _ => On (Behind plan key store (o + 1))) ?_ fun _ => ?_
    · -- charge and row become durable at once
      refine commit_spec fun a fs hdue => ?_
      have hdone : Done plan key store (o + 1) (recorded a) fs := hdue.sql hkey hget
      exact ⟨hdone.behind (Nat.le_refl _), hdone.behind (Nat.zero_le _)⟩
    exact tick_spec.bind fun _ => fun _ _ h => h

/-- **`fs_receipt`.** -/
theorem fs_receipt_spec {order_id : String} (hget : plan[o]? = some (.fs order_id)) :
    (rules plan key store).Triple () (On (Behind plan key store o)) (fs_receipt store (key o) order_id)
      (fun _ => On (Behind plan key store (o + 1))) fun _ _ => True := by
  let tmp := Gateway.ReceiptTool.tmp store (key o)
  let final := Gateway.ReceiptTool.final store (key o)
  have hexists : (rules plan key store).Triple () (On (Behind plan key store o))
      (Prog.pathExists final : CoreProg Bool)
      (fun found => On fun a fs => if found then Behind plan key store (o + 1) a fs else Done plan key store o a fs)
      fun _ _ => True := by
    refine RelyGuarantee.Triple.read (stable _) (fun _ => trivial) ?_
    rintro w - ⟨hidle, r, hr, hdone⟩ -
    refine ⟨hidle, ?_⟩
    have hiff := hdone.exists_iff hkey hget
    rw [FileSys.read, Option.isSome_map] at hiff
    show if w.files.pathExists final then _ else _
    split_ifs with hfound
    · exact hdone.behind (hiff.mp hfound)
    · have hro : r = o := by
        by_contra hne
        exact hfound (hiff.mpr (by omega))
      subst hro
      exact hdone
  refine hexists.bind fun found => ?_
  cases found with
  | true => exact fun _ _ h => h
  | false =>
    have hwrite : (rules plan key store).Triple () (On (Done plan key store o))
        (Prog.writeFile tmp (content order_id) : CoreProg Unit)
        (fun _ w => On (Done plan key store o) w ∧ w.files.read tmp = some (content order_id)) fun _ _ => True := by
      refine RelyGuarantee.Triple.writeFile (stable _) (fun _ _ => stable _) (fun w hw => hw.fact.no_links) ?_
      intro c w fs _ hw hfs
      have hdone : Done plan key store o w.app fs := hw.fact.tmp hfs
      exact ⟨trivial, hdone.behind (Nat.zero_le _), hw.idle, hdone⟩
    refine RelyGuarantee.Triple.bind (Q := fun _ => On fun a fs =>
      Done plan key store o a fs ∧ fs.read tmp = some (content order_id)) ?_ fun _ => ?_
    · exact hwrite.post fun _ w _ hw => ⟨hw.1.idle, hw.1.fact, hw.2⟩
    refine tick_spec.bind fun _ => ?_
    -- the rename is the effect
    refine RelyGuarantee.Triple.bind (Q := fun _ => On (Behind plan key store (o + 1))) ?_ fun _ => ?_
    · refine RelyGuarantee.Triple.replace (stable _) (fun _ _ _ _ => ⟨trivial, trivial⟩) ?_
      rintro w fs - ⟨hidle, hdone, hread⟩ - hreplace
      have hdone' := hdone.fs hkey hget hread hreplace
      exact ⟨trivial, hdone'.behind (Nat.zero_le _), hidle, hdone'.behind (Nat.le_refl _)⟩
    exact tick_spec.bind fun _ => fun _ _ h => h

theorem runTool_spec (hget : plan[o]? = some action) :
    (rules plan key store).Triple () (On (Behind plan key store o)) (runTool store (key o) action)
      (fun _ => On (Behind plan key store (o + 1))) fun _ _ => True := by
  cases action with
  | sql order_id amount => exact (sql_charge_spec hkey hget).bind fun _ => fun _ _ h => h
  | fs order_id => exact (fs_receipt_spec hkey hget).bind fun _ => fun _ _ h => h
  | other tool =>
    rintro w - ⟨hidle, r, hr, hdone⟩
    refine ⟨hidle, ?_⟩
    by_cases hro : r = o
    · subst hro
      exact (hdone.other hget).behind (Nat.le_refl _)
    · exact hdone.behind (by omega)

end Tools

/-! ## A turn

By induction on the steps to come, with the number of the next one in the assertion. -/

section Turn

variable {str : Step → String} {turn : String} (hkey : Set.InjOn key (Set.Iio plan.length))
  (hid : ∀ o action, plan[o]? = some action → action_key str turn action o = key o)

include hkey hid

/-- **The loop**, by induction on the steps to come. -/
theorem runSteps_spec : ∀ (rest : List Step) (o : Nat), plan.drop o = rest →
    (rules plan key store).Triple () (On (Behind plan key store o)) (runSteps str store turn o rest)
      (fun _ => On (Behind plan key store plan.length)) fun _ _ => True
  | [], o, hrest => by
      rintro w - ⟨hidle, r, hr, hdone⟩
      have hle : plan.length ≤ o := List.drop_eq_nil_iff.mp hrest
      exact ⟨hidle, hdone.behind (Nat.le_trans hle hr)⟩
  | action :: rest, o, hrest => by
      have hget : plan[o]? = some action := by
        rw [← List.head?_drop, hrest]
        rfl
      have htail : plan.drop (o + 1) = rest := by
        rw [← List.tail_drop, hrest]
        rfl
      unfold runSteps
      rw [hid o action hget]
      refine (append_spec _ _ _).bind fun _ => tick_spec.bind fun _ => ?_
      refine (runTool_spec hkey hget).bind fun _ => (append_spec _ _ _).bind fun _ => tick_spec.bind fun _ => ?_
      exact runSteps_spec rest (o + 1) htail

/-- **`Coordinator.run_turn`.** -/
theorem run_turn_spec :
    (rules plan key store).Triple () (On (Behind plan key store 0)) (run_turn str store turn plan)
      (fun _ => On (Behind plan key store plan.length)) fun _ _ => True := by
  unfold run_turn
  refine (appendUnlessHas_spec _ _).bind fun _ => tick_spec.bind fun _ => ?_
  refine (runSteps_spec hkey hid plan 0 rfl).bind fun _ => ?_
  exact (appendUnlessHas_spec _ _).bind fun _ => tick_spec

end Turn

/-! ## Attempts

An attempt starts from whatever the last one has left, so that its precondition is the invariant itself. -/

/-- The key of the step at position `o`. -/
def keyOf (str : Step → String) (turn : String) (plan : List Step) (o : Nat) : String :=
  (plan[o]?).elim "" fun action => action_key str turn action o

/-- `sha256` does not collide on what identifies the steps of the plan. -/
def NoCollision (str : Step → String) (turn : String) (plan : List Step) : Prop :=
  Set.InjOn sha256 {text | ∃ o action, plan[o]? = some action ∧ text = action_text str turn action o}

section Keys

variable {str : Step → String} {turn : String}

/-- What identifies a step tells its position. -/
theorem action_text_injective {action action' : Step} {i j : Nat}
    (h : action_text str turn action i = action_text str turn action' j) : i = j := by
  have hlist := congrArg String.toList h
  unfold action_text at hlist
  simp only [String.toList_append, List.append_assoc] at hlist
  have hrest := List.append_cancel_left (List.append_cancel_left hlist)
  have hbar : '|'.isDigit = false := rfl
  obtain ⟨hnum, -⟩ := Text.split_first (Text.notMem_nat hbar i) (Text.notMem_nat hbar j) hrest
  exact Text.nat_injective (String.toList_inj.mp hnum)

theorem keyOf_of_get (hget : plan[o]? = some action) : action_key str turn action o = keyOf str turn plan o := by
  unfold keyOf
  rw [hget]
  rfl

theorem keyOf_injOn (hsha : NoCollision str turn plan) :
    Set.InjOn (keyOf str turn plan) (Set.Iio plan.length) := by
  intro i hi j hj heq
  have hgeti : plan[i]? = some plan[i] := List.getElem?_eq_getElem hi
  have hgetj : plan[j]? = some plan[j] := List.getElem?_eq_getElem hj
  rw [← keyOf_of_get hgeti, ← keyOf_of_get hgetj] at heq
  exact action_text_injective (hsha ⟨i, _, hgeti, rfl⟩ ⟨j, _, hgetj, rfl⟩ heq)

end Keys

/-- A fresh store. -/
structure Fresh (store : String) (w : World) : Prop where
  idle : w.tx = none
  no_charges : w.app.charges = []
  no_keys : ∀ k, w.app.gw_keys k = none
  no_receipts : ∀ name, w.files.dir ⟨store ++ "/committed", name⟩ = none
  no_links : w.files.NoLinks

/-- Nothing is done yet. -/
theorem Fresh.done {w : World} (h : Fresh store w) : Done plan key store 0 w.app w.files := by
  refine ⟨Nat.zero_le _, h.no_charges, ?_, ?_, h.no_links⟩
  · intro o order_id amount _
    simp [h.no_keys]
  · intro name bytes
    unfold FileSys.read
    rw [h.no_receipts]
    constructor
    · rintro ⟨⟩
    · rintro ⟨o, ho, -⟩
      exact absurd ho (Nat.not_lt_zero o)

/-- **In every state that is reached, the first steps are done**, and all of them when an attempt has
    returned. -/
theorem done_of_reachable {str : Step → String} {turn : String} (hsha : NoCollision str turn plan) {w₀ : World}
    (h₀ : Fresh store w₀) {c : Serial.State Stmt World Exn Unit}
    (hc : (attempts str store turn plan).ReachableWhen (fun a w => Leaves store w.files a.files) (· = w₀) c) :
    (∃ r, Done plan (keyOf str turn plan) store r c.shared.app c.shared.files) ∧
    (c.proc = some (.ret ()) →
      Done plan (keyOf str turn plan) store plan.length c.shared.app c.shared.files) := by
  let key := keyOf str turn plan
  let rest : World → Prop := On (Behind plan key store 0)
  have hturn : (rules plan key store).Triple () rest (run_turn str store turn plan)
      (fun _ => On (Behind plan key store plan.length)) fun _ _ => True :=
    run_turn_spec (keyOf_injOn hsha) fun o action hget => keyOf_of_get hget
  have hmain : ∀ a, (rules plan key store).Triple () rest ((attempts str store turn plan).main a)
      (fun _ => On (Behind plan key store plan.length)) fun _ _ => True := by
    intro a
    show (rules plan key store).Triple () rest (if a.recovers then _ else _) _ _
    split_ifs
    · exact hturn
    · exact hturn
  have hstate : Serial.StateOk (rules plan key store) rest (fun _ => On (Behind plan key store plan.length))
      (fun _ _ => True) c := by
    refine Serial.ReachableWhen.stateOk hmain ?_ ?_ (fun _ _ => trivial) ?_ hc
    · -- a new attempt finds what is durable, perhaps less of the files
      rintro a w ⟨r, hr, hdone⟩ hrest hleaves
      have hdone' := hdone.leaves hleaves
      exact ⟨⟨r, hr, hdone'⟩, hrest.idle, r, hr, hdone'⟩
    · intro w hw
      exact ⟨hw, rfl, hw⟩
    · rintro w rfl
      have hdone : Done plan key store 0 w.app w.files := h₀.done
      exact ⟨hdone.behind (Nat.le_refl 0), h₀.idle, hdone.behind (Nat.le_refl 0)⟩
  constructor
  · obtain ⟨r, -, hdone⟩ := hstate.1
    exact ⟨r, hdone⟩
  · intro hret
    have hpost := hstate.2
    rw [hret] at hpost
    obtain ⟨r, hr, hdone⟩ := (hpost : On (Behind plan key store plan.length) c.shared).fact
    -- an attempt that returns is behind no position
    have hlast : r = plan.length := Nat.le_antisymm hdone.le hr
    exact hlast ▸ hdone

/-- **Every step of a turn takes effect exactly once**, in any number of attempts that end anywhere, each
    leaving its temporary files in any state. In every state that is reached, the charges and the receipts are
    those of the first steps of the plan, each once. When an attempt has returned they are those of the whole
    plan: a row for each charge, in order, and for each receipt a file of its own name, whose whole content is
    the line with its order. -/
theorem steps_exactly_once (str : Step → String) (store turn : String) (plan : List Step)
    (hsha : NoCollision str turn plan) (w₀ : World) (h₀ : Fresh store w₀)
    (c : Serial.State Stmt World Exn Unit)
    (hc : (attempts str store turn plan).ReachableWhen (fun a w => Leaves store w.files a.files) (· = w₀) c) :
    let key := keyOf str turn plan
    Set.InjOn key (Set.Iio plan.length) ∧
    (∃ r, Done plan key store r c.shared.app c.shared.files) ∧
    (c.proc = some (.ret ()) →
      c.shared.app.charges = plan.filterMap Step.charge ∧
      ∀ name bytes, c.shared.files.read ⟨store ++ "/committed", name⟩ = some bytes ↔
        ∃ o order_id, plan[o]? = some (.fs order_id) ∧ name = key o ++ ".receipt" ∧
          bytes = Sha256.encode (order_id ++ "\n")) := by
  intro key
  obtain ⟨hfirst, hall⟩ := done_of_reachable hsha h₀ hc
  refine ⟨keyOf_injOn hsha, hfirst, ?_⟩
  intro hret
  have hdone := hall hret
  constructor
  · rw [hdone.charges, List.take_length]
  · intro name bytes
    rw [hdone.receipts]
    constructor
    · rintro ⟨o, -, order_id, hreceipt⟩
      exact ⟨o, order_id, hreceipt⟩
    · rintro ⟨o, order_id, hget, hreceipt⟩
      exact ⟨o, (List.getElem?_eq_some_iff.mp hget).1, order_id, hget, hreceipt⟩

/-! ## An attempt that nothing kills

Every statement of it can be executed and none raises, whatever earlier attempts have left. -/

/-- The amount of a charge is an integer of SQLite. -/
def Step.Storable : Step → Prop
  | .sql _ amount => -9223372036854775808 ≤ amount ∧ amount < 9223372036854775808
  | _ => True

/-- No transaction is open, and the clock does not kill. -/
structure Idle (w : World) : Prop where
  tx : w.tx = none
  kill_at : w.clock.kill_at = 0

/-- The program returns, from wherever it is idle. -/
def Completes {α : Type} (p : CoreProg α) : Prop :=
  ∀ w, Idle w → ∃ a w', p.run w = some (.ok a, w') ∧ Idle w'

section Completes

variable {α β : Type} {p : CoreProg α} {f : α → CoreProg β}

theorem completes_pure (a : α) : Completes (pure a : CoreProg α) := fun w hw => ⟨a, w, rfl, hw⟩

theorem Completes.bind (hp : Completes p) (hf : ∀ a, Completes (f a)) : Completes (p >>= f) := by
  intro w hw
  obtain ⟨a, w', hrun, hw'⟩ := hp w hw
  obtain ⟨b, w'', hrest, hw''⟩ := hf a w' hw'
  refine ⟨b, w'', ?_, hw''⟩
  rw [Prog.run_bind, hrun]
  exact hrest

theorem run_tick {w : World} (h : w.clock.kill_at = 0) :
    tick.run w = some (.ok (), { w with clock := { w.clock with n := w.clock.n + 1 } }) := by
  simp [tick, h]

theorem completes_tick : Completes tick := fun w hw =>
  ⟨(), { w with clock := { w.clock with n := w.clock.n + 1 } }, run_tick hw.kill_at, hw.tx, hw.kill_at⟩

theorem run_insert {f : App → Except Exn App} {w : World} {a : App} (h : f w.tables = .ok a) :
    (insert f).run w = some (.ok (), w.setTables a) := by
  simp [insert, h]

theorem completes_append (type : WalType) (turn k : String) : Completes (append type turn k) :=
  fun w hw => ⟨(), { w with wal := w.wal ++ [⟨type, turn, k⟩] }, rfl, hw.tx, hw.kill_at⟩

theorem completes_appendUnlessHas (type : WalType) (turn : String) : Completes (appendUnlessHas turn type) := by
  refine Completes.bind (fun w hw => ⟨_, w, rfl, hw⟩) fun found => ?_
  cases found with
  | true => exact completes_pure ()
  | false => exact completes_append type turn ""

theorem completes_sql_charge {k order_id : String} {amount : Int} (h : (Step.sql order_id amount).Storable) :
    Completes (sql_charge k order_id amount) := by
  rintro ⟨wal, app, tx, files, n, kill_at⟩ ⟨rfl, rfl⟩
  have hseen : (seen k).run ⟨wal, app, none, files, n, 0⟩ =
      some (.ok (app.gw_keys k), ⟨wal, app, none, files, n, 0⟩) := rfl
  cases hrow : app.gw_keys k with
  | some result =>
    refine ⟨result, ⟨wal, app, none, files, n, 0⟩, ?_, rfl, rfl⟩
    simp [sql_charge, hseen, hrow]
  | none =>
    let charged : App := { app with charges := app.charges ++ [⟨order_id, amount⟩] }
    let recorded : App := { charged with
      gw_keys := Function.update app.gw_keys k (some ("charged:" ++ order_id)) }
    let begun (a : App) : World := ⟨wal, app, some a, files, n + 1, 0⟩
    have hcharge : (insert (App.insertCharge order_id amount)).run (begun app) = some (.ok (), begun charged) :=
      run_insert (if_pos h)
    have hrecord : (insert (App.insertKey k ("charged:" ++ order_id))).run (begun charged) =
        some (.ok (), begun recorded) := by
      -- the key is not taken, so the insert does not fail
      have hfree : ¬ ((begun charged).tables.gw_keys k).isSome := by
        show ¬ (app.gw_keys k).isSome
        simp [hrow]
      exact run_insert (if_neg hfree)
    refine ⟨"charged:" ++ order_id, ⟨wal, recorded, none, files, n + 2, 0⟩, ?_, rfl, rfl⟩
    have htick : ∀ a n, tick.run ⟨wal, a, none, files, n, 0⟩ = some (.ok (), ⟨wal, a, none, files, n + 1, 0⟩) :=
      fun a n => run_tick rfl
    have hbegin : beginTx.run ⟨wal, app, none, files, n + 1, 0⟩ = some (.ok (), begun app) := rfl
    have hcommit : commit.run (begun recorded) = some (.ok (), ⟨wal, recorded, none, files, n + 1, 0⟩) := rfl
    simp [sql_charge, hseen, hrow, htick, hbegin, hcharge, hrecord, hcommit]

theorem completes_fs_receipt (store k order_id : String) : Completes (fs_receipt store k order_id) := by
  intro w hw
  let tmp := Gateway.ReceiptTool.tmp store k
  let final := Gateway.ReceiptTool.final store k
  have hexists : (Prog.pathExists final : CoreProg Bool).run w = some (.ok (w.files.pathExists final), w) := rfl
  cases hfound : w.files.pathExists final with
  | true =>
    rw [hfound] at hexists
    refine ⟨Gateway.ReceiptTool.path store k, w, ?_, hw⟩
    simp [fs_receipt, hexists, final]
  | false =>
    -- the file that is written is there to be renamed
    obtain ⟨fs, hwrite, hdir, -⟩ := Prog.run_writeFile (τ := Stmt) (ε := Exn) tmp (content order_id) w
    let w₁ : World := { w with files := fs, clock := { w.clock with n := w.clock.n + 1 } }
    have htick : tick.run (HasFiles.setFiles Stmt w fs) = some (.ok (), w₁) :=
      run_tick (w := HasFiles.setFiles Stmt w fs) hw.kill_at
    obtain ⟨fs', hreplace⟩ : ∃ fs', fs.replace tmp final = some fs' := by
      cases hr : fs.replace tmp final with
      | some fs' => exact ⟨fs', rfl⟩
      | none =>
        have hmissing := FileSys.replace_eq_none.mp hr
        rw [hdir, FileSys.openTrunc_dir_self] at hmissing
        cases hmissing
    let w₂ : World := { w₁ with files := fs' }
    have hrename : (Prog.replace .FileNotFoundError tmp final : CoreProg Unit).run w₁ = some (.ok (), w₂) :=
      Prog.run_replace hreplace _
    obtain ⟨⟨⟩, w₃, htick', hw₃⟩ := completes_tick w₂ ⟨hw.tx, hw.kill_at⟩
    rw [hfound] at hexists
    refine ⟨Gateway.ReceiptTool.path store k, w₃, ?_, hw₃⟩
    simp [fs_receipt, hexists, hwrite, htick, hrename, htick', tmp, final]

theorem completes_runTool {store k : String} (h : action.Storable) : Completes (runTool store k action) := by
  cases action with
  | sql order_id amount => exact (completes_sql_charge h).bind fun _ => completes_pure ()
  | fs order_id => exact (completes_fs_receipt store k order_id).bind fun _ => completes_pure ()
  | other tool => exact completes_pure ()

variable {str : Step → String} {turn : String}

theorem completes_runSteps : ∀ (rest : List Step) (o : Nat), (∀ action ∈ rest, action.Storable) →
    Completes (runSteps str store turn o rest)
  | [], _, _ => completes_pure ()
  | action :: rest, o, h => by
      unfold runSteps
      have hrest : Completes (runSteps str store turn (o + 1) rest) :=
        completes_runSteps rest (o + 1) fun action' h' => h action' (List.mem_cons_of_mem _ h')
      refine (completes_append _ _ _).bind fun _ => completes_tick.bind fun _ => ?_
      refine (completes_runTool (h action List.mem_cons_self)).bind fun _ => ?_
      exact (completes_append _ _ _).bind fun _ => completes_tick.bind fun _ => hrest

/-- **An attempt that nothing kills returns**, whatever those before it have left. -/
theorem completes_run_turn (h : ∀ action ∈ plan, action.Storable) : Completes (run_turn str store turn plan) := by
  unfold run_turn
  refine (completes_appendUnlessHas _ _).bind fun _ => completes_tick.bind fun _ => ?_
  refine (completes_runSteps plan 0 h).bind fun _ => ?_
  exact (completes_appendUnlessHas _ _).bind fun _ => completes_tick

end Completes

/-! The plan of `gate2/fault_audit.py`, whose first attempt is killed at its first tick. -/

def auditPlan : List Step := [.sql "ORD" 100, .fs "ORD"]

/-- `str()` of the arguments of a step. -/
def strArgs : Step → String
  | .sql order_id amount => "('" ++ order_id ++ "', " ++ toString amount ++ ")"
  | .fs order_id => "('" ++ order_id ++ "',)"
  | .other _ => "()"

def untouched : World := ⟨[], ⟨[], fun _ => none⟩, none, .empty, 0, 0⟩

theorem noLinks_empty : FileSys.empty.NoLinks := by
  intro p q n hp
  cases hp

theorem fresh_untouched : Fresh "/s" untouched :=
  ⟨rfl, rfl, fun _ => rfl, fun _ => rfl, noLinks_empty⟩

theorem auditPlan_steps {i : Nat} {action : Step} (h : auditPlan[i]? = some action) :
    i = 0 ∧ action = .sql "ORD" 100 ∨ i = 1 ∧ action = .fs "ORD" := by
  unfold auditPlan at h
  rcases i with _ | _ | i
  · cases h
    simp
  · cases h
    simp
  · cases h

theorem noCollision_auditPlan : NoCollision strArgs "T1" auditPlan := by
  have hne : action_key strArgs "T1" (.sql "ORD" 100) 0 ≠ action_key strArgs "T1" (.fs "ORD") 1 := by decide +kernel
  rintro _ ⟨i, action, hi, rfl⟩ _ ⟨j, action', hj, rfl⟩ heq
  rcases auditPlan_steps hi with ⟨rfl, rfl⟩ | ⟨rfl, rfl⟩ <;> rcases auditPlan_steps hj with ⟨rfl, rfl⟩ | ⟨rfl, rfl⟩
  · rfl
  · exact absurd heq hne
  · exact absurd heq.symm hne
  · rfl

/-- Recovery completes. -/
theorem recovered : ∃ c, (attempts strArgs "/s" "T1" auditPlan).ReachableWhen
    (fun a w => Leaves "/s" w.files a.files) (· = untouched) c ∧ c.proc = some (.ret ()) := by
  have hempty : Leaves "/s" .empty .empty := ⟨noLinks_empty, fun _ _ => ⟨rfl, fun _ _ => rfl⟩⟩
  have hstart : (attempts strArgs "/s" "T1" auditPlan).ReachableWhen
      (fun a w => Leaves "/s" w.files a.files) (· = untouched) ⟨untouched, none⟩ := Lts.Reachable.start ⟨rfl, rfl⟩
  let first : Attempt := ⟨false, 1, .empty⟩
  let second : Attempt := ⟨true, 0, .empty⟩
  let killed : World := ⟨[⟨.BEGIN_TURN, "T1", ""⟩], ⟨[], fun _ => none⟩, none, .empty, 1, 1⟩
  have hkilled : (run_turn strArgs "/s" "T1" auditPlan).run { untouched with clock := ⟨0, 1⟩ } =
      some (.error .Crash, killed) := rfl
  have hstopped := hstart.attempt (k := first) hempty hkilled
  have hstorable : ∀ action ∈ auditPlan, action.Storable := by
    simp [auditPlan, Step.Storable]
  have hcompletes : Completes (recover strArgs "/s" "T1" auditPlan) := completes_run_turn hstorable
  obtain ⟨⟨⟩, w, hrun, -⟩ := hcompletes { killed with clock := ⟨0, 0⟩ } ⟨rfl, rfl⟩
  exact ⟨_, hstopped.run (k := second) hempty hrun, rfl⟩

theorem steps_exactly_once_recovered : ∃ c, (attempts strArgs "/s" "T1" auditPlan).ReachableWhen
    (fun a w => Leaves "/s" w.files a.files) (· = untouched) c ∧ c.proc = some (.ret ()) ∧
    c.shared.app.charges = [⟨"ORD", 100⟩] ∧
    c.shared.files.read ⟨"/s/committed", keyOf strArgs "T1" auditPlan 1 ++ ".receipt"⟩ =
      some (Sha256.encode "ORD\n") := by
  obtain ⟨c, hc, hret⟩ := recovered
  obtain ⟨-, -, hall⟩ := steps_exactly_once strArgs "/s" "T1" auditPlan noCollision_auditPlan untouched
    fresh_untouched c hc
  obtain ⟨hcharges, hreceipts⟩ := hall hret
  exact ⟨c, hc, hret, hcharges, (hreceipts _ _).mpr ⟨1, "ORD", rfl, rfl, rfl⟩⟩

/-- The content of a receipt is not its order alone. -/
theorem not_order_alone :
    ¬ ∀ (str : Step → String) (store turn : String) (plan : List Step), NoCollision str turn plan →
      ∀ w₀, Fresh store w₀ → ∀ c : Serial.State Stmt World Exn Unit,
      (attempts str store turn plan).ReachableWhen (fun a w => Leaves store w.files a.files) (· = w₀) c →
      c.proc = some (.ret ()) → ∀ o order_id, plan[o]? = some (.fs order_id) →
      c.shared.files.read (Gateway.ReceiptTool.final store (keyOf str turn plan o)) =
        some (Sha256.encode order_id) := by
  intro h
  obtain ⟨c, hc, hret⟩ := recovered
  have halone := h strArgs "/s" "T1" auditPlan noCollision_auditPlan untouched fresh_untouched c hc hret 1 "ORD" rfl
  have hdone := (done_of_reachable noCollision_auditPlan fresh_untouched hc).2 hret
  have hline := (hdone.receipts _ _).mpr ⟨1, by decide, "ORD", rfl, rfl, rfl⟩
  have heq : content "ORD" = Sha256.encode "ORD" := Option.some.inj (hline.symm.trans halone)
  exact absurd (Sha256.encode_injective heq) (by decide)

end AgentTx.Core
