import AgentTx.Dtx.Interrupt

/-!
# `Dtx.Content` — the content check on replay

`do_charge` compares the fingerprint of its arguments with the one in the action's row; `do_overlay` compares
nothing. Whoever calls `do_overlay` decides whether rows and receipts agree: with clients that give one action
one canonical text, in any interleaving, the row of a receipt holds the fingerprint of what is in the receipt.

The first half is about one call (`run_do_charge` says how a `do_charge` by itself can end in `ContentMismatch`), the
second about any interleaving of calls:
* `Lenient` — what cannot raise the exception: a `do_overlay` never does (`do_overlay_not_refused`), and of a
  `do_charge` only the comparison, when it finds a row (`do_charge_refused`).
* `contract` — a temporary file belongs to one process, and holds a text that the process has a call for; so does every
  receipt that is renamed into place (`replaced_ok`), and every row names the fingerprint of such a text.
* `rows_match` — where one action has one text, the two texts are the same one.

Main result: `content_checked`, the exact condition for a single call together with the runs; a `do_overlay` that finds
a receipt of other arguments is its counterexample (`not_content_checked`).
-/

namespace AgentTx.Dtx.Content

variable {ι : Type}

/-! ## One call

A call by itself, statement by statement. Only one of them can raise `ContentMismatch`; for everything around it, it
is enough that it raises something else or nothing. -/

section Call

variable [DecidableEq ι] [Driver] {x : DTX ι} {w w' : World ι} {s t cid : String} {o : Ordinal} {args : Json} {ep : Nat}
  {mid : Bool}

/-- The program does not raise `ContentMismatch`. -/
abbrev Lenient {α : Type} (i : ι) (p : DtxProg ι α) : Prop :=
  (privately ι).Triple i (fun _ => True) p (fun _ _ => True) fun e _ => e ≠ .ContentMismatch

omit [DecidableEq ι] [Driver] in
theorem lenient_step {α : Type} {i : ι} {st : Stmt} {act : World ι → Option (α × World ι)} :
    Lenient i (.step st act) :=
  .step (RelyGuarantee.Stable.const True) fun _ _ _ _ _ _ _ => ⟨trivial, trivial, trivial⟩

omit [DecidableEq ι] [Driver] in
theorem lenient_pure {α : Type} {i : ι} {a : α} : Lenient i (pure a) := fun _ _ _ => trivial

omit [DecidableEq ι] [Driver] in
theorem lenient_subscript {i : ι} (m : Json) (k : String) : Lenient i (.ofExcept (subscript m k)) := by
  exact .ofExcept (fun _ _ _ _ _ => trivial) fun _ he _ _ _ => subscript_error he

omit [DecidableEq ι] [Driver] in
theorem lenient_ofOption {α : Type} {i : ι} (r : Option α) : Lenient i (.ofOption .TypeError r) :=
  .ofOption (fun _ _ _ _ _ => trivial) fun _ _ _ _ => nofun

omit [DecidableEq ι] [Driver] in
theorem lenient_bound {i : ι} (taken : Bool) : Lenient i (.ofExcept (Driver.bound taken)) := by
  refine .ofExcept (fun _ _ _ _ _ => trivial) fun _ he _ _ _ => ?_
  rw [(Driver.bound_error he).2]
  exact nofun

theorem lenient_chargeEffect {aid : String} : Lenient x.conn (x.chargeEffect aid args mid) := by
  refine (lenient_subscript _ _).bind fun _ => (lenient_subscript _ _).bind fun _ =>
    ((lenient_bound _).bind fun _ => lenient_step).bind fun _ => ?_
  cases mid with
  | true => exact fun _ _ _ => nofun
  | false => exact lenient_step.bind fun _ => lenient_pure

omit [DecidableEq ι] [Driver] in
theorem lenient_writeBytes {i : ι} (n : Nat) :
    ∀ (bytes : List UInt8) (off : Nat), Lenient i (Prog.writeBytes n off bytes)
  | [], _ => lenient_pure
  | _ :: bs, off => lenient_step.bind fun _ => lenient_writeBytes n bs (off + 1)

/-- `do_overlay` has no content check. -/
theorem lenient_do_overlay {store : String} : Lenient x.conn (x.do_overlay s t cid o args ep store) := by
  have hrecord : ∀ afp, Lenient x.conn (x.record_overlay s t (action_id s t cid o) o afp ep) := fun afp =>
    ((lenient_bound _).bind fun _ => lenient_step).bind fun _ => lenient_step
  refine (lenient_ofOption _).bind fun afp => lenient_step.bind fun found => ?_
  cases found with
  | true => exact (hrecord afp).bind fun _ => lenient_pure
  | false =>
    refine (lenient_ofOption _).bind fun text => RelyGuarantee.Triple.bind (Q := fun _ _ => True) ?_ fun _ =>
      lenient_step.bind fun _ => (hrecord afp).bind fun _ => lenient_pure
    refine RelyGuarantee.Triple.bind (Q := fun _ _ => True) ?_ fun _ => lenient_step.bind fun ok => ?_
    · exact lenient_step.bind fun n => (lenient_writeBytes n _ 0).bind fun _ => lenient_step
    · cases ok with
      | true => exact lenient_pure
      | false => exact fun _ _ _ => nofun

/-- The call of `do_charge` may act, under an ordinal that the column takes, and finds a row with other
    arguments. -/
def Mismatch (db : Db) (s t aid : String) (o : Ordinal) (afp : String) (ep : Nat) : Prop :=
  db.turn_owner (s, t) = some ep ∧ o.taken = true ∧ ∃ row, db.actions aid = some row ∧ row.args_fp ≠ afp

omit [Driver] in
/-- A transaction ends as its body does. -/
theorem run_transaction {α : Type} {body : DtxProg ι α} {r : Except Exn α}
    (hrun : (x.transaction body).run w = some (r, w')) : ∃ w₁, body.run w = some (r, w₁) := by
  unfold DTX.transaction at hrun
  rw [Prog.run_tryCatch, Prog.run_bind] at hrun
  cases hbody : body.run w with
  | none => simp [hbody] at hrun
  | some r₁ =>
    obtain ⟨r₁, w₁⟩ := r₁
    cases r₁ with
    | ok a =>
      simp [hbody, DTX.commit] at hrun
      exact ⟨w₁, by rw [hrun.1]⟩
    | error e =>
      simp [hbody, DTX.rollback] at hrun
      exact ⟨w₁, by rw [hrun.1]⟩

omit [DecidableEq ι] [Driver] in
/-- The answer from a row: it is refused when the fingerprints differ. -/
theorem run_chargeFound {aid afp : String} {r : Except Exn (Tag × Option Json)}
    (hrun : (x.chargeFound aid afp).run w = some (r, w')) :
    r = .error .ContentMismatch ↔ ∃ row, (x.view w.server).actions aid = some row ∧ row.args_fp ≠ afp := by
  unfold DTX.chargeFound at hrun
  cases hrow : (x.view w.server).actions aid with
  | none =>
    simp [DTX.select_action, DTX.execute, hrow] at hrun
    simp [← hrun.1]
  | some row =>
    by_cases hfp : row.args_fp = afp
    · cases hres : row.result with
      | none =>
        simp [DTX.select_action, DTX.execute, hrow, hfp, hres] at hrun
        simp [← hrun.1, hfp]
      | some text =>
        cases hload : json_loads text with
        | error e =>
          -- `json.loads` has an error of its own
          have he : e ≠ .ContentMismatch := by
            rintro rfl
            unfold json_loads at hload
            cases hl : Json.loads text <;> simp [hl] at hload
          simp [DTX.select_action, DTX.execute, hrow, hfp, hres, hload] at hrun
          simp [← hrun.1, hfp, he]
        | ok v =>
          simp [DTX.select_action, DTX.execute, hrow, hfp, hres, hload] at hrun
          simp [← hrun.1, hfp]
    · simp [DTX.select_action, DTX.execute, hrow, hfp] at hrun
      simp [← hrun.1, hfp]

open Interrupt in
omit [Driver] in
/-- The fence, read alone. -/
theorem run_select_owner (aid : String) {r : Except Exn (Option Nat)}
    (hrun : (x.select_owner s t).run w = some (r, w')) :
    ∃ o ts, r = .ok o ∧ Fenced x w s t aid o ts w' := by
  have halong : (x.select_owner s t).Along (Stopped x w aid .database) (Fenced x w s t aid) (fun _ _ _ => False) []
      w := along_select_owner
  obtain ⟨ts, hend⟩ := halong.ended hrun
  cases r with
  | ok o => exact ⟨o, ts, rfl, hend⟩
  | error e => exact hend.elim

open Interrupt in
/-- The claim, made alone. -/
theorem run_insert_action {aid : String} {row : ActionRow} {ts : List Stmt} {w₁ : World ι} {r : Except Exn Bool}
    (hidle : AtRest x.conn w) (h : Fenced x w s t aid (some ep) ts w₁)
    (hrun : (x.insert_action aid row).run w₁ = some (r, w')) :
    row.taken = false ∧ r = .error .DataError ∨ row.taken = true ∧
      (r = .ok true ∧ w.server.db.actions aid = none ∨
        r = .ok false ∧ (w.server.db.actions aid).isSome ∧ Alike x.conn w w') := by
  cases htaken : row.taken with
  | false =>
    simp [DTX.insert_action, htaken, Driver.bound] at hrun
    exact Or.inl ⟨rfl, hrun.1.symm⟩
  | true =>
    refine Or.inr ⟨rfl, ?_⟩
    have halong := along_insert_action row hidle h
    obtain ⟨ts', hend⟩ := halong.ended hrun
    cases r with
    | ok won =>
      cases won with
      | true => exact Or.inl ⟨rfl, hend.claimed.2.1⟩
      | false => exact Or.inr ⟨rfl, hend.taken, hend.alike⟩
    | error e =>
      rw [htaken] at hend
      cases hend.1

/-- The body of the transaction. -/
theorem run_chargeBody {aid afp : String} {r : Except Exn (Tag × Option Json)} (hidle : AtRest x.conn w)
    (hrun : (x.chargeBody s t aid afp o args ep mid).run w = some (r, w')) :
    r = .error .ContentMismatch ↔ Mismatch w.server.db s t aid o afp ep := by
  -- the connection sees what is committed, since it has nothing pending
  have hview : x.view w.server = w.server.db := TxServer.view_of_pending_nil hidle
  unfold DTX.chargeBody at hrun
  rw [Prog.run_bind] at hrun
  obtain ⟨⟨r₁, w₁⟩, hselect, hrest⟩ := Option.bind_eq_some_iff.mp hrun
  obtain ⟨owner, ts, rfl, hfence⟩ := run_select_owner aid hselect
  have howner : owner = w.server.db.turn_owner (s, t) := by
    rw [hfence.owner, hview]
  rw [Prog.andThen_ok] at hrest
  split_ifs at hrest with hep
  · -- a stale owner is turned away before anything is compared
    cases hrest
    constructor
    · exact nofun
    · intro hm
      exact absurd (howner.trans hm.1) hep
  · obtain rfl : owner = some ep := not_not.mp hep
    rw [Prog.run_bind] at hrest
    obtain ⟨⟨r₂, w₂⟩, hinsert, hend⟩ := Option.bind_eq_some_iff.mp hrest
    have htaken : (DTX.chargeRow s t o afp ep).taken = o.taken := rfl
    rcases run_insert_action hidle hfence hinsert with ⟨hrefused, rfl⟩ | ⟨hbound, ⟨rfl, hnone⟩ | ⟨rfl, -, halike⟩⟩
    · -- the column refuses the ordinal before anything is compared
      cases hend
      constructor
      · exact nofun
      · rintro ⟨-, ho, -⟩
        rw [htaken, ho] at hrefused
        cases hrefused
    · -- the claim is won: what follows compares nothing, and there was no row
      have hlenient := (lenient_chargeEffect w₂ trivial trivial).ended (fun _ _ => trivial) hend
      constructor
      · rintro rfl
        exact absurd rfl hlenient
      · rintro ⟨-, -, row, hrow, -⟩
        rw [hnone] at hrow
        cases hrow
    · -- the claim is lost to the row that is compared
      have hseen : x.view w₂.server = w.server.db := halike.server.view.trans hview
      have hfound := run_chargeFound hend
      rw [hseen] at hfound
      rw [hfound]
      exact ⟨fun h => ⟨howner.symm, hbound, h⟩, fun h => h.2.2⟩

/-- **What `do_charge` refuses**: it finds a row with other arguments, the caller owns the turn, and the column
    takes the ordinal. -/
theorem run_do_charge {afp : String} {r : Except Exn (Tag × Option Json)} (hidle : AtRest x.conn w)
    (hafp : args_fingerprint args = some afp)
    (hrun : (x.do_charge s t cid o args ep mid).run w = some (r, w')) :
    r = .error .ContentMismatch ↔ Mismatch w.server.db s t (action_id s t cid o) o afp ep := by
  unfold DTX.do_charge at hrun
  rw [hafp] at hrun
  obtain ⟨w₁, hbody⟩ := run_transaction hrun
  exact run_chargeBody hidle hbody

/-- The action has a row, or a published receipt, made from arguments with another fingerprint. -/
def Replayed (w : World ι) (aid afp : String) : Prop :=
  (∃ row, w.server.db.actions aid = some row ∧ row.args_fp ≠ afp) ∨
    ∃ store args' text, canonical_args args' = some text ∧ args_fingerprint args' ≠ some afp ∧
      w.files.read (DTX.receipt store aid) = some (Sha256.encode text)

/-- The call raises `ContentMismatch`, and the tables and the store are what they were. -/
def Refused {α : Type} (w : World ι) (r : Except Exn α × World ι) : Prop :=
  r.1 = .error .ContentMismatch ∧ r.2.server.db = w.server.db ∧ r.2.files = w.files

theorem do_charge_refused {afp : String} {r : Except Exn (Tag × Option Json) × World ι} (hidle : AtRest x.conn w)
    (hafp : args_fingerprint args = some afp) (hrun : (x.do_charge s t cid o args ep mid).run w = some r) :
    Refused w r ↔ Mismatch w.server.db s t (action_id s t cid o) o afp ep := by
  obtain ⟨r, w'⟩ := r
  have hiff := run_do_charge hidle hafp hrun
  constructor
  · intro hr
    exact hiff.mp hr.1
  · intro hm
    obtain rfl : r = .error .ContentMismatch := hiff.mpr hm
    obtain ⟨-, halike⟩ := (Interrupt.along_do_charge hidle s t cid o args ep mid).ended hrun
    exact ⟨rfl, halike.server.db, halike.files⟩

theorem do_overlay_not_refused {store : String} {r : Except Exn (Tag × FsPath) × World ι}
    (hrun : (x.do_overlay s t cid o args ep store).run w = some r) : ¬ Refused w r := by
  obtain ⟨r, w'⟩ := r
  rintro ⟨rfl, -⟩
  have hlenient := (lenient_do_overlay w trivial trivial).ended (fun _ _ => trivial) hrun
  exact hlenient rfl

end Call

/-! ## Receipts and their rows

Now any number of processes, with calls of both kinds. What connects a receipt with its row is the text of the
arguments: the receipt has it as its content, and the row has its hash. -/

/-- The texts that calls of `do_overlay` are to write for an action. -/
def Of (calls : ι → List Op) (aid text : String) : Prop :=
  ∃ i s t cid o args ep store, .do_overlay s t cid o args ep store ∈ calls i ∧ aid = action_id s t cid o ∧
    canonical_args args = some text

section Contract

variable (calls : ι → List Op) (pid : ι → Nat)

/-- `P` is a temporary file of process `i`. -/
def IsTemp (i : ι) (P : FsPath) : Prop :=
  ∃ store s t cid o ep, P = DTX.overlayTmp store (action_id s t cid o) (pid i) ep

/-- What holds of the tables and the files at every moment. -/
structure Inv (p : Public ι) : Prop where
  no_links : p.files.NoLinks
  receipts : ∀ store aid n, p.files.dir (DTX.receipt store aid) = some n →
    ∃ text, Of calls aid text ∧ p.files.data n = Sha256.encode text
  rows : ∀ aid row, p.db.actions aid = some row → row.klass = .overlay →
    (∃ text, Of calls aid text ∧ row.args_fp = sha256 text) ∧
      ∃ store, (p.files.dir (DTX.receipt store aid)).isSome

/-- What process `i` may do to the files. -/
structure May (i : ι) (p p' : Public ι) : Prop where
  elsewhere : ∀ P, ¬ IsTemp pid i P → (∀ store aid, P ≠ DTX.receipt store aid) →
    p'.files.dir P = p.files.dir P ∧ ∀ n, p.files.dir P = some n → p'.files.data n = p.files.data n
  receipts : ∀ store aid, (p.files.dir (DTX.receipt store aid)).isSome →
    (p'.files.dir (DTX.receipt store aid)).isSome

variable {calls pid}

theorem May.same_files {i : ι} {p p' : Public ι} (h : p'.files = p.files) : May pid i p p' := by
  refine ⟨fun P _ _ => ?_, fun store aid hsome => ?_⟩
  · rw [h]
    exact ⟨rfl, fun _ _ => rfl⟩
  · rw [h]
    exact hsome

variable (calls pid) in
def contract : Contract ι where
  inv := Inv calls
  may := May pid
  may_refl _ _ := May.same_files rfl

variable {i j : ι} {p p' : Public ι} {P : FsPath}

/-- **No two processes have a temporary file in common.** -/
theorem temp_unique (hpid : Function.Injective pid) (hi : IsTemp pid i P) (hj : IsTemp pid j P) : i = j := by
  obtain ⟨store, s, t, cid, o, ep, hP⟩ := hi
  obtain ⟨store', s', t', cid', o', ep', hP'⟩ := hj
  have hlen : (action_id s t cid o).toList.length = (action_id s' t' cid' o').toList.length := by
    rw [length_action_id, length_action_id]
  obtain ⟨-, hp, -⟩ := overlayTmp_fields hlen (hP.symm.trans hP')
  exact hpid hp

theorem temp_ne_receipt (h : IsTemp pid i P) (store aid : String) : P ≠ DTX.receipt store aid := by
  obtain ⟨store', s, t, cid, o, ep, rfl⟩ := h
  exact Ne.symm receipt_ne_temp

/-- Nobody else touches it. -/
theorem temp_kept (hpid : Function.Injective pid) (hji : j ≠ i) (hmay : May pid j p p') (hP : IsTemp pid i P)
    {n : Nat} (hn : p.files.dir P = some n) :
    p'.files.dir P = some n ∧ p'.files.data n = p.files.data n := by
  have hnot : ¬ IsTemp pid j P := fun hj => hji (temp_unique hpid hj hP)
  obtain ⟨hdir, hdata⟩ := hmay.elsewhere P hnot (temp_ne_receipt hP)
  exact ⟨hdir.trans hn, hdata n hn⟩

/-- A step that leaves the files and the overlay rows alone. -/
theorem Inv.same_files (hp : Inv calls p) (hfiles : p'.files = p.files)
    (hrows : ∀ aid row, p'.db.actions aid = some row → row.klass = .overlay → p.db.actions aid = some row) :
    Inv calls p' := by
  refine ⟨hfiles ▸ hp.no_links, ?_, ?_⟩
  · rw [hfiles]
    exact hp.receipts
  · intro aid row hrow hklass
    rw [hfiles]
    exact hp.rows aid row (hrows aid row hrow hklass) hklass

/-- A process may do to its temporary file what it likes. -/
theorem temp_ok {fs : FileSys} (hp : Inv calls p) (hP : IsTemp pid i P) (h : p.files.OnlyAt P fs) :
    Inv calls (p.withFiles fs) ∧ May pid i p (p.withFiles fs) := by
  have hne : ∀ store aid, DTX.receipt store aid ≠ P := fun store aid he => temp_ne_receipt hP store aid he.symm
  have hmay : May pid i p (p.withFiles fs) := by
    refine ⟨fun Q hQ _ => ?_, fun store aid hsome => ?_⟩
    · exact h.elsewhere Q fun he => hQ (he ▸ hP)
    · show (fs.dir _).isSome
      rw [(h.elsewhere _ (hne store aid)).1]
      exact hsome
  refine ⟨⟨h.no_links, fun store aid n hn => ?_, fun aid row hrow hklass => ?_⟩, hmay⟩
  · obtain ⟨hdir, hdata⟩ := h.elsewhere _ (hne store aid)
    have hn' : p.files.dir (DTX.receipt store aid) = some n := hdir.symm.trans hn
    show ∃ text, _ ∧ fs.data n = _
    rw [hdata n hn']
    exact hp.receipts store aid n hn'
  · obtain ⟨htext, store, hsome⟩ := hp.rows aid row hrow hklass
    exact ⟨htext, store, hmay.receipts store aid hsome⟩

/-- **The rename.** -/
theorem replaced_ok {store aid text : String} {n : Nat} {fs : FileSys} (hp : Inv calls p) (hP : IsTemp pid i P)
    (htext : Of calls aid text) (hn : p.files.dir P = some n) (hdata : p.files.data n = Sha256.encode text)
    (hr : p.files.replace P (DTX.receipt store aid) = some fs) :
    Inv calls (p.withFiles fs) ∧ May pid i p (p.withFiles fs) ∧ (fs.dir (DTX.receipt store aid)).isSome := by
  obtain ⟨m, hm, hdir, hsame, -⟩ := FileSys.replace_eq_some hr
  cases hn.symm.trans hm
  -- what the rename changes: two names
  have hself : fs.dir (DTX.receipt store aid) = some n := by
    rw [hdir, Function.update_self]
  have hother : ∀ Q, Q ≠ P → Q ≠ DTX.receipt store aid → fs.dir Q = p.files.dir Q := by
    intro Q hQP hQ
    rw [hdir, Function.update_of_ne hQ, Function.update_of_ne hQP]
  -- temporary names and names of receipts differ
  have hne : ∀ store' aid', DTX.receipt store' aid' ≠ P := fun store' aid' he =>
    temp_ne_receipt hP store' aid' he.symm
  have hmay : May pid i p (p.withFiles fs) := by
    refine ⟨fun Q hQ hrec => ⟨?_, fun k _ => ?_⟩, fun store' aid' hsome => ?_⟩
    · exact hother Q (fun he => hQ (he ▸ hP)) (hrec store aid)
    · exact congrFun hsame k
    · show (fs.dir _).isSome
      by_cases he : DTX.receipt store' aid' = DTX.receipt store aid
      · -- the receipt is there, and the others stay
        rw [he, hself]
        rfl
      · rw [hother _ (hne store' aid') he]
        exact hsome
  refine ⟨⟨hp.no_links.replace hr, fun store' aid' k hk => ?_, fun aid' row hrow hklass => ?_⟩, hmay, by
    rw [hself]
    rfl⟩
  · have hk' : fs.dir (DTX.receipt store' aid') = some k := hk
    show ∃ text, _ ∧ fs.data k = _
    rw [hsame]
    by_cases he : DTX.receipt store' aid' = DTX.receipt store aid
    · -- the receipt that was just published
      rw [he, hself] at hk'
      cases hk'
      rw [receipt_injective he]
      exact ⟨text, htext, hdata⟩
    · rw [hother _ (hne store' aid') he] at hk'
      exact hp.receipts store' aid' k hk'
  · obtain ⟨hfp, store', hsome⟩ := hp.rows aid' row hrow hklass
    exact ⟨hfp, store', hmay.receipts store' aid' hsome⟩

/-- A row recorded for a receipt that is there. -/
theorem recorded_ok {store aid text : String} {row : ActionRow} (i : ι) (pid : ι → Nat) (hp : Inv calls p)
    (htext : Of calls aid text) (hfp : row.args_fp = sha256 text)
    (hfile : (p.files.dir (DTX.receipt store aid)).isSome) :
    Inv calls (p.commit [.insertAction aid row]) ∧ May pid i p (p.commit [.insertAction aid row]) := by
  refine ⟨⟨hp.no_links, hp.receipts, fun aid' row' hrow hklass => ?_⟩, May.same_files rfl⟩
  have hrow' : Function.update p.db.actions aid (some row) aid' = some row' := hrow
  by_cases haid : aid' = aid
  · rw [haid, Function.update_self] at hrow'
    cases hrow'
    rw [haid]
    exact ⟨⟨text, htext, hfp⟩, store, hfile⟩
  · rw [Function.update_of_ne haid] at hrow'
    exact hp.rows aid' row' hrow' hklass

/-! ### The calls -/

theorem allows [DecidableEq ι] : (contract calls pid).Allows i where
  acquire _ _ _ _ hp _ := ⟨hp.same_files rfl fun _ _ h _ => h, May.same_files rfl⟩
  begin_turn _ _ _ _ hp _ := ⟨hp.same_files rfl fun _ _ h _ => h, May.same_files rfl⟩
  commit_turn _ _ _ hp := ⟨hp.same_files rfl fun _ _ h _ => h, May.same_files rfl⟩
  charge p aid row order amount hp hklass hnone := by
    refine ⟨hp.same_files rfl fun aid' row' hrow hoverlay => ?_, May.same_files rfl⟩
    by_cases haid : aid' = aid
    · subst haid
      rw [Contract.charged_action_self] at hrow
      cases hrow
      cases hklass.symm.trans hoverlay
    · rwa [Contract.charged_action_of_ne haid] at hrow

/-- The stages of one overlay. -/
def phases (pid : ι → Nat) (i : ι) (s t cid : String) (o : Ordinal) (args : Json) (ep : Nat) (store : String) :
    Contract.Phases ι where
  before _ := True
  writing n k p := p.files.dir (DTX.overlayTmp store (action_id s t cid o) (pid i) ep) = some n ∧
    ∃ text, canonical_args args = some text ∧ p.files.data n = (Sha256.encode text).take k
  written p := ∃ n, p.files.dir (DTX.overlayTmp store (action_id s t cid o) (pid i) ep) = some n ∧
    ∃ text, canonical_args args = some text ∧ p.files.data n = Sha256.encode text
  published p := (p.files.dir (DTX.receipt store (action_id s t cid o))).isSome
  ready p := (p.files.dir (DTX.receipt store (action_id s t cid o))).isSome
  after _ := True

theorem overlayOk {pg : Bool} {s t cid store : String} {o : Ordinal} {args : Json} {ep : Nat}
    (hpid : Function.Injective pid) (hmem : .do_overlay s t cid o args ep store ∈ calls i) :
    Contract.OverlayOk (contract calls pid) ⟨i, pg, pid i⟩ s t cid o args ep store
      (phases pid i s t cid o args ep store) := by
  have hof : ∀ text, canonical_args args = some text → Of calls (action_id s t cid o) text := fun text htext =>
    ⟨i, s, t, cid, o, args, ep, store, hmem, rfl, htext⟩
  -- the temporary file is this process's own, so what is in it stays
  have htemp : IsTemp pid i (DTX.overlayTmp store (action_id s t cid o) (pid i) ep) := ⟨store, s, t, cid, o, ep, rfl⟩
  exact {
    before := Contract.keeps_const True
    writing := by
      rintro n k j p p' hji - - hmay - - ⟨hn, text, htext, hdata⟩
      obtain ⟨hn', hdata'⟩ := temp_kept hpid hji hmay htemp hn
      exact ⟨hn', text, htext, hdata'.trans hdata⟩
    written := by
      rintro j p p' hji - - hmay - - ⟨n, hn, text, htext, hdata⟩
      obtain ⟨hn', hdata'⟩ := temp_kept hpid hji hmay htemp hn
      exact ⟨n, hn', text, htext, hdata'.trans hdata⟩
    published := fun j p p' _ _ _ hmay _ _ hsome => hmay.receipts store _ hsome
    ready := fun j p p' _ _ _ hmay _ _ hsome => hmay.receipts store _ hsome
    after := Contract.keeps_const True
    exists_ := fun p _ _ _ hexists => hexists
    open_ := by
      intro p text htext hp _
      obtain ⟨hinv, hmay⟩ := temp_ok hp htemp (FileSys.onlyAt_openTrunc hp.no_links _)
      exact ⟨hinv, hmay, FileSys.openTrunc_dir_self _ _, text, htext, FileSys.openTrunc_data_self _ _⟩
    write := by
      rintro p text n k b htext hb hp ⟨hn, text', htext', hdata⟩
      cases htext.symm.trans htext'
      obtain ⟨hinv, hmay⟩ := temp_ok hp htemp (FileSys.onlyAt_write hp.no_links hn k [b])
      refine ⟨hinv, hmay, hn, text, htext, ?_⟩
      show (p.files.write n k [b]).data n = _
      rw [FileSys.write_data_self, hdata, FileSys.overwrite_take hb]
    fsync := by
      rintro p text n htext hp ⟨hn, text', htext', hdata⟩
      cases htext.symm.trans htext'
      obtain ⟨hinv, hmay⟩ := temp_ok hp htemp (FileSys.onlyAt_fsync hp.no_links n)
      refine ⟨hinv, hmay, n, hn, text, htext, ?_⟩
      rw [List.take_length] at hdata
      exact hdata
    replace := by
      rintro p fs hp ⟨n, hn, text, htext, hdata⟩ hr
      exact replaced_ok hp htemp (hof text htext) hn hdata hr
    fsyncDir := by
      intro p hp hpub
      obtain ⟨hinv, hmay⟩ := temp_ok hp htemp (FileSys.onlyAt_fsyncDir hp.no_links (store ++ "/committed"))
      exact ⟨hinv, hmay, hpub⟩
    record := by
      intro p afp hp hr hafp _
      obtain ⟨text, htext, rfl⟩ := Option.map_eq_some_iff.mp hafp
      have hfp : (DTX.receiptRow s t o (sha256 text) ep).args_fp = sha256 text := rfl
      obtain ⟨hinv, hmay⟩ := recorded_ok i pid hp (hof text htext) hfp hr
      exact ⟨hinv, hmay, trivial⟩
    recorded := fun _ _ _ _ => trivial }

/-- **Every client keeps the contract.** -/
theorem client_spec [DecidableEq ι] [Driver] (pg : Bool) (hpid : Function.Injective pid) (i : ι) :
    ((contract calls pid).rules pg).Triple i (Contract.Unstarted pg i) (client ⟨i, pg, pid i⟩ (calls i))
      (fun _ _ => True) fun _ _ => True := by
  have hclient : ((contract calls pid).rules pg).Triple i (Contract.Between pg i)
      (client ⟨i, pg, pid i⟩ (calls i)) (fun _ _ => True) fun _ _ => True := by
    refine Contract.Allows.client (x := ⟨i, pg, pid i⟩) allows ?_
    intro s t cid o args ep store hmem
    exact ⟨_, fun _ => trivial, overlayOk hpid hmem⟩
  exact hclient.pre fun w _ hat => hat.mono (fun l hl => hl) fun _ => trivial

end Contract

/-! ### Runs -/

/-- Processes, each with its calls. -/
structure Clients (ι : Type) where
  calls : ι → List Op
  pid : ι → Nat

section Runs

variable [DecidableEq ι] [Driver]

def Clients.system (clients : Clients ι) (pg : Bool) : System ι Empty Stmt (World ι) Exn Unit :=
  Dtx.system fun i => client ⟨i, pg, clients.pid i⟩ (clients.calls i)

omit [DecidableEq ι] [Driver] in
/-- One action, one canonical text, whoever calls. -/
def Clients.OneText (clients : Clients ι) : Prop :=
  ∀ aid text text', Of clients.calls aid text → Of clients.calls aid text' → text = text'

/-- Before the run: nothing is published, and no receipt is recorded. -/
structure Start (w : World ι) : Prop where
  quiescent : Quiescent w
  no_links : w.files.NoLinks
  no_receipts : ∀ store aid, w.files.dir (DTX.receipt store aid) = none
  no_rows : ∀ aid row, w.server.db.actions aid = some row → row.klass ≠ .overlay

/-- The row of a receipt has the fingerprint of the arguments whose canonical text is in the receipt. -/
def RowsMatch (db : Db) (files : FileSys) : Prop :=
  ∀ aid row, db.actions aid = some row → row.klass = .overlay → ∃ args text,
    canonical_args args = some text ∧ args_fingerprint args = some row.args_fp ∧
    (∃ store, files.read (DTX.receipt store aid) = some (Sha256.encode text)) ∧
    ∀ store bytes, files.read (DTX.receipt store aid) = some bytes → bytes = Sha256.encode text

omit [DecidableEq ι] [Driver] in
theorem Inv.rowsMatch {clients : Clients ι} {p : Public ι} (hp : Inv clients.calls p) (hone : clients.OneText) :
    RowsMatch p.db p.files := by
  intro aid row hrow hklass
  obtain ⟨⟨text, htext, hfp⟩, store, hsome⟩ := hp.rows aid row hrow hklass
  have hread : ∀ store bytes, p.files.read (DTX.receipt store aid) = some bytes → bytes = Sha256.encode text := by
    intro store bytes hbytes
    obtain ⟨n, hn, rfl⟩ := Option.map_eq_some_iff.mp hbytes
    obtain ⟨text', htext', hdata⟩ := hp.receipts store aid n hn
    rw [hdata, hone aid text' text htext' htext]
  obtain ⟨i, s, t, cid, o, args, ep, store₀, -, -, hargs⟩ := htext
  obtain ⟨n, hn⟩ := Option.isSome_iff_exists.mp hsome
  have hbytes : p.files.read (DTX.receipt store aid) = some (p.files.data n) := by
    rw [FileSys.read, hn]
    rfl
  refine ⟨args, text, hargs, ?_, ⟨store, ?_⟩, hread⟩
  · rw [args_fingerprint, hargs, hfp]
    rfl
  · rw [hbytes, hread store _ hbytes]

/-- In every state that clients reach that give one action one text, rows and receipts match. -/
theorem rows_match (clients : Clients ι) (pg : Bool) (hpid : Function.Injective clients.pid)
    (hone : clients.OneText) {w₀ : World ι} (h₀ : Start w₀) {c : Config ι Stmt (World ι) Exn Unit}
    (hc : (clients.system pg).Reachable (· = w₀) c) : RowsMatch c.shared.server.db c.shared.files := by
  have hverified : RelyGuarantee.Verified (clients.system pg) ((contract clients.calls clients.pid).rules pg)
      (Contract.Unstarted pg) := Contract.verified fun i => client_spec pg hpid i
  have hstart : Inv clients.calls w₀.pub := by
    refine ⟨h₀.no_links, fun store aid n hn => ?_, fun aid row hrow hklass => ?_⟩
    · rw [show w₀.pub.files.dir _ = none from h₀.no_receipts store aid] at hn
      cases hn
    · exact absurd hklass (h₀.no_rows aid row hrow)
  have hinit := Contract.init_of_quiescent (C := contract clients.calls clients.pid) pg h₀.quiescent hstart
  have hinv : Inv clients.calls c.shared.pub := (hverified.inv (fun _ _ _ => trivial) hinit hc).2
  exact hinv.rowsMatch hone

/-- **The content check.** Of the calls that replay an action with other arguments exactly those of `do_charge`
    are refused that find a row, own the turn and come under an ordinal that the column takes; and the row of a
    receipt says what is in it, as long as one action is given one text. -/
theorem content_checked (x : DTX ι) (clients : Clients ι) (pg : Bool) :
    (∀ w s t cid o args ep mid store afp, AtRest x.conn w → args_fingerprint args = some afp →
      Replayed w (action_id s t cid o) afp →
        (∀ r, (x.do_charge s t cid o args ep mid).run w = some r →
          (Refused w r ↔ Mismatch w.server.db s t (action_id s t cid o) o afp ep)) ∧
        ∀ r, (x.do_overlay s t cid o args ep store).run w = some r → ¬ Refused w r) ∧
    (Function.Injective clients.pid → clients.OneText → ∀ w₀, Start w₀ → ∀ c,
      (clients.system pg).Reachable (· = w₀) c → RowsMatch c.shared.server.db c.shared.files) := by
  constructor
  · intro w s t cid o args ep mid store afp hidle hafp _
    constructor
    · intro r hrun
      exact do_charge_refused hidle hafp hrun
    · intro r hrun
      exact do_overlay_not_refused hrun
  · intro hpid hone w₀ h₀ c hc
    exact rows_match clients pg hpid hone h₀ hc

end Runs

/-! An action recorded with no arguments, and replayed with an order. -/

section Replay

open Interrupt (clerk orderArgs first_taken)

local instance driver : Driver := .sqlite

/-- The turn is owned, and its first action is done. -/
def taken : World Unit :=
  ⟨rest { Db.empty with
    turn_owner := Function.update (fun _ => none) ("s", "t") (some 1)
    actions := Function.update (fun _ => none) (action_id "s" "t" "c" (.int 0))
      (some (DTX.chargeRow "s" "t" (.int 0) (sha256 "{}") 1)) }, .empty, fun _ => none⟩

theorem taken_owner : taken.server.db.turn_owner ("s", "t") = some 1 := by
  show Function.update (fun _ => none) ("s", "t") (some 1) ("s", "t") = some 1
  exact Function.update_self ..

theorem taken_action : taken.server.db.actions (action_id "s" "t" "c" (.int 0)) =
    some (DTX.chargeRow "s" "t" (.int 0) (sha256 "{}") 1) := by
  show Function.update (fun _ => none) _ (some _) _ = some _
  exact Function.update_self ..

/-- The fingerprints differ. -/
theorem orderArgs_fingerprint : ∃ afp, args_fingerprint orderArgs = some afp ∧ sha256 "{}" ≠ afp := by
  obtain ⟨afp, hafp⟩ : ∃ afp, args_fingerprint orderArgs = some afp := exists_args_fingerprint rfl
  have hne : args_fingerprint orderArgs ≠ some (sha256 "{}") := by decide +kernel
  refine ⟨afp, hafp, fun he => hne ?_⟩
  rw [hafp, he]

/-- A client that publishes one receipt. -/
def publisher : Clients Unit := ⟨fun _ => [.do_overlay "s" "t" "c" (.int 0) (.obj []) 1 "/x"], fun _ => 1⟩

theorem publisher_oneText : publisher.OneText := by
  rintro aid text text' ⟨i, s, t, cid, o, args, ep, store, hmem, -, htext⟩
    ⟨i', s', t', cid', o', args', ep', store', hmem', -, htext'⟩
  cases List.mem_singleton.mp hmem
  cases List.mem_singleton.mp hmem'
  exact Option.some.inj (htext.symm.trans htext')

/-- The client, alone, publishes and records it. -/
theorem run_publisher : ∃ w, (client clerk (publisher.calls ())).run ⟨rest Db.empty, .empty, fun _ => none⟩ =
    some (.ok (), w) ∧
      ∃ row, w.server.db.actions (action_id "s" "t" "c" (.int 0)) = some row ∧ row.klass = .overlay := by
  obtain ⟨afp, hafp⟩ : ∃ afp, args_fingerprint (.obj []) = some afp := exists_args_fingerprint rfl
  obtain ⟨text, htext, -⟩ := Option.map_eq_some_iff.mp hafp
  have hfile : FileSys.empty.dir (DTX.receipt "/x" (action_id "s" "t" "c" (.int 0))) = none := rfl
  obtain ⟨fs', n, hrun, -⟩ := clerk.run_do_overlay_new Db.empty (fun _ => none) 1 hafp htext first_taken hfile
  let row := DTX.receiptRow "s" "t" (.int 0) afp 1
  let db := DTX.recorded (action_id "s" "t" "c" (.int 0)) row Db.empty
  have hrow : db.actions (action_id "s" "t" "c" (.int 0)) = some row := DTX.recorded_self _ rfl
  refine ⟨⟨rest db, fs', fun _ => none⟩, ?_, row, hrow, rfl⟩
  simp [client, publisher, Op.run, hrun, db, row]

theorem content_checked_taken :
    (∃ r, (clerk.do_charge "s" "t" "c" (.int 0) orderArgs 1 false).run taken = some r ∧ Refused taken r) ∧
    ∃ c, (publisher.system false).Reachable (· = ⟨rest Db.empty, .empty, fun _ => none⟩) c ∧
      (∃ row, c.shared.server.db.actions (action_id "s" "t" "c" (.int 0)) = some row ∧ row.klass = .overlay) ∧
      RowsMatch c.shared.server.db c.shared.files := by
  obtain ⟨hcalls, hruns⟩ := content_checked clerk publisher false
  constructor
  · obtain ⟨afp, hafp, hne⟩ := orderArgs_fingerprint
    have hrun : (clerk.do_charge "s" "t" "c" (.int 0) orderArgs 1 false).run taken =
        some (.error .ContentMismatch, taken) :=
      clerk.run_do_charge_mismatch hafp first_taken taken_owner taken_action hne
    have hreplayed : Replayed taken (action_id "s" "t" "c" (.int 0)) afp := Or.inl ⟨_, taken_action, hne⟩
    have hiff := (hcalls taken "s" "t" "c" (.int 0) orderArgs 1 false "/x" afp rfl hafp hreplayed).1 _ hrun
    exact ⟨_, hrun, hiff.mpr ⟨taken_owner, first_taken, _, taken_action, hne⟩⟩
  · obtain ⟨w, hrun, hrow⟩ := run_publisher
    have hstart : (publisher.system false).Reachable (· = ⟨rest Db.empty, .empty, fun _ => none⟩)
        ⟨⟨rest Db.empty, .empty, fun _ => none⟩, fun _ => .fresh⟩ := Lts.Reachable.start ⟨rfl, fun _ => rfl⟩
    have hdone := (hstart.spawn (i := ()) rfl).run (i := ()) rfl hrun
    have h₀ : Start (⟨rest Db.empty, .empty, fun _ => none⟩ : World Unit) :=
      ⟨quiescent_rest _ _, fun _ _ _ h => (nomatch h), fun _ _ => rfl, fun _ _ h => (nomatch h)⟩
    exact ⟨_, hdone, hrow, hruns (fun _ _ _ => rfl) publisher_oneText _ h₀ _ hdone⟩

/-- A store with one receipt in it. -/
def shelf (P : FsPath) (bytes : List UInt8) : FileSys where
  dir := Function.update (fun _ => none) P (some 0)
  data _ := bytes
  fresh := 1
  synced _ := true
  durable _ := none
  unsynced _ := []
  bounded p n h := by
    by_cases hp : p = P
    · subst hp
      simp at h
      omega
    · simp [Function.update_of_ne hp] at h

theorem shelf_read (P : FsPath) (bytes : List UInt8) : (shelf P bytes).read P = some bytes := by
  show (Function.update (fun _ => none) P (some 0) P).map _ = _
  rw [Function.update_self]
  rfl

/-- `do_overlay` takes the receipt of other arguments for its own. -/
theorem not_content_checked : ¬ ∀ (w : World Unit) args ep store afp, AtRest () w →
    args_fingerprint args = some afp → Replayed w (action_id "s" "t" "c" (.int 0)) afp →
      ∀ r, (clerk.do_overlay "s" "t" "c" (.int 0) args ep store).run w = some r → Refused w r := by
  intro h
  obtain ⟨afp, hafp, hne⟩ := orderArgs_fingerprint
  have htext : canonical_args (.obj []) = some "{}" := by decide +kernel
  have hother : args_fingerprint (.obj []) ≠ some afp := by
    rw [args_fingerprint, htext]
    exact fun he => hne (Option.some.inj he)
  generalize haid : action_id "s" "t" "c" (.int 0) = aid at h
  let fs : FileSys := shelf (DTX.receipt "/x" aid) (Sha256.encode "{}")
  have hread : fs.read (DTX.receipt "/x" aid) = some (Sha256.encode "{}") := shelf_read _ _
  have hfile : (fs.dir (DTX.receipt "/x" (action_id "s" "t" "c" (.int 0)))).isSome := by
    rw [haid, ← Option.isSome_map, show (fs.dir _).map fs.data = _ from hread]
    rfl
  have hrun : (clerk.do_overlay "s" "t" "c" (.int 0) orderArgs 1 "/x").run ⟨rest Db.empty, fs, fun _ => none⟩ =
      some (.ok (.dedup, _), _) := clerk.run_do_overlay_found hafp first_taken hfile
  have hrefused := h ⟨rest Db.empty, fs, fun _ => none⟩ orderArgs 1 "/x" afp rfl hafp
    (Or.inr ⟨"/x", .obj [], "{}", htext, hother, hread⟩) _ hrun
  cases hrefused.1

end Replay

end AgentTx.Dtx.Content
