import AgentTx.Dtx.Alone
import AgentTx.Dtx.Files
import AgentTx.Dtx.Plan

/-!
# `Dtx.Overlay` — receipts are exactly-once and never torn, though nothing serialises the racers

Any number of workers publish the receipts of turns from their durable plans. No lock and no fence is
involved: a temporary file is named after the action and the token of its writer (`IsTemp`), so no two
workers ever write to one file (`temp_unique`), and what is renamed to `committed/<action_id>.receipt` is
complete and the same whoever does it.

Layout of the proof:
* **Names** — `overlayTmp_injective`: a temporary file tells action, process and token. A token is given out once, so
  no other coordinator writes to the file while its owner lives, or after it is dead.
* **The contract** — a receipt that is there is complete and of the arguments in the plan; a row has its receipt. What
  a worker knows of its own temporary file is stable because of `temp_kept`.
* **The rename** — `replaced_ok`: two complete receipts of one action are equal (`Complete.unique`), so that replacing
  one by the other cannot be seen.
* **The workers and their runs** — `overlayOk` for `do_overlay`, `worker_spec` for the loop, and the system rule.

Main result: `receipts_exactly_once`.
-/

namespace AgentTx.Dtx.Overlay

variable {ι : Type}

/-! ## Names

A temporary file has the token in its name, so that it is enough to know that tokens differ. -/

/-- A temporary name tells the action and the epoch. -/
theorem overlayTmp_injective {store aid aid' : String} {pid pid' ep ep' : Nat}
    (hlen : aid.toList.length = aid'.toList.length)
    (h : DTX.overlayTmp store aid pid ep = DTX.overlayTmp store aid' pid' ep') : aid = aid' ∧ ep = ep' := by
  obtain ⟨haid, -, hep⟩ := overlayTmp_fields hlen h
  exact ⟨haid, hep⟩

/-! ## The contract

The files are the effects here and the rows follow them, so the contract speaks of both: a receipt may be there
without its row, never a row without its receipt. -/

section Contract

variable (turns₀ : Table (String × String) TurnRow) (turnOf : ι → String × String) (pid : ι → Nat)
  (store : String)

/-- `P` is the temporary file of worker `i` for some step of its turn. -/
def IsTemp (held : ι → Option Nat) (i : ι) (P : FsPath) : Prop :=
  ∃ cid o args ep, IsStep turns₀ (turnOf i).1 (turnOf i).2 cid o args ∧ held i = some ep ∧
    P = DTX.overlayTmp store (action_id (turnOf i).1 (turnOf i).2 cid o) (pid i) ep

/-- `bytes` is the receipt of a call with arguments `args`. -/
def Complete (args : Json) (bytes : List UInt8) : Prop :=
  ∃ text, canonical_args args = some text ∧ bytes = Sha256.encode text

/-- Step `step` of the turn has its receipt and its row. -/
def Done (s t cid : String) (p : Public ι) (step : Json) : Prop :=
  ∃ o args, ordinalOf step = .ok o ∧ subscript step "args" = .ok args ∧
    (p.files.dir (DTX.receipt store (action_id s t cid o))).isSome ∧
    (p.db.actions (action_id s t cid o)).isSome

/-- What holds of the tables and the files at every moment. -/
structure Inv (p : Public ι) : Prop where
  plans : ∀ k, SamePlan (p.db.turns k) (turns₀ k)
  tokens : ∀ i j e, i ≠ j → turnOf i = turnOf j → p.held i = some e → p.held j ≠ some e
  epochs : ∀ i e, p.held i = some e → ∃ e', p.db.turn_owner (turnOf i) = some e' ∧ e ≤ e'
  no_links : p.files.NoLinks
  receipts : ∀ P n, P.dir = committedDir store → p.files.dir P = some n → ∃ s t cid o args,
    IsStep turns₀ s t cid o args ∧ P = DTX.receipt store (action_id s t cid o) ∧
    Complete args (p.files.data n)
  committed : ∀ s t r, p.db.turns (s, t) = some r → r.state = .committed → ∀ step ∈ planSteps r,
    Done store s t r.commit_id p step

/-- What worker `i` may do to them. -/
structure May (i : ι) (p p' : Public ι) : Prop where
  actions : ∀ aid, (p.db.actions aid).isSome → (p'.db.actions aid).isSome
  elsewhere : ∀ P, ¬ IsTemp turns₀ turnOf pid store p.held i P → P.dir ≠ committedDir store →
    p'.files.dir P = p.files.dir P ∧ ∀ n, p.files.dir P = some n → p'.files.data n = p.files.data n
  receipts : ∀ P bytes, P.dir = committedDir store → p.files.read P = some bytes →
    p'.files.read P = some bytes

variable {turns₀ turnOf pid store}

/-- A step that leaves the files alone. -/
theorem May.same_files {i : ι} {p p' : Public ι} (hfiles : p'.files = p.files)
    (hactions : ∀ aid, (p.db.actions aid).isSome → (p'.db.actions aid).isSome) :
    May turns₀ turnOf pid store i p p' where
  actions := hactions
  elsewhere P _ _ := by
    rw [hfiles]
    exact ⟨rfl, fun _ _ => rfl⟩
  receipts P bytes _ h := by
    rw [hfiles]
    exact h

variable (turns₀ turnOf pid store) in
def contract : Contract ι where
  inv := Inv turns₀ turnOf store
  may := May turns₀ turnOf pid store
  may_refl _ _ := May.same_files rfl fun _ h => h

variable {i j : ι} {p p' : Public ι} {s t cid : String} {ep : Nat} {steps : List Json}

/-- **No two workers have a temporary file in common.** -/
theorem temp_unique (hids : DistinctIds turns₀) (hp : Inv turns₀ turnOf store p) {P : FsPath}
    (hi : IsTemp turns₀ turnOf pid store p.held i P) (hj : IsTemp turns₀ turnOf pid store p.held j P) :
    i = j := by
  obtain ⟨cid, o, args, e, hstep, he, hP⟩ := hi
  obtain ⟨cid', o', args', e', hstep', he', hP'⟩ := hj
  obtain ⟨haid, rfl⟩ := overlayTmp_injective (by rw [length_action_id, length_action_id]) (hP.symm.trans hP')
  obtain ⟨hs, ht, -⟩ := hids _ _ _ _ _ _ _ _ _ _ hstep hstep' haid
  by_contra hij
  exact hp.tokens i j e hij (Prod.ext hs ht) he he'

theorem temp_dir {P : FsPath} {held : ι → Option Nat} (h : IsTemp turns₀ turnOf pid store held i P) :
    P.dir ≠ committedDir store := by
  obtain ⟨cid, o, args, e, -, -, rfl⟩ := h
  exact overlay_ne_committed store

/-- A receipt stays, with what is in it. -/
theorem May.receipt_isSome (h : May turns₀ turnOf pid store i p p') {aid : String}
    (hsome : (p.files.dir (DTX.receipt store aid)).isSome) :
    (p'.files.dir (DTX.receipt store aid)).isSome := by
  obtain ⟨n, hn⟩ := Option.isSome_iff_exists.mp hsome
  have hread : p.files.read (DTX.receipt store aid) = some (p.files.data n) := by
    rw [FileSys.read, hn]
    rfl
  obtain ⟨m, hm, -⟩ := Option.map_eq_some_iff.mp (h.receipts _ _ rfl hread)
  rw [hm]
  rfl

theorem Done.mono {step : Json} (h : Done store s t cid p step) (hmay : May turns₀ turnOf pid store i p p') :
    Done store s t cid p' step := by
  obtain ⟨o, args, ho, hargs, hfile, haction⟩ := h
  exact ⟨o, args, ho, hargs, hmay.receipt_isSome hfile, hmay.actions _ haction⟩

/-- The first steps of the turn are done, and `steps` are to come. -/
structure Underway (turns₀ : Table (String × String) TurnRow) (store : String) (i : ι) (s t cid : String)
    (ep : Nat) (steps : List Json) (p : Public ι) : Prop where
  held : p.held i = some ep
  plan : ∃ r done, turns₀ (s, t) = some r ∧ r.commit_id = cid ∧ planSteps r = done ++ steps ∧
    ∀ step ∈ done, Done store s t cid p step

theorem Underway.mono (h : Underway turns₀ store i s t cid ep steps p) (hheld : p'.held i = p.held i)
    (hmay : May turns₀ turnOf pid store j p p') : Underway turns₀ store i s t cid ep steps p' := by
  have hplan : Passed turns₀ s t cid (Done store s t cid p) steps := h.plan
  exact ⟨hheld.trans h.held, hplan.mono fun step hdone => hdone.mono hmay⟩

theorem Underway.keeps :
    (contract turns₀ turnOf pid store).Keeps i [] (Underway turns₀ store i s t cid ep steps) :=
  fun _ _ _ _ _ _ hmay hheld _ h => h.mono hheld hmay

/-- The step at hand is a step of the durable plan. -/
theorem Underway.isStep {step args : Json} {o : Ordinal}
    (h : Underway turns₀ store i s t cid ep (step :: steps) p) (ho : ordinalOf step = .ok o)
    (hargs : subscript step "args" = .ok args) : IsStep turns₀ s t cid o args :=
  Passed.isStep h.plan ho hargs

/-- The step at hand is done. -/
theorem Underway.next {step : Json} (h : Underway turns₀ store i s t cid ep (step :: steps) p)
    (hdone : Done store s t cid p step) : Underway turns₀ store i s t cid ep steps p :=
  ⟨h.held, Passed.next h.plan hdone⟩

theorem Underway.start {r : TurnRow} {plan : Json} (hp : Inv turns₀ turnOf store p)
    (hheld : p.held i = some ep) (hr : p.db.turns (s, t) = some r) (hplan : json_loads r.plan = .ok plan)
    (hitems : iterate plan = .ok steps) : Underway turns₀ store i s t r.commit_id ep steps p := by
  have hsame := hp.plans (s, t)
  rw [hr] at hsame
  exact ⟨hheld, Passed.start hsame hplan hitems⟩

/-! ## Calls on the temporary file

Under its temporary name a file is seen by nobody else: whatever is done to it, the contract is kept. -/

/-- A worker may do to its temporary file what it likes. -/
theorem temp_ok {P : FsPath} {fs : FileSys} (hp : Inv turns₀ turnOf store p)
    (hP : IsTemp turns₀ turnOf pid store p.held i P) (h : p.files.OnlyAt P fs) :
    Inv turns₀ turnOf store (p.withFiles fs) ∧ May turns₀ turnOf pid store i p (p.withFiles fs) := by
  have hne : ∀ Q, Q.dir = committedDir store → Q ≠ P := fun Q hQ he => temp_dir hP (he ▸ hQ)
  have hmay : May turns₀ turnOf pid store i p (p.withFiles fs) := by
    refine ⟨fun _ h => h, fun Q hQ _ => ?_, fun Q bytes hQ hread => ?_⟩
    · exact h.elsewhere Q fun he => hQ (he ▸ hP)
    · exact (h.read (hne Q hQ)).trans hread
  refine ⟨⟨hp.plans, hp.tokens, hp.epochs, h.no_links, fun Q n hQ hn => ?_, fun s t r hr hst step hmem => ?_⟩,
    hmay⟩
  · obtain ⟨hdir, hdata⟩ := h.elsewhere Q (hne Q hQ)
    have hn' : p.files.dir Q = some n := hdir.symm.trans hn
    obtain ⟨s, t, cid, o, args, hstep, hQ', hcomplete⟩ := hp.receipts Q n hQ hn'
    refine ⟨s, t, cid, o, args, hstep, hQ', ?_⟩
    show Complete args (fs.data n)
    rw [hdata n hn']
    exact hcomplete
  · exact (hp.committed s t r hr hst step hmem).mono hmay

theorem Complete.unique {args : Json} {b b' : List UInt8} (h : Complete args b) (h' : Complete args b') :
    b = b' := by
  obtain ⟨text, htext, rfl⟩ := h
  obtain ⟨text', htext', rfl⟩ := h'
  rw [Option.some.inj (htext.symm.trans htext')]

/-- **The rename.** What it replaces, if anything, is the same receipt. -/
theorem replaced_ok {args : Json} {o : Ordinal} {P : FsPath} {n : Nat} {fs : FileSys} (hord : DistinctOrdinals turns₀)
    (hids : DistinctIds turns₀) (hp : Inv turns₀ turnOf store p)
    (hP : IsTemp turns₀ turnOf pid store p.held i P) (hstep : IsStep turns₀ s t cid o args)
    (hn : p.files.dir P = some n) (hdata : Complete args (p.files.data n))
    (hr : p.files.replace P (DTX.receipt store (action_id s t cid o)) = some fs) :
    Inv turns₀ turnOf store (p.withFiles fs) ∧ May turns₀ turnOf pid store i p (p.withFiles fs) ∧
      (fs.dir (DTX.receipt store (action_id s t cid o))).isSome := by
  obtain ⟨m, hm, hdir, hsame, -⟩ := FileSys.replace_eq_some hr
  cases hn.symm.trans hm
  have hself : fs.dir (DTX.receipt store (action_id s t cid o)) = some n := by
    rw [hdir, Function.update_self]
  have hother : ∀ Q, Q ≠ P → Q ≠ DTX.receipt store (action_id s t cid o) → fs.dir Q = p.files.dir Q := by
    intro Q hQP hQ
    rw [hdir, Function.update_of_ne hQ, Function.update_of_ne hQP]
  have hne : ∀ Q, Q.dir = committedDir store → Q ≠ P := fun Q hQ he => temp_dir hP (he ▸ hQ)
  -- only the receipt changes; one that was there keeps its bytes
  have hmay : May turns₀ turnOf pid store i p (p.withFiles fs) := by
    refine ⟨fun _ h => h, fun Q hQ hcom => ⟨?_, fun k _ => ?_⟩, fun Q bytes hQ hread => ?_⟩
    · exact hother Q (fun he => hQ (he ▸ hP)) fun he => hcom (he ▸ rfl)
    · exact congrFun hsame k
    · show fs.read Q = some bytes
      by_cases he : Q = DTX.receipt store (action_id s t cid o)
      · -- the receipt was there: it has the same arguments
        obtain ⟨k, hk, hbytes⟩ := Option.map_eq_some_iff.mp hread
        obtain ⟨s', t', cid', o', args', hstep', hQ', hcomplete⟩ := hp.receipts Q k hQ hk
        obtain ⟨-, -, -, rfl⟩ :=
          hstep.unique hord hids hstep' (receipt_injective (he.symm.trans hQ'))
        rw [he, FileSys.read, hself, hsame, ← hbytes]
        exact congrArg some (hdata.unique hcomplete)
      · rw [FileSys.read, hother Q (hne Q hQ) he, hsame]
        exact hread
  refine ⟨⟨hp.plans, hp.tokens, hp.epochs, hp.no_links.replace hr, fun Q k hQ hk => ?_,
    fun s t r hr hst step hmem => ?_⟩, hmay, by rw [hself]; rfl⟩
  · have hk' : fs.dir Q = some k := hk
    show ∃ s t cid o args, _ ∧ _ ∧ Complete args (fs.data k)
    rw [hsame]
    by_cases he : Q = DTX.receipt store (action_id s t cid o)
    · rw [he, hself] at hk'
      cases hk'
      exact ⟨s, t, cid, o, args, hstep, he, hdata⟩
    · rw [hother Q (hne Q hQ) he] at hk'
      exact hp.receipts Q k hQ hk'
  · exact (hp.committed s t r hr hst step hmem).mono hmay

/-! ## Tables

The transactions around the publication: the row of an action, the end of a turn, a new token. -/

/-- A row recorded for a receipt that is there. -/
theorem recorded_ok (i : ι) (pid : ι → Nat) (aid : String) (row : ActionRow)
    (hp : Inv turns₀ turnOf store p) :
    Inv turns₀ turnOf store (p.commit [.insertAction aid row]) ∧
      May turns₀ turnOf pid store i p (p.commit [.insertAction aid row]) := by
  have hmay : May turns₀ turnOf pid store i p (p.commit [.insertAction aid row]) := by
    refine May.same_files rfl fun aid' h => ?_
    show (Function.update p.db.actions aid (some row) aid').isSome
    by_cases haid : aid' = aid
    · rw [haid, Function.update_self]
      rfl
    · rw [Function.update_of_ne haid]
      exact h
  exact ⟨⟨hp.plans, hp.tokens, hp.epochs, hp.no_links, hp.receipts, fun s t r hr hst step hmem =>
    (hp.committed s t r hr hst step hmem).mono hmay⟩, hmay⟩

/-- The end of a turn: all steps are behind. -/
theorem committed_ok (hp : Inv turns₀ turnOf store p) (h : Underway turns₀ store i s t cid ep [] p) :
    Inv turns₀ turnOf store (p.commit [.setCommitted s t]) ∧
      May turns₀ turnOf pid store i p (p.commit [.setCommitted s t]) := by
  refine ⟨⟨fun k => (samePlan_setCommitted p.db s t k).trans (hp.plans k), hp.tokens, hp.epochs, hp.no_links,
    hp.receipts, fun s' t' r hr hst => ?_⟩, May.same_files rfl fun _ h => h⟩
  exact all_committed (D := fun s t cid => Done store s t cid p) hp.plans hp.committed h.plan hr hst

/-- `acquire`: the new token is nobody else's for this turn. -/
theorem acquired_ok [DecidableEq ι] (hp : Inv turns₀ turnOf store p) (hturn : turnOf i = (s, t))
    (hep : (p.db.turn_owner (s, t)).elim 1 (· + 1) = ep) :
    Inv turns₀ turnOf store (Contract.acquired i s t ep p) ∧
      May turns₀ turnOf pid store i p (Contract.acquired i s t ep p) := by
  -- the new token is above every one that was given for the turn
  have hnew : ∀ j e, turnOf i = turnOf j → p.held j = some e → e < ep := by
    intro j e hij hj
    obtain ⟨e', he', hle⟩ := hp.epochs j e hj
    rw [← hij, hturn] at he'
    exact Nat.lt_of_le_of_lt hle (Contract.lt_of_acquire hep he')
  refine ⟨⟨hp.plans, fun j k e hjk hturns hj hk => ?_, fun j e hj => ?_, hp.no_links, hp.receipts,
    hp.committed⟩, May.same_files rfl fun _ h => h⟩
  · -- two coordinators of one turn: at most one of them has the new token
    by_cases hji : j = i
    · subst hji
      rw [Contract.acquired_held] at hj
      rw [Contract.acquired_held_of_ne (Ne.symm hjk), ← hj] at hk
      exact Nat.lt_irrefl ep (hnew k ep hturns hk)
    · rw [Contract.acquired_held_of_ne hji] at hj
      by_cases hki : k = i
      · subst hki
        rw [Contract.acquired_held, ← hj] at hk
        exact Nat.lt_irrefl ep (hnew j ep hturns.symm hk.symm)
      · rw [Contract.acquired_held_of_ne hki] at hk
        exact hp.tokens j k e hjk hturns hj hk
  · by_cases hji : j = i
    · subst hji
      rw [Contract.acquired_held] at hj
      rw [hturn]
      exact ⟨ep, Contract.acquired_owner, by rw [Option.some.inj hj]⟩
    · rw [Contract.acquired_held_of_ne hji] at hj
      obtain ⟨e', he', hle⟩ := hp.epochs j e hj
      obtain ⟨e'', he'', hle'⟩ := Contract.acquired_epoch hep he'
      exact ⟨e'', he'', Nat.le_trans hle hle'⟩

end Contract

/-! ## The workers

One assertion for each point between two file operations (`phases`), as `do_overlay` goes through them. -/

section Programs

variable {turns₀ : Table (String × String) TurnRow} {turnOf : ι → String × String} {pid : ι → Nat}
  {store : String} {i : ι} {pg : Bool} {s t : String}

/-- The stages of one overlay of the turn. -/
def phases (turns₀ : Table (String × String) TurnRow) (pid : ι → Nat) (store : String) (i : ι) (s t cid : String)
    (o : Ordinal) (args : Json) (ep : Nat) (step : Json) (steps : List Json) : Contract.Phases ι where
  before := Underway turns₀ store i s t cid ep (step :: steps)
  writing n k p := Underway turns₀ store i s t cid ep (step :: steps) p ∧
    p.files.dir (DTX.overlayTmp store (action_id s t cid o) (pid i) ep) = some n ∧
    ∃ text, canonical_args args = some text ∧ p.files.data n = (Sha256.encode text).take k
  written p := Underway turns₀ store i s t cid ep (step :: steps) p ∧
    ∃ n, p.files.dir (DTX.overlayTmp store (action_id s t cid o) (pid i) ep) = some n ∧
      Complete args (p.files.data n)
  published p := Underway turns₀ store i s t cid ep (step :: steps) p ∧
    (p.files.dir (DTX.receipt store (action_id s t cid o))).isSome
  ready p := Underway turns₀ store i s t cid ep (step :: steps) p ∧
    (p.files.dir (DTX.receipt store (action_id s t cid o))).isSome
  after := Underway turns₀ store i s t cid ep steps

variable {cid : String} {o : Ordinal} {args step : Json} {ep : Nat} {steps : List Json}

/-- The temporary file of the step at hand. -/
theorem isTemp {p : Public ι} (hturn : turnOf i = (s, t)) (ho : ordinalOf step = .ok o)
    (hargs : subscript step "args" = .ok args) (h : Underway turns₀ store i s t cid ep (step :: steps) p) :
    IsTemp turns₀ turnOf pid store p.held i (DTX.overlayTmp store (action_id s t cid o) (pid i) ep) := by
  refine ⟨cid, o, args, ep, ?_, h.held, ?_⟩
  · rw [hturn]
    exact h.isStep ho hargs
  · rw [hturn]

/-- Nobody else touches it. -/
theorem temp_kept {p p' : Public ι} {j : ι} {P : FsPath} {n : Nat} (hids : DistinctIds turns₀)
    (hp : Inv turns₀ turnOf store p) (hij : j ≠ i) (hmay : May turns₀ turnOf pid store j p p')
    (hP : IsTemp turns₀ turnOf pid store p.held i P) (hn : p.files.dir P = some n) :
    p'.files.dir P = some n ∧ p'.files.data n = p.files.data n := by
  have hnot : ¬ IsTemp turns₀ turnOf pid store p.held j P := fun hj => hij (temp_unique hids hp hj hP)
  obtain ⟨hdir, hdata⟩ := hmay.elsewhere P hnot (temp_dir hP)
  exact ⟨hdir.trans hn, hdata n hn⟩

theorem overlayOk (hord : DistinctOrdinals turns₀) (hids : DistinctIds turns₀) (hturn : turnOf i = (s, t))
    (ho : ordinalOf step = .ok o) (hargs : subscript step "args" = .ok args) :
    Contract.OverlayOk (contract turns₀ turnOf pid store) ⟨i, pg, pid i⟩ s t cid o args ep store
      (phases turns₀ pid store i s t cid o args ep step steps) where
  before := Underway.keeps
  writing n k := by
    rintro j p p' hji hp hp' hmay hheld - ⟨hf, hn, text, htext, hdata⟩
    obtain ⟨hn', hdata'⟩ := temp_kept hids hp hji hmay (isTemp hturn ho hargs hf) hn
    exact ⟨hf.mono hheld hmay, hn', text, htext, hdata'.trans hdata⟩
  written := by
    rintro j p p' hji hp hp' hmay hheld - ⟨hf, n, hn, hdata⟩
    obtain ⟨hn', hdata'⟩ := temp_kept hids hp hji hmay (isTemp hturn ho hargs hf) hn
    exact ⟨hf.mono hheld hmay, n, hn', by rw [hdata']; exact hdata⟩
  published := by
    rintro j p p' hji hp hp' hmay hheld - ⟨hf, hsome⟩
    exact ⟨hf.mono hheld hmay, hmay.receipt_isSome hsome⟩
  ready := by
    rintro j p p' hji hp hp' hmay hheld - ⟨hf, hsome⟩
    exact ⟨hf.mono hheld hmay, hmay.receipt_isSome hsome⟩
  after := Underway.keeps
  exists_ p hp hf _ hexists := ⟨hf, hexists⟩
  open_ p text htext hp hf := by
    obtain ⟨hinv, hmay⟩ := temp_ok hp (isTemp hturn ho hargs hf) (FileSys.onlyAt_openTrunc hp.no_links _)
    exact ⟨hinv, hmay, hf.mono rfl hmay, FileSys.openTrunc_dir_self _ _, text, htext,
      FileSys.openTrunc_data_self _ _⟩
  write p text n k b htext hb hp hw := by
    obtain ⟨hf, hn, text', htext', hdata⟩ := hw
    -- the temporary file was opened for this very text
    cases htext.symm.trans htext'
    obtain ⟨hinv, hmay⟩ := temp_ok hp (isTemp hturn ho hargs hf) (FileSys.onlyAt_write hp.no_links hn k [b])
    refine ⟨hinv, hmay, hf.mono rfl hmay, hn, text, htext, ?_⟩
    show (p.files.write n k [b]).data n = _
    rw [FileSys.write_data_self, hdata, FileSys.overwrite_take hb]
  fsync p text n htext hp hw := by
    obtain ⟨hf, hn, text', htext', hdata⟩ := hw
    cases htext.symm.trans htext'
    obtain ⟨hinv, hmay⟩ := temp_ok hp (isTemp hturn ho hargs hf) (FileSys.onlyAt_fsync hp.no_links n)
    refine ⟨hinv, hmay, hf.mono rfl hmay, n, hn, text, htext, ?_⟩
    rw [List.take_length] at hdata
    exact hdata
  replace p fs hp hw hr := by
    obtain ⟨hf, n, hn, hdata⟩ := hw
    obtain ⟨hinv, hmay, hsome⟩ :=
      replaced_ok hord hids hp (isTemp hturn ho hargs hf) (hf.isStep ho hargs) hn hdata hr
    exact ⟨hinv, hmay, hf.mono rfl hmay, hsome⟩
  fsyncDir p hp hpub := by
    obtain ⟨hinv, hmay⟩ := temp_ok hp (isTemp hturn ho hargs hpub.1)
      (FileSys.onlyAt_fsyncDir hp.no_links (store ++ "/committed"))
    exact ⟨hinv, hmay, hpub.1.mono rfl hmay, hpub.2⟩
  record p afp hp hr _ hnone := by
    obtain ⟨hinv, hmay⟩ := recorded_ok i pid (action_id s t cid o) (DTX.receiptRow s t o afp ep) hp
    have hf : Underway turns₀ store i s t cid ep (step :: steps)
        (p.commit [.insertAction (action_id s t cid o) (DTX.receiptRow s t o afp ep)]) := hr.1.mono rfl hmay
    -- row and receipt are both there: the step is done
    refine ⟨hinv, hmay, hf.next ⟨o, args, ho, hargs, hmay.receipt_isSome hr.2, ?_⟩⟩
    show (Function.update p.db.actions (action_id s t cid o) _ (action_id s t cid o)).isSome
    rw [Function.update_self]
    rfl
  recorded p hp hr hsome := hr.1.next ⟨o, args, ho, hargs, hr.2, hsome⟩

variable [DecidableEq ι] [Driver]

/-- **Every worker keeps the contract.** -/
theorem worker_spec (hord : DistinctOrdinals turns₀) (hids : DistinctIds turns₀) (hturn : turnOf i = (s, t)) :
    ((contract turns₀ turnOf pid store).rules pg).Triple i (Contract.Unstarted pg i)
      (overlayWorker ⟨i, pg, pid i⟩ store s t) (fun _ _ => True) fun _ _ => True := by
  refine Contract.gateWorker (c := ⟨i, pg, pid i⟩) (A := fun ep p => p.held i = some ep)
    (F := Underway turns₀ store i s t) ?_ (fun ep => Contract.keeps_held _) (fun cid ep => Underway.keeps)
    ?_ ?_ fun cid ep p => committed_ok
  · refine Contract.acquire (c := ⟨i, pg, pid i⟩) (Contract.keeps_held none) fun p ep hp _ hep => ?_
    obtain ⟨hinv, hmay⟩ := acquired_ok hp hturn hep
    exact ⟨hinv, hmay, Contract.acquired_held⟩
  · exact fun ep p r plan items hp hheld hr hplan hitems => Underway.start hp hheld hr hplan hitems
  · intro cid ep step steps o args ho hargs
    have hok : Contract.OverlayOk (contract turns₀ turnOf pid store) ⟨i, pg, pid i⟩ s t cid o args ep store
        (phases turns₀ pid store i s t cid o args ep step steps) := overlayOk hord hids hturn ho hargs
    refine RelyGuarantee.Triple.bind (Contract.do_overlay hok) fun _ => ?_
    exact fun _ _ hat _ => hat

end Programs

/-! ## Runs

From the triples of the workers to every state of every run. -/

/-- Before the run: plans are stored, all turns are open, and nothing is published. -/
structure Start (store : String) (w : World ι) : Prop where
  quiescent : Quiescent w
  open_turns : ∀ k r, w.server.db.turns k = some r → r.state = .open
  no_links : w.files.NoLinks
  no_receipts : ∀ P, P.dir = committedDir store → w.files.dir P = none

/-- The workers of a run: the turn each one works on, and its process. -/
structure Crew (ι : Type) where
  turn : ι → String × String
  pid : ι → Nat

section Workers

variable [DecidableEq ι] [Driver]

def Crew.system (crew : Crew ι) (pg : Bool) (store : String) : System ι Empty Stmt (World ι) Exn Unit :=
  Dtx.system fun i => overlayWorker ⟨i, pg, crew.pid i⟩ store (crew.turn i).1 (crew.turn i).2

/-- What the receipts say. -/
structure ExactlyOnce (store : String) (db : Db) (files : FileSys) : Prop where
  complete : ∀ P bytes, P.dir = committedDir store → files.read P = some bytes → ∃ s t cid o args,
    IsStep db.turns s t cid o args ∧ P = DTX.receipt store (action_id s t cid o) ∧ Complete args bytes
  distinct : ∀ s t cid o args o' args', IsStep db.turns s t cid o args → IsStep db.turns s t cid o' args' →
    o ≠ o' → DTX.receipt store (action_id s t cid o) ≠ DTX.receipt store (action_id s t cid o') ∧
      ∀ n, files.dir (DTX.receipt store (action_id s t cid o)) = some n →
        files.dir (DTX.receipt store (action_id s t cid o')) ≠ some n
  committed : ∀ s t r, db.turns (s, t) = some r → r.state = .committed → ∀ step ∈ planSteps r,
    ∃ o args bytes, ordinalOf step = .ok o ∧ subscript step "args" = .ok args ∧ Complete args bytes ∧
      files.read (DTX.receipt store (action_id s t r.commit_id o)) = some bytes ∧
      (db.actions (action_id s t r.commit_id o)).isSome

omit [DecidableEq ι] [Driver] in
theorem Inv.exactlyOnce {turns₀ : Table (String × String) TurnRow} {turnOf : ι → String × String}
    {store : String} {p : Public ι} (hp : Inv turns₀ turnOf store p) (hord : DistinctOrdinals turns₀)
    (hids : DistinctIds turns₀) : ExactlyOnce store p.db p.files := by
  have hback : ∀ {s t cid : String} {o : Ordinal} {args : Json}, IsStep p.db.turns s t cid o args →
      IsStep turns₀ s t cid o args := fun h => h.congr fun k => (hp.plans k).symm
  refine ⟨fun P bytes hP hread => ?_, fun s t cid o args o' args' h h' hne => ?_,
    fun s t r hr hst step hmem => ?_⟩
  · obtain ⟨n, hn, rfl⟩ := Option.map_eq_some_iff.mp hread
    obtain ⟨s, t, cid, o, args, hstep, hname, hcomplete⟩ := hp.receipts P n hP hn
    exact ⟨s, t, cid, o, args, hstep.congr hp.plans, hname, hcomplete⟩
  · have hpath : DTX.receipt store (action_id s t cid o) ≠ DTX.receipt store (action_id s t cid o') :=
      fun he => hne (hids _ _ _ _ _ _ _ _ _ _ (hback h) (hback h') (receipt_injective he)).2.2
    exact ⟨hpath, fun n hn hn' => hpath (hp.no_links _ _ n hn hn')⟩
  · obtain ⟨o, args, ho, hargs, hfile, haction⟩ := hp.committed s t r hr hst step hmem
    obtain ⟨n, hn⟩ := Option.isSome_iff_exists.mp hfile
    obtain ⟨s', t', cid', o', args', hstep', hname, hcomplete⟩ := hp.receipts _ n rfl hn
    have hstep : IsStep turns₀ s t r.commit_id o args := hback ⟨r, hr, rfl, step, hmem, ho, hargs⟩
    obtain ⟨-, -, -, rfl⟩ := hstep.unique hord hids hstep' (receipt_injective hname)
    refine ⟨o, args, p.files.data n, ho, hargs, hcomplete, ?_, haction⟩
    rw [FileSys.read, hn]
    rfl

/-- **Receipts are exactly-once and never torn**, and no step removes or changes one. -/
theorem receipts_exactly_once (crew : Crew ι) (pg : Bool) (store : String) (w₀ : World ι) (h₀ : Start store w₀)
    (hord : DistinctOrdinals w₀.server.db.turns) (hids : DistinctIds w₀.server.db.turns)
    (c : Config ι Stmt (World ι) Exn Unit) (hc : (crew.system pg store).Reachable (· = w₀) c) :
    ExactlyOnce store c.shared.server.db c.shared.files ∧
      ∀ l c', (crew.system pg store).step c l = some c' → ∀ P bytes, P.dir = committedDir store →
        c.shared.files.read P = some bytes → c'.shared.files.read P = some bytes := by
  have hverified : RelyGuarantee.Verified (crew.system pg store)
      ((contract w₀.server.db.turns crew.turn crew.pid store).rules pg) (Contract.Unstarted pg) :=
    Contract.verified fun _ => worker_spec hord hids rfl
  -- nothing is published, and no token given out
  have hstart : Inv w₀.server.db.turns crew.turn store w₀.pub := by
    refine ⟨fun _ => .refl _, fun i j e _ _ hi => ?_, fun i e hi => ?_, h₀.no_links, fun P n hP hn => ?_,
      fun s t r hr hst => ?_⟩
    · rw [show w₀.pub.held i = none from h₀.quiescent.held i] at hi
      cases hi
    · rw [show w₀.pub.held i = none from h₀.quiescent.held i] at hi
      cases hi
    · rw [show w₀.pub.files.dir P = none from h₀.no_receipts P hP] at hn
      cases hn
    · rw [h₀.open_turns (s, t) r hr] at hst
      cases hst
  have hinit := Contract.init_of_quiescent (C := contract w₀.server.db.turns crew.turn crew.pid store) pg
    h₀.quiescent hstart
  refine ⟨(hverified.inv (fun _ _ _ => trivial) hinit hc).2.exactlyOnce hord hids,
    fun l c' hstep P bytes hP hread => ?_⟩
  -- a step that is not a process's own changes nothing that is public
  have hguar : ∀ i t, l = .next i t →
      ((contract w₀.server.db.turns crew.turn crew.pid store).rules pg).Guar i t c.shared c'.shared := by
    rintro i t rfl
    exact hverified.guar (fun _ _ _ => trivial) hinit hc hstep
  rcases Contract.may_step hguar hstep with ⟨i, t, -, hmay⟩ | hsame
  · exact hmay.receipts P bytes hP hread
  · have hfiles : c'.shared.files = c.shared.files := congrArg Public.files hsame
    rw [hfiles]
    exact hread

end Workers

/-! A worker that runs the plan of two equal steps. -/

section Twice

local instance driver : Driver := .postgres

def twice : World Bool := ⟨rest { Db.empty with turns := twiceTurns }, .empty, fun _ => none⟩

def twiceCrew : Crew Bool := ⟨fun _ => ("s", "t"), fun _ => 1⟩

theorem start_twice : Start "/x" twice where
  quiescent := quiescent_rest _ _
  open_turns k r hr := by rw [twiceTurns_eq hr, twiceRow]
  no_links _ _ _ h := nomatch h
  no_receipts _ _ := rfl

/-- The worker, alone, publishes both receipts. -/
theorem run_twice : ∃ w, (overlayWorker ⟨true, true, 1⟩ "/x" "s" "t").run twice = some (.ok (), w) ∧
    ∀ o ∈ ([0, 1] : List Int), (w.files.dir (DTX.receipt "/x" (action_id "s" "t" "c" o))).isSome := by
  obtain ⟨afp, hafp⟩ : ∃ afp, args_fingerprint (.obj [(.str "order", .str "O"), (.str "amount", .int 5)]) =
      some afp := exists_args_fingerprint rfl
  obtain ⟨text, htext, -⟩ := Option.map_eq_some_iff.mp hafp
  have hne : DTX.receipt "/x" (action_id "s" "t" "c" (.int 1)) ≠ DTX.receipt "/x" (action_id "s" "t" "c" (.int 0)) :=
    fun he => twice_ids (receipt_injective he)
  have htmp : ∀ aid aid' : String, DTX.receipt "/x" aid ≠ DTX.overlayTmp "/x" aid' 1 1 :=
    fun aid aid' => receipt_ne_overlayTmp "/x" aid aid' 1 1
  have hempty : ∀ P, FileSys.empty.dir P = none := fun _ => rfl
  have hrow : twiceTurns ("s", "t") = some twiceRow := Function.update_self ..
  -- one receipt after the other
  let x : DTX Bool := ⟨true, true, 1⟩
  let held : Bool → Option Nat := Function.update (fun _ => none) true (some 1)
  let db : Db := (Write.setOwner "s" "t" 1).apply { Db.empty with turns := twiceTurns }
  obtain ⟨fs₁, n₁, hrun₁, hdir₁, -⟩ := DTX.run_do_overlay_new x db held 1 hafp htext twice_taken.1
    (hempty (DTX.receipt "/x" (action_id "s" "t" "c" (.int 0))))
  have hnone : fs₁.dir (DTX.receipt "/x" (action_id "s" "t" "c" (.int 1))) = none := by
    rw [hdir₁, Function.update_of_ne hne, Function.update_of_ne (htmp _ _), hempty]
  obtain ⟨fs₂, n₂, hrun₂, hdir₂, -⟩ := DTX.run_do_overlay_new x
    (DTX.recorded (action_id "s" "t" "c" (.int 0)) (DTX.receiptRow "s" "t" (.int 0) afp 1) db) held 1 hafp htext
    twice_taken.2 hnone
  have hfound : ∀ o ∈ ([0, 1] : List Int), (fs₂.dir (DTX.receipt "/x" (action_id "s" "t" "c" o))).isSome := by
    intro o ho
    rcases List.mem_pair.mp ho with rfl | rfl
    · rw [hdir₂, Function.update_of_ne (Ne.symm hne), Function.update_of_ne (htmp _ _), hdir₁,
        Function.update_self]
      rfl
    · rw [hdir₂, Function.update_self]
      rfl
  let action : String → Ordinal → Json → Nat → DtxProg Bool Bool := fun cid o args ep => do
    let _ ← x.do_overlay "s" "t" cid o args ep "/x"
    pure true
  have haction : ∀ {o : Ordinal} {w w' : World Bool} {args : Json} {r : Tag × FsPath},
      (x.do_overlay "s" "t" "c" o args 1 "/x").run w = some (.ok r, w') →
      (action "c" o args 1).run w = some (.ok true, w') := by
    intro o w w' args r hrun
    simp [action, hrun]
  let row := DTX.receiptRow "s" "t"
  let db' := DTX.recorded (action_id "s" "t" "c" (.int 1)) (row (.int 1) afp 1)
    (DTX.recorded (action_id "s" "t" "c" (.int 0)) (row (.int 0) afp 1) db)
  have hsteps : (gateWorker.steps x "s" "t" action twiceRow.commit_id 1 [twiceStep 0, twiceStep 1]).run
      ⟨rest db, .empty, held⟩ = some (.ok (), ⟨rest ((Write.setCommitted "s" "t").apply db'), fs₂, held⟩) := by
    rw [twiceRow_commit_id, DTX.run_steps_cons x (twiceStep_ordinal 0) (twiceStep_args 0) (haction hrun₁),
      DTX.run_steps_cons x (twiceStep_ordinal 1) (twiceStep_args 1) (haction hrun₂), DTX.run_steps_nil]
  exact ⟨_, DTX.run_gateWorker x hrow loads_twice rfl rfl hsteps, hfound⟩

theorem receipts_exactly_once_twice : ∃ c, (twiceCrew.system true "/x").Reachable (· = twice) c ∧
    (∀ o ∈ ([0, 1] : List Int), (c.shared.files.dir (DTX.receipt "/x" (action_id "s" "t" "c" o))).isSome) ∧
    ExactlyOnce "/x" c.shared.server.db c.shared.files := by
  obtain ⟨w, hrun, hfound⟩ := run_twice
  have hstart : (twiceCrew.system true "/x").Reachable (· = twice) ⟨twice, fun _ => .fresh⟩ :=
    Lts.Reachable.start ⟨rfl, fun _ => rfl⟩
  have hdone := System.Reachable.run (hstart.spawn (i := true) rfl) (Function.update_self ..) hrun
  exact ⟨_, hdone, hfound,
    (receipts_exactly_once twiceCrew true "/x" twice start_twice distinctOrdinals_twice distinctIds_twice _
      hdone).1⟩

end Twice

end AgentTx.Dtx.Overlay
