import AgentTx.Checker.Distributed

/-!
# `Checker.Retryable` — whether an action can still be executed (`agenttx/dmodel.py`)

The checker looks at states one by one; here the question is what can still be reached from them, with no bound
on the epochs. The classes that claim first and take effect later leave a claim behind when they crash, under an
epoch that nobody is given again, and a later owner backs off from it, whatever the class (`Orphaned`). Until
then the action can be executed (`commits_of_executable`), so that the state decides which of the two it is.

Layout of the proof:
* **A claim without its holder** — `Orphaned.step`: no step of anybody makes the action executable again.
* **A claim with its holder** — `Underway`: the holder still stands where it claimed, so it can go on.
* **The way to the commit** — backwards from the commit, one step at a time (`commits_of_effecting` up to
  `commits_of_start`).
* **Runs that spare the claimant** — an executable action stays so while the claimant does not crash.

Main results: `commits_iff`, in every reachable state, and `not_commits_crashed`.
-/

namespace AgentTx.Checker.Distributed

variable {ι : Type} [DecidableEq ι] {klass : Klass} {s s' : State ι} {i j : ι}

/-- Some transitions lead to the commit. -/
def Commits (klass : Klass) (s : State ι) : Prop :=
  ∃ is s', Lts.Exec (Step none klass) s is s' ∧ s'.committed = true

/-- The class has no claim of its own, or nobody has claimed, or the one who has is alive and the owner. -/
def Executable (klass : Klass) (s : State ι) : Prop :=
  klass = .transactional ∨ s.claimed_by = 0 ∨
    (s.claimed_by = s.owner_epoch ∧ ∃ i, (s.c i).1 = some s.claimed_by)

/-! ## A claim without its holder

The claim says under which epoch it was made; whoever acquires next has another one, and so has everybody after it. -/

/-- The action is claimed, and whoever claimed it is dead or overtaken. -/
structure Orphaned (klass : Klass) (s : State ι) : Prop where
  klass : klass ≠ .transactional
  committed : s.committed = false
  claimed : s.claimed_by ≠ 0
  holder : s.claimed_by = s.owner_epoch → ∀ i, (s.c i).1 ≠ some s.claimed_by

omit [DecidableEq ι] in
theorem orphaned_of_not (hcommitted : s.committed = false) (h : ¬ Executable klass s) : Orphaned klass s where
  klass hklass := h (Or.inl hklass)
  committed := hcommitted
  claimed hfree := h (Or.inr (Or.inl hfree))
  holder howner i hi := h (Or.inr (Or.inr ⟨howner, i, hi⟩))

omit [DecidableEq ι] in
/-- The claim is not the owner's. -/
theorem Orphaned.not_owner (h : Orphaned klass s) (hke : (s.c i).1 = some s.owner_epoch) :
    s.claimed_by ≠ s.owner_epoch := by
  intro howner
  apply h.holder howner i
  rw [hke, howner]

/-- A step that leaves the durable state and makes nobody know a new epoch. -/
theorem Orphaned.with_c {ke : Option Nat} {pc : Pc} (h : Orphaned klass s) (hke : ke = none ∨ ke = (s.c i).1) :
    Orphaned klass (s.with_c i ke pc) := by
  refine ⟨h.klass, h.committed, h.claimed, fun howner j => ?_⟩
  by_cases hj : j = i
  · subst hj
    simp only [State.with_c, Function.update_self]
    rcases hke with rfl | rfl
    · simp
    · exact h.holder howner j
  · simp only [State.with_c, Function.update_of_ne hj]
    exact h.holder howner j

/-- **Step.** Nothing helps an orphaned action. -/
theorem Orphaned.step (h : Orphaned klass s) (hinv : Inv klass s) (hstep : Kind klass s i s') :
    Orphaned klass s' := by
  cases hstep with
  | crash => exact h.with_c (Or.inl rfl)
  | acquire =>
    -- the claim is of an earlier epoch than the new owner's
    refine ⟨h.klass, h.committed, h.claimed, fun howner => ?_⟩
    have hle := hinv.claimed
    simp only [State.with_c] at howner
    omega
  | rest hpc => exact h.with_c (Or.inr rfl)
  | transact hke hcommitted hklass => exact absurd hklass h.klass
  | claim hke hcommitted hklass hfree =>
    rcases hfree with hfree | hmine
    · exact absurd hfree h.claimed
    · exact absurd hmine (h.not_owner hke)
  | begin hpc hke hcommitted =>
    obtain ⟨-, hclaim, -⟩ := (hinv.local_ i).claim (Or.inl hpc)
    rw [hke] at hclaim
    exact absurd (Option.some.inj hclaim).symm (h.not_owner hke)
  | effect hpc hke hn =>
    obtain ⟨-, hclaim, -⟩ := (hinv.local_ i).claim (Or.inr hpc)
    rw [hke] at hclaim
    exact absurd (Option.some.inj hclaim).symm (h.not_owner hke)
  | ambiguous hke hcommitted hclaimed hother hklass =>
    have hs : Orphaned klass (s.with_c i (some s.owner_epoch) .uncertain) := h.with_c (Or.inr hke.symm)
    exact ⟨hs.klass, hs.committed, hs.claimed, hs.holder⟩

/-- **Run.** It is never executed. -/
theorem Orphaned.not_commits (h : Orphaned klass s) (hs : Reachable none klass s) : ¬ Commits klass s := by
  rintro ⟨is, s', hrun, hcommitted⟩
  have horphaned : Reachable none klass s' ∧ Orphaned klass s' := by
    refine hrun.invariant (fun t => Reachable none klass t ∧ Orphaned klass t) ?_ ⟨hs, h⟩
    rintro t i u ⟨ht, hot⟩ hstep
    exact ⟨ht.step hstep, hot.step (inv_of_reachable ht) (kind_of_step hstep)⟩
  rw [horphaned.2.committed] at hcommitted
  cases hcommitted

/-! ## A claim with its holder

The holder is the one coordinator that is past the claim with the owner epoch. -/

/-- Whoever knows the epoch of the claim is past the claim, unless the action is done. -/
def Underway (s : State ι) : Prop :=
  ∀ i, (s.c i).1 = some s.claimed_by → s.committed = true ∨ (s.c i).2 = .claimed ∨ (s.c i).2 = .effecting

/-- A coordinator past its claim crashes, begins its effect or brings it to an end. -/
theorem step_past_claim {MAX_EPOCH : Option Nat} (h : Step MAX_EPOCH klass s i s')
    (hpc : (s.c i).2 = .claimed ∨ (s.c i).2 = .effecting) :
    (s'.c i).1 = none ∨ s'.committed = true ∨ (s'.c i).2 = .effecting := by
  unfold Step successors at h
  simp only [List.mem_append] at h
  rcases h with ((((h | h) | h) | h) | h) | h
  · obtain ⟨-, h⟩ := mem_ite h
    rw [List.mem_singleton.mp h]
    simp [State.with_c]
  · obtain ⟨⟨hstart, -⟩, -⟩ := mem_ite h
    simp [hstart] at hpc
  · obtain ⟨hacquired, -⟩ := mem_ite h
    simp [hacquired] at hpc
  · obtain ⟨-, h⟩ := mem_ite h
    rw [List.mem_singleton.mp h]
    simp [State.with_c]
  · obtain ⟨-, h⟩ := mem_ite h
    rw [List.mem_singleton.mp h]
    simp [State.with_c]
  · obtain ⟨⟨hacquired, -⟩, -⟩ := mem_ite h
    simp [hacquired] at hpc

theorem Kind.other (h : Kind klass s i s') (hji : j ≠ i) : s'.c j = s.c j := by
  cases h <;> exact Function.update_of_ne hji ..

/-- The epoch that a coordinator is given is a new one. -/
theorem Kind.knew (h : Kind klass s i s') {e : Nat} (he : e ≤ s.owner_epoch) (hj : (s'.c j).1 = some e) :
    (s.c j).1 = some e := by
  by_cases hji : j = i
  · subst hji
    cases h with
    | crash => simp [State.with_c] at hj
    | acquire =>
      simp only [State.with_c, Function.update_self, Option.some.injEq] at hj
      omega
    | rest hpc => simpa [State.with_c] using hj
    | transact hke hcommitted hklass => simpa [State.with_c, hke] using hj
    | claim hke hcommitted hklass hfree => simpa [State.with_c, hke] using hj
    | begin hpc hke hcommitted => simpa [State.with_c, hke] using hj
    | effect hpc hke hn => simpa [State.with_c, hke] using hj
    | ambiguous hke hcommitted hclaimed hother hklass => simpa [State.with_c, hke] using hj
  · rw [← h.other hji]
    exact hj

/-- A claim is the owner's, who is past it then. -/
theorem Kind.claimed_by (h : Kind klass s i s') :
    s'.claimed_by = s.claimed_by ∨ (s'.claimed_by = s.owner_epoch ∧ (s.c i).1 = some s.owner_epoch ∧
      (s'.committed = true ∨ s'.owner_epoch = s.owner_epoch ∧ (s'.c i) = (some s.owner_epoch, .claimed))) := by
  cases h with
  | transact hke hcommitted hklass => exact Or.inr ⟨rfl, hke, Or.inl rfl⟩
  | claim hke hcommitted hklass hfree => exact Or.inr ⟨rfl, hke, Or.inr ⟨rfl, Function.update_self ..⟩⟩
  | crash => exact Or.inl rfl
  | acquire => exact Or.inl rfl
  | rest hpc => exact Or.inl rfl
  | begin hpc hke hcommitted => exact Or.inl rfl
  | effect hpc hke hn => exact Or.inl rfl
  | ambiguous hke hcommitted hclaimed hother hklass => exact Or.inl rfl

/-- **Step.** What a coordinator knows of the claim, it knew before, or it is the one who claims. -/
theorem Underway.step {MAX_EPOCH : Option Nat} (h : Underway s) (hinv : Inv klass s)
    (hstep : Step MAX_EPOCH klass s i s') : Underway s' := by
  have hkind := kind_of_step hstep
  intro j hj
  rcases hkind.claimed_by with hsame | ⟨hmine, hke, hclaims⟩
  · -- the claim stays: its coordinator goes on, or another one steps
    rw [hsame] at hj
    rcases h j (hkind.knew hinv.claimed hj) with hdone | hpc
    · exact Or.inl (hkind.keeps.1 hdone)
    · by_cases hji : j = i
      · subst hji
        rcases step_past_claim hstep hpc with hnone | hdone | heffecting
        · rw [hnone] at hj
          cases hj
        · exact Or.inl hdone
        · exact Or.inr (Or.inr heffecting)
      · rw [hkind.other hji]
        exact Or.inr hpc
  · -- this step is the claim
    rw [hmine] at hj
    have hji : j = i := hinv.distinct j i _ (hkind.knew (Nat.le_refl _) hj) hke
    subst hji
    rcases hclaims with hdone | ⟨-, hclaimed⟩
    · exact Or.inl hdone
    · rw [hclaimed]
      exact Or.inr (Or.inl rfl)

theorem underway_of_reachable {MAX_EPOCH : Option Nat} (hs : Reachable MAX_EPOCH klass s) : Underway s := by
  refine Lts.Reachable.invariant Underway ?_ (fun _ _ _ ht hu hstep => hu.step (inv_of_reachable ht) hstep) hs
  rintro _ rfl i hi
  cases hi

/-! ## The way to the commit, from its end -/

theorem Commits.of_step (s' : State ι) (hstep : Step none klass s i s') (h : Commits klass s') : Commits klass s := by
  obtain ⟨is, t, hrun, hcommitted⟩ := h
  exact ⟨[i] ++ is, t, (Lts.Exec.single hstep).trans hrun, hcommitted⟩

theorem commits_of_effecting (hpc : (s.c i).2 = .effecting) (hke : (s.c i).1 = some s.owner_epoch) :
    Commits klass s := by
  refine Commits.of_step (i := i) ({ s with
    durable_effect :=
      if klass ∈ [Klass.idempotent, .overlay] then min 1 (s.durable_effect + 1) else s.durable_effect + 1
    committed := true }.with_c i (s.c i).1 .done) ?_ ⟨[], _, .refl, rfl⟩
  simp [Step, successors, hpc, hke]

theorem commits_of_claimed (hpc : (s.c i).2 = .claimed) (hke : (s.c i).1 = some s.owner_epoch)
    (hcommitted : s.committed = false) : Commits klass s := by
  refine Commits.of_step (i := i) ({ s with effect_started := true }.with_c i (s.c i).1 .effecting) ?_ ?_
  · simp [Step, successors, hpc, hke, hcommitted]
  · apply commits_of_effecting (i := i)
    · simp [State.with_c]
    · simpa [State.with_c] using hke

/-- From the acquisition: in one transaction, or through the claim. -/
theorem commits_of_acquired (hpc : (s.c i).2 = .acquired) (hke : (s.c i).1 = some s.owner_epoch)
    (hcommitted : s.committed = false) (hfree : klass = .transactional ∨ s.claimed_by = 0) : Commits klass s := by
  by_cases hklass : klass = .transactional
  · subst hklass
    refine Commits.of_step (i := i) ({ s with
      claimed_by := (s.c i).1.getD 0, committed := true, durable_effect := s.durable_effect + 1 }.with_c i
        (s.c i).1 .done) ?_ ⟨[], _, .refl, rfl⟩
    simp [Step, successors, hpc, hke, hcommitted]
  · have hnobody : s.claimed_by = 0 := hfree.resolve_left hklass
    refine Commits.of_step (i := i) ({ s with claimed_by := (s.c i).1.getD 0 }.with_c i (s.c i).1 .claimed)
      ?_ ?_
    · simp [Step, successors, hpc, hke, hcommitted, hklass, hnobody]
    · apply commits_of_claimed (i := i)
      · simp [State.with_c]
      · simpa [State.with_c] using hke
      · exact hcommitted

theorem commits_of_start (hpc : (s.c i).2 = .start) (hcommitted : s.committed = false)
    (hfree : klass = .transactional ∨ s.claimed_by = 0) : Commits klass s := by
  refine Commits.of_step (i := i)
    ({ s with owner_epoch := s.owner_epoch + 1 }.with_c i (some (s.owner_epoch + 1)) .acquired) ?_ ?_
  · simp [Step, successors, hpc, below]
  · apply commits_of_acquired (i := i)
    · simp [State.with_c]
    · simp [State.with_c]
    · exact hcommitted
    · exact hfree

/-- An action that is not claimed: any coordinator may crash, acquire and execute it. -/
theorem commits_of_free (i : ι) (hcommitted : s.committed = false)
    (hfree : klass = .transactional ∨ s.claimed_by = 0) : Commits klass s := by
  by_cases hpc : (s.c i).2 = .start
  · exact commits_of_start hpc hcommitted hfree
  · refine Commits.of_step (i := i) (s.with_c i none .start) ?_ ?_
    · simp [Step, successors, hpc]
    · exact commits_of_start (i := i) (by simp [State.with_c]) hcommitted hfree

theorem commits_of_executable [Inhabited ι] (hu : Underway s) (hcommitted : s.committed = false)
    (h : Executable klass s) : Commits klass s := by
  rcases h with hklass | hfree | ⟨howner, i, hi⟩
  · exact commits_of_free default hcommitted (Or.inl hklass)
  · exact commits_of_free default hcommitted (Or.inr hfree)
  · have hke : (s.c i).1 = some s.owner_epoch := by rw [hi, howner]
    rcases hu i hi with hdone | hclaimed | heffecting
    · rw [hcommitted] at hdone
      cases hdone
    · exact commits_of_claimed hclaimed hke hcommitted
    · exact commits_of_effecting heffecting hke

/-! ## Runs that spare the claimant

The only step that makes an action stuck is the crash of the one that claimed it. -/

/-- A step that finds the action claimed and not committed neither overtakes the claimant nor ends it. -/
def Spares (s s' : State ι) : Prop :=
  s.claimed_by ≠ 0 → s.committed = false →
    s'.owner_epoch = s.owner_epoch ∧ ∀ i, (s.c i).1 = some s.claimed_by → (s'.c i).1 = some s.claimed_by

theorem Kind.open_before (h : Kind klass s i s') (hopen : s'.committed = false) : s.committed = false := by
  refine Bool.eq_false_iff.mpr fun hdone => ?_
  rw [h.keeps.1 hdone] at hopen
  cases hopen

/-- **Step.** -/
theorem Executable.step (h : Executable klass s) (hspares : Spares s s') (hstep : Kind klass s i s')
    (hopen : s'.committed = false) : Executable klass s' := by
  rcases hstep.claimed_by with hsame | ⟨hmine, -, hdone | ⟨howner, hclaimed⟩⟩
  · have hbefore := hstep.open_before hopen
    rcases h with hklass | hfree | ⟨howner, j, hj⟩
    · exact Or.inl hklass
    · exact Or.inr (Or.inl (hsame.trans hfree))
    · by_cases hfree : s.claimed_by = 0
      · exact Or.inr (Or.inl (hsame.trans hfree))
      · obtain ⟨hepoch, halive⟩ := hspares hfree hbefore
        refine Or.inr (Or.inr ⟨?_, j, ?_⟩)
        · rw [hsame, hepoch, howner]
        · rw [hsame]
          exact halive j hj
  · rw [hopen] at hdone
    cases hdone
  · -- the claimant of this step
    refine Or.inr (Or.inr ⟨hmine.trans howner.symm, i, ?_⟩)
    rw [hclaimed, hmine]

theorem executable_of_spared
    (hs : Lts.Reachable (fun s i s' => Step none klass s i s' ∧ Spares s s') (· = initial) s)
    (hopen : s.committed = false) : Executable klass s := by
  revert hopen
  refine Lts.Reachable.invariant (fun t => t.committed = false → Executable klass t) ?_ ?_ hs
  · rintro _ rfl -
    exact Or.inr (Or.inl rfl)
  · rintro t i u - ht ⟨hstep, hspares⟩ hopen
    have hkind := kind_of_step hstep
    exact (ht (hkind.open_before hopen)).step hspares hkind hopen

/-- **What a crash leaves of an action.** In every reachable state in which it is not committed, the action can
    still be executed exactly if its class makes no claim of its own, nobody has claimed it, or the claimant is
    alive and the owner; and so it can in every state of a run in which no step overtakes or ends a claimant. -/
theorem commits_iff [Inhabited ι] (klass : Klass) (s : State ι) (hs : Reachable none klass s)
    (hopen : s.committed = false) :
    (Commits klass s ↔ Executable klass s) ∧
      (Lts.Reachable (fun s i s' => Step none klass s i s' ∧ Spares s s') (· = initial) s → Commits klass s) := by
  have hcommits : Executable klass s → Commits klass s := commits_of_executable (underway_of_reachable hs) hopen
  refine ⟨⟨fun h => ?_, hcommits⟩, fun hspared => hcommits (executable_of_spared hspared hopen)⟩
  by_contra hnot
  exact (orphaned_of_not hopen hnot).not_commits hs h

/-- One coordinator has claimed, and may go on. -/
theorem commits_iff_claimed :
    ∃ s : State (Fin 2), Reachable none .idempotent s ∧ s.claimed_by = 1 ∧ Commits .idempotent s := by
  let claims : List (Fin 2 × Nat) := [(0, 0), (0, 1)]
  have hrun : ∃ s : State (Fin 2), Lts.runAll (take none .idempotent) initial claims = some s ∧
      s.claimed_by = 1 ∧ s.committed = false ∧ s.owner_epoch = 1 ∧ (s.c 0).1 = some 1 :=
    ⟨_, rfl, rfl, rfl, rfl, rfl⟩
  obtain ⟨s, hs, hclaimed, hopen, howner, hholder⟩ := hrun
  have hreach : Reachable none .idempotent s := reachable_of_runAll (Lts.Reachable.start rfl) hs
  refine ⟨s, hreach, hclaimed, (commits_iff .idempotent s hreach hopen).1.mpr ?_⟩
  exact Or.inr (Or.inr ⟨by rw [hclaimed, howner], 0, by rw [hholder, hclaimed]⟩)

/-- **A claimant that crashes leaves an action that nobody can execute**: an idempotent one, with two
    coordinators. -/
theorem not_commits_crashed :
    ∃ s : State (Fin 2), Reachable none .idempotent s ∧ s.committed = false ∧ ¬ Commits .idempotent s := by
  let crashes : List (Fin 2 × Nat) := [(0, 0), (0, 1), (0, 0)]
  have hrun : ∃ s : State (Fin 2), Lts.runAll (take none .idempotent) initial crashes = some s ∧
      s.claimed_by = 1 ∧ s.committed = false ∧ (∀ i, (s.c i).1 = none) :=
    ⟨_, rfl, rfl, rfl, by decide⟩
  obtain ⟨s, hs, hclaimed, hopen, hdead⟩ := hrun
  have hreach : Reachable none .idempotent s := reachable_of_runAll (Lts.Reachable.start rfl) hs
  have horphaned : Orphaned .idempotent s := by
    refine ⟨by simp, hopen, by simp [hclaimed], fun _ i => ?_⟩
    rw [hdead i]
    simp
  exact ⟨s, hreach, hopen, horphaned.not_commits hreach⟩

end AgentTx.Checker.Distributed
