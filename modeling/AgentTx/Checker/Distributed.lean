import AgentTx.Lib.Lts
import Mathlib.Data.List.Basic
import Mathlib.Logic.Function.Basic

/-!
# `Checker.Distributed` — the distributed model without its bounds (`agenttx/dmodel.py`)

The checker enumerates two coordinators up to epoch 5. Here the coordinators are the elements of any type and
`MAX_EPOCH` is any bound or none. An inductive invariant relates the epochs that coordinators hold, the claim
and the effect (`Inv`); what the checker looks for, and the clause on stale owners that it does not look for,
follow (`safe`).

Layout of the proof:
* **Inversion** — `kind_of_step`: the successors that the source lists, as an inductive type with one constructor for
  each kind of step. All that follows is by cases on it.
* **The invariant** — `Local` for each coordinator and `Inv` for all. `Inv.owner_moves` and `Inv.acquire` are the two
  kinds of step that change it; the others leave what it speaks of.
* **Safety** — what is committed stays, and only the owner commits (`Kind.keeps`, `Kind.owner`).

Main result: `safe`; the runs at the end show that each of its cases occurs.
-/

namespace AgentTx.Checker.Distributed

/-- The tool classes of the model. -/
inductive Klass where
  | transactional
  | idempotent
  | overlay
  | irreversible
  deriving DecidableEq, Repr

/-- Where a coordinator is. -/
inductive Pc where
  | start
  | acquired
  | claimed
  | effecting
  | done
  | stale
  | uncertain
  deriving DecidableEq, Repr

/-- The durable state, and each coordinator's known epoch and program counter. -/
structure State (ι : Type) where
  owner_epoch : Nat
  claimed_by : Nat
  effect_started : Bool
  committed : Bool
  durable_effect : Nat
  uncertain : Bool
  c : ι → Option Nat × Pc

variable {ι : Type}

def initial : State ι := ⟨0, 0, false, false, 0, false, fun _ => (none, .start)⟩

section Successors

variable [DecidableEq ι]

/-- `with_c`. -/
def State.with_c (s : State ι) (i : ι) (ke : Option Nat) (pc : Pc) : State ι :=
  { s with c := Function.update s.c i (ke, pc) }

/-- Whether the lease space has another epoch; `none` is no bound. -/
def below (MAX_EPOCH : Option Nat) (epoch : Nat) : Bool := MAX_EPOCH.elim true (epoch < ·)

/-- The steps that coordinator `i` can take. -/
def successors (MAX_EPOCH : Option Nat) (klass : Klass) (s : State ι) (i : ι) : List (State ι) :=
  let ke := (s.c i).1
  let pc := (s.c i).2
  let fenced := ke ≠ some s.owner_epoch
  -- a crash loses what the coordinator knows
  (if pc ≠ .start then [s.with_c i none .start] else []) ++
  (if pc = .start ∧ below MAX_EPOCH s.owner_epoch then
    [{ s with owner_epoch := s.owner_epoch + 1 }.with_c i (some (s.owner_epoch + 1)) .acquired] else []) ++
  (if pc = .acquired then
    if fenced then [s.with_c i ke .stale]
    else if s.committed then [s.with_c i ke .done]
    else if klass = .transactional then
      [{ s with claimed_by := ke.getD 0, committed := true, durable_effect := s.durable_effect + 1 }.with_c i ke .done]
    else if s.claimed_by = 0 then [{ s with claimed_by := ke.getD 0 }.with_c i ke .claimed]
    else if some s.claimed_by = ke then [s.with_c i ke .claimed]
    else [s.with_c i ke .stale]
  else []) ++
  (if pc = .claimed ∧ ke = some s.owner_epoch ∧ ¬ s.committed then
    [{ s with effect_started := true }.with_c i ke .effecting] else []) ++
  (if pc = .effecting ∧ ke = some s.owner_epoch then
    [{ s with
      durable_effect :=
        if klass ∈ [Klass.idempotent, .overlay] then min 1 (s.durable_effect + 1) else s.durable_effect + 1
      committed := true }.with_c i ke .done] else []) ++
  (if pc = .acquired ∧ ¬ fenced ∧ ¬ s.committed ∧ s.claimed_by ≠ 0 ∧ some s.claimed_by ≠ ke ∧
      klass = .irreversible ∧ s.effect_started then
    [{ s with uncertain := true }.with_c i ke .uncertain] else [])

/-- A step of the model, by the coordinator that takes it. -/
def Step (MAX_EPOCH : Option Nat) (klass : Klass) (s : State ι) (i : ι) (s' : State ι) : Prop :=
  s' ∈ successors MAX_EPOCH klass s i

def Reachable (MAX_EPOCH : Option Nat) (klass : Klass) : State ι → Prop :=
  Lts.Reachable (Step MAX_EPOCH klass) (· = initial)

/-! ## What a step can be

The successors as the source lists them, inverted once. -/

/-- The kinds of steps. -/
inductive Kind (klass : Klass) (s : State ι) (i : ι) : State ι → Prop
  | crash : Kind klass s i (s.with_c i none .start)
  | acquire : Kind klass s i
      ({ s with owner_epoch := s.owner_epoch + 1 }.with_c i (some (s.owner_epoch + 1)) .acquired)
  /-- rejected, or told that the action is done -/
  | rest {pc : Pc} (hpc : pc = .stale ∨ pc = .done) : Kind klass s i (s.with_c i (s.c i).1 pc)
  /-- claim, effect and commit in one -/
  | transact (hke : (s.c i).1 = some s.owner_epoch) (hcommitted : s.committed = false)
      (hklass : klass = .transactional) :
      Kind klass s i ({ s with
        claimed_by := s.owner_epoch, committed := true, durable_effect := s.durable_effect + 1 }.with_c i
          (some s.owner_epoch) .done)
  | claim (hke : (s.c i).1 = some s.owner_epoch) (hcommitted : s.committed = false)
      (hklass : klass ≠ .transactional) (hfree : s.claimed_by = 0 ∨ s.claimed_by = s.owner_epoch) :
      Kind klass s i ({ s with claimed_by := s.owner_epoch }.with_c i (some s.owner_epoch) .claimed)
  | begin (hpc : (s.c i).2 = .claimed) (hke : (s.c i).1 = some s.owner_epoch) (hcommitted : s.committed = false) :
      Kind klass s i ({ s with effect_started := true }.with_c i (some s.owner_epoch) .effecting)
  | effect {n : Nat} (hpc : (s.c i).2 = .effecting) (hke : (s.c i).1 = some s.owner_epoch)
      (hn : n = min 1 (s.durable_effect + 1) ∨ n = s.durable_effect + 1) :
      Kind klass s i ({ s with durable_effect := n, committed := true }.with_c i (some s.owner_epoch) .done)
  | ambiguous (hke : (s.c i).1 = some s.owner_epoch) (hcommitted : s.committed = false) (hclaimed : s.claimed_by ≠ 0)
      (hother : s.claimed_by ≠ s.owner_epoch) (hklass : klass = .irreversible) :
      Kind klass s i ({ s with uncertain := true }.with_c i (some s.owner_epoch) .uncertain)

variable {MAX_EPOCH : Option Nat} {klass : Klass} {s s' : State ι} {i j : ι}

theorem mem_ite {α : Type} {p : Prop} [Decidable p] {l : List α} {a : α} (h : a ∈ if p then l else []) :
    p ∧ a ∈ l := by
  split_ifs at h with hp
  · exact ⟨hp, h⟩
  · cases h

/-- **Inversion.** Every step is of one of these kinds. -/
theorem kind_of_step (h : Step MAX_EPOCH klass s i s') : Kind klass s i s' := by
  unfold Step successors at h
  simp only [List.mem_append] at h
  rcases h with ((((h | h) | h) | h) | h) | h
  · obtain ⟨-, h⟩ := mem_ite h
    rw [List.mem_singleton.mp h]
    exact .crash
  · obtain ⟨-, h⟩ := mem_ite h
    rw [List.mem_singleton.mp h]
    exact .acquire
  · obtain ⟨-, h⟩ := mem_ite h
    split_ifs at h with hfenced hcommitted hklass hfree hmine
    · -- a fenced worker: its epoch is not the owner's, and it goes stale
      rw [List.mem_singleton.mp h]
      exact .rest (Or.inl rfl)
    · rw [List.mem_singleton.mp h]
      exact .rest (Or.inr rfl)
    -- past the fence the worker holds the owner's epoch
    all_goals
      have hke : (s.c i).1 = some s.owner_epoch := not_not.mp hfenced
      rw [List.mem_singleton.mp h, hke]
    · exact .transact hke (Bool.eq_false_iff.mpr hcommitted) hklass
    · exact .claim hke (Bool.eq_false_iff.mpr hcommitted) hklass (Or.inl hfree)
    · -- the row is already its own: claiming it again changes nothing
      rw [hke] at hmine
      have hsame : s.claimed_by = s.owner_epoch := Option.some.inj hmine
      have hs : s = { s with claimed_by := s.owner_epoch } :=
        congrArg (fun e => { s with claimed_by := e }) hsame
      have hclaim := Kind.claim hke (Bool.eq_false_iff.mpr hcommitted) hklass (Or.inr hsame)
      rw [← hs] at hclaim
      exact hclaim
    · have hrest : Kind klass s i (s.with_c i (s.c i).1 .stale) := .rest (Or.inl rfl)
      rw [hke] at hrest
      exact hrest
  · obtain ⟨⟨hpc, hke, hcommitted⟩, h⟩ := mem_ite h
    rw [List.mem_singleton.mp h, hke]
    exact .begin hpc hke (Bool.eq_false_iff.mpr hcommitted)
  · obtain ⟨⟨hpc, hke⟩, h⟩ := mem_ite h
    rw [List.mem_singleton.mp h, hke]
    refine .effect hpc hke ?_
    -- a repeated effect of the idempotent classes counts once
    split_ifs
    · exact Or.inl rfl
    · exact Or.inr rfl
  · obtain ⟨⟨-, hfenced, hcommitted, hclaimed, hother, hklass, -⟩, h⟩ := mem_ite h
    have hke : (s.c i).1 = some s.owner_epoch := not_not.mp hfenced
    rw [List.mem_singleton.mp h, hke]
    rw [hke] at hother
    refine .ambiguous hke (Bool.eq_false_iff.mpr hcommitted) hclaimed (fun heq => ?_) hklass
    exact hother (congrArg some heq)

/-! ## The invariant

A coordinator that has the owner epoch is the only one that has it; what the others know is older. -/

/-- What holds of one coordinator. -/
structure Local (klass : Klass) (s : State ι) (c : Option Nat × Pc) : Prop where
  known : ∀ e, c.1 = some e → 0 < e ∧ e ≤ s.owner_epoch
  /-- a coordinator past its claim holds it, and is the one to commit if it is the owner -/
  claim : c.2 = .claimed ∨ c.2 = .effecting → klass ≠ .transactional ∧ c.1 = some s.claimed_by ∧
    (c.1 = some s.owner_epoch → s.committed = false ∧ s.uncertain = false)

structure Inv (klass : Klass) (s : State ι) : Prop where
  local_ : ∀ i, Local klass s (s.c i)
  distinct : ∀ i j e, (s.c i).1 = some e → (s.c j).1 = some e → i = j
  claimed : s.claimed_by ≤ s.owner_epoch
  effect : s.durable_effect = if s.committed then 1 else 0
  uncertain : s.uncertain = true → s.committed = false ∧ klass = .irreversible ∧
    s.claimed_by ≠ 0 ∧ s.claimed_by < s.owner_epoch

omit [DecidableEq ι] in
theorem inv_initial : Inv klass (initial : State ι) where
  local_ _ := ⟨nofun, nofun⟩
  distinct := nofun
  claimed := Nat.le_refl _
  effect := rfl
  uncertain := nofun

/-- What holds of the durable state. -/
structure Durable (klass : Klass) (s : State ι) : Prop where
  claimed : s.claimed_by ≤ s.owner_epoch
  effect : s.durable_effect = if s.committed then 1 else 0
  uncertain : s.uncertain = true → s.committed = false ∧ klass = .irreversible ∧
    s.claimed_by ≠ 0 ∧ s.claimed_by < s.owner_epoch

/-- **One coordinator moves.** What is to be shown of the state after it. -/
theorem Durable.with_c {ke : Option Nat} {pc : Pc} (h : Durable klass s) (hself : Local klass s (ke, pc))
    (hother : ∀ j, j ≠ i → Local klass s (s.c j))
    (hdistinct : ∀ j k e, j ≠ i → k ≠ i → (s.c j).1 = some e → (s.c k).1 = some e → j = k)
    (hfresh : ∀ j e, j ≠ i → ke = some e → (s.c j).1 ≠ some e) : Inv klass (s.with_c i ke pc) := by
  have hc : ∀ j, (s.with_c i ke pc).c j = if j = i then (ke, pc) else s.c j := fun j => Function.update_apply ..
  constructor
  case local_ =>
    intro j
    rw [hc]
    split_ifs with hj
    · exact ⟨hself.known, hself.claim⟩
    · exact ⟨(hother j hj).known, (hother j hj).claim⟩
  -- two coordinators with one epoch: neither is the one that changed
  case distinct =>
    intro j k e hj hk
    rw [hc] at hj hk
    split_ifs at hj hk with hji hki hki
    · rw [hji, hki]
    · exact absurd hk (hfresh k e hki hj)
    · exact absurd hj (hfresh j e hji hk)
    · exact hdistinct j k e hji hki hj hk
  case claimed => exact h.claimed
  case effect => exact h.effect
  case uncertain => exact h.uncertain

omit [DecidableEq ι] in
theorem Inv.durable (h : Inv klass s) : Durable klass s := ⟨h.claimed, h.effect, h.uncertain⟩

omit [DecidableEq ι] in
/-- The epoch of the current owner is known to nobody else. -/
theorem Inv.others (h : Inv klass s) (hke : (s.c i).1 = some s.owner_epoch) (hj : j ≠ i) {e : Nat}
    (he : some s.owner_epoch = some e) : (s.c j).1 ≠ some e := by
  intro hje
  rw [← he] at hje
  exact hj (h.distinct j i _ hje hke)

omit [DecidableEq ι] in
/-- A coordinator that is not the owner has nothing to fear of what the owner does to the flags. -/
theorem Local.of_not_owner {c : Option Nat × Pc} (h : Local klass s c) (hnot : c.1 ≠ some s.owner_epoch)
    (howner : s'.owner_epoch = s.owner_epoch) (hclaimed : s'.claimed_by = s.claimed_by) : Local klass s' c := by
  refine ⟨?_, fun hpc => ?_⟩
  · rw [howner]
    exact h.known
  · obtain ⟨hklass, hclaim, -⟩ := h.claim hpc
    rw [howner, hclaimed]
    exact ⟨hklass, hclaim, fun heq => absurd heq hnot⟩

/-- **The owner moves**, and the epoch stays. -/
theorem Inv.owner_moves {pc : Pc} (h : Inv klass s) (hke : (s.c i).1 = some s.owner_epoch) (hc : s'.c = s.c)
    (hepoch : s'.owner_epoch = s.owner_epoch) (hd : Durable klass s')
    (hclaim : pc = .claimed ∨ pc = .effecting → klass ≠ .transactional ∧ s'.claimed_by = s.owner_epoch ∧
      s'.committed = false ∧ s'.uncertain = false)
    (hothers : ∀ j, j ≠ i → Local klass s' (s.c j)) : Inv klass (s'.with_c i (some s.owner_epoch) pc) := by
  refine hd.with_c ⟨fun e he => ?_, fun hpc => ?_⟩ (fun j hj => ?_) (fun j k e _ _ hj hk => ?_) fun j e hj he => ?_
  · rw [hepoch]
    exact (h.local_ i).known e (hke.trans he)
  · obtain ⟨hklass, hclaimed, hflags⟩ := hclaim hpc
    exact ⟨hklass, congrArg some hclaimed.symm, fun _ => hflags⟩
  · rw [hc]
    exact hothers j hj
  · rw [hc] at hj hk
    exact h.distinct j k e hj hk
  · rw [hc]
    exact h.others hke hj he

/-- A new epoch, which nobody knows yet. -/
theorem Inv.acquire (h : Inv klass s) : Inv klass
    ({ s with owner_epoch := s.owner_epoch + 1 }.with_c i (some (s.owner_epoch + 1)) .acquired) := by
  have hnew : ∀ j, (s.c j).1 ≠ some (s.owner_epoch + 1) := by
    intro j hj
    have hle := ((h.local_ j).known _ hj).2
    exact absurd hle (Nat.not_succ_le_self _)
  refine Durable.with_c ⟨?_, h.effect, fun hu => ?_⟩ ⟨fun e he => ?_, nofun⟩
    (fun j _ => ⟨fun e he => ?_, fun hpc => ?_⟩) (fun j k e _ _ => h.distinct j k e) fun j e _ he hje => ?_
  · exact Nat.le_succ_of_le h.claimed
  · obtain ⟨hc, hk, hne, hlt⟩ := h.uncertain hu
    exact ⟨hc, hk, hne, Nat.lt_succ_of_lt hlt⟩
  · cases he
    exact ⟨Nat.succ_pos _, Nat.le_refl _⟩
  · obtain ⟨hpos, hle⟩ := (h.local_ j).known e he
    exact ⟨hpos, Nat.le_succ_of_le hle⟩
  · obtain ⟨hklass, hclaim, -⟩ := (h.local_ j).claim hpc
    exact ⟨hklass, hclaim, fun heq => absurd heq (hnew j)⟩
  · cases he
    exact hnew j hje

/-- **Step.** -/
theorem Inv.step (h : Inv klass s) (hstep : Kind klass s i s') : Inv klass s' := by
  have hdistinct : ∀ j k e, j ≠ i → k ≠ i → (s.c j).1 = some e → (s.c k).1 = some e → j = k :=
    fun j k e _ _ => h.distinct j k e
  cases hstep with
  | crash => exact h.durable.with_c ⟨nofun, nofun⟩ (fun j _ => h.local_ j) hdistinct nofun
  | acquire => exact h.acquire
  | rest hpc =>
    refine h.durable.with_c ⟨(h.local_ i).known, fun hc => ?_⟩ (fun j _ => h.local_ j) hdistinct ?_
    · rcases hpc with rfl | rfl <;> rcases hc with hc | hc <;> cases hc
    · intro j e hj he hje
      exact hj (h.distinct j i e hje he)
  | transact hke hcommitted hklass =>
    have hzero : s.durable_effect = 0 := by rw [h.effect, hcommitted]; rfl
    refine h.owner_moves hke rfl rfl ⟨Nat.le_refl _, ?_, fun hu => ?_⟩ nofun fun j _ =>
      ⟨(h.local_ j).known, fun hpc => absurd hklass ((h.local_ j).claim hpc).1⟩
    · show s.durable_effect + 1 = 1
      rw [hzero]
    · have hirr := (h.uncertain hu).2.1
      rw [hklass] at hirr
      cases hirr
  | claim hke hcommitted hklass hfree =>
    have hcertain : s.uncertain = false := by
      refine Bool.eq_false_iff.mpr fun hu => ?_
      obtain ⟨-, -, hne, hlt⟩ := h.uncertain hu
      rcases hfree with hfree | hfree
      · exact hne hfree
      · omega
    refine h.owner_moves hke rfl rfl ⟨Nat.le_refl _, h.effect, fun hu => ?_⟩
      (fun _ => ⟨hklass, rfl, hcommitted, hcertain⟩) fun j hj => ⟨(h.local_ j).known, fun hpc => ?_⟩
    · exact absurd hu (Bool.eq_false_iff.mp hcertain)
    · obtain ⟨-, hclaim, -⟩ := (h.local_ j).claim hpc
      -- a claim before this one would be of epoch 0, or this coordinator's own
      rcases hfree with hfree | hfree
      · have hpos := ((h.local_ j).known _ hclaim).1
        omega
      · rw [hfree] at hclaim
        exact absurd hclaim (h.others hke hj rfl)
  | begin hpc hke hcommitted =>
    obtain ⟨hklass, hclaim, howner⟩ := (h.local_ i).claim (Or.inl hpc)
    rw [hke] at hclaim
    exact h.owner_moves hke rfl rfl ⟨h.claimed, h.effect, h.uncertain⟩
      (fun _ => ⟨hklass, (Option.some.inj hclaim).symm, howner hke⟩)
      fun j _ => ⟨(h.local_ j).known, (h.local_ j).claim⟩
  | effect hpc hke hn =>
    obtain ⟨-, -, howner⟩ := (h.local_ i).claim (Or.inr hpc)
    obtain ⟨hcommitted, hcertain⟩ := howner hke
    have hzero : s.durable_effect = 0 := by rw [h.effect, hcommitted]; rfl
    refine h.owner_moves hke rfl rfl ⟨h.claimed, ?_, fun hu => ?_⟩ nofun
      fun j hj => (h.local_ j).of_not_owner (h.others hke hj rfl) rfl rfl
    · rw [hzero] at hn
      rcases hn with hn | hn
      · exact hn
      · exact hn
    · exact absurd hu (Bool.eq_false_iff.mp hcertain)
  | ambiguous hke hcommitted hclaimed hother hklass =>
    refine h.owner_moves hke rfl rfl ⟨h.claimed, h.effect, fun _ => ?_⟩ nofun
      fun j hj => (h.local_ j).of_not_owner (h.others hke hj rfl) rfl rfl
    exact ⟨hcommitted, hklass, hclaimed, Nat.lt_of_le_of_ne h.claimed hother⟩

/-- **Run.** -/
theorem inv_of_reachable (h : Reachable MAX_EPOCH klass s) : Inv klass s := by
  refine Lts.Reachable.invariant (Inv klass) ?_ (fun _ _ _ _ hs hstep => hs.step (kind_of_step hstep)) h
  rintro _ rfl
  exact inv_initial

/-! ## Safety

What the checker looks for in each state, and what it does not: that a stale owner takes no effect. -/

/-- What is committed, or uncertain, stays so. -/
theorem Kind.keeps (h : Kind klass s i s') :
    (s.committed = true → s'.committed = true) ∧ (s.uncertain = true → s'.uncertain = true) := by
  cases h with
  | crash => exact ⟨id, id⟩
  | acquire => exact ⟨id, id⟩
  | rest hpc => exact ⟨id, id⟩
  | transact hke hcommitted hklass => exact ⟨fun _ => rfl, id⟩
  | claim hke hcommitted hklass hfree => exact ⟨id, id⟩
  | begin hpc hke hcommitted => exact ⟨id, id⟩
  | effect hpc hke hn => exact ⟨fun _ => rfl, id⟩
  | ambiguous hke hcommitted hclaimed hother hklass => exact ⟨id, fun _ => rfl⟩

theorem keeps_of_exec {is : List ι} (h : Lts.Exec (Step MAX_EPOCH klass) s is s') :
    (s.committed = true → s'.committed = true) ∧ (s.uncertain = true → s'.uncertain = true) := by
  induction h with
  | refl => exact ⟨id, id⟩
  | tail _ hstep ih =>
    have hkeeps := (kind_of_step hstep).keeps
    exact ⟨fun hc => hkeeps.1 (ih.1 hc), fun hu => hkeeps.2 (ih.2 hu)⟩

/-- **No stale owner.** Only the current owner makes an effect durable. -/
theorem Kind.owner (h : Kind klass s i s') (hraise : s.durable_effect < s'.durable_effect) :
    (s.c i).1 = some s.owner_epoch := by
  cases h with
  | crash => exact absurd hraise (Nat.lt_irrefl _)
  | acquire => exact absurd hraise (Nat.lt_irrefl _)
  | rest hpc => exact absurd hraise (Nat.lt_irrefl _)
  | transact hke hcommitted hklass => exact hke
  | claim hke hcommitted hklass hfree => exact hke
  | begin hpc hke hcommitted => exact hke
  | effect hpc hke hn => exact hke
  | ambiguous hke hcommitted hclaimed hother hklass => exact hke

omit [DecidableEq ι] in
theorem Inv.committed_iff (h : Inv klass s) : s.committed = true ↔ s.durable_effect = 1 := by
  rw [h.effect]
  cases s.committed <;> simp

omit [DecidableEq ι] in
theorem Inv.exclusive (h : Inv klass s) : ¬ (s.committed = true ∧ s.uncertain = true) := by
  rintro ⟨hc, hu⟩
  rw [(h.uncertain hu).1] at hc
  cases hc

/-- **The result of the checker, without its bounds.** For any number of coordinators and any lease space, in
    every reachable state: the effect is durable at most once, and once exactly when the action is committed;
    only the owner makes it durable; no two coordinators hold one epoch; and an action that is committed is
    not uncertain, then or later, nor the other way round. -/
theorem safe (MAX_EPOCH : Option Nat) (klass : Klass) (s : State ι) (hs : Reachable MAX_EPOCH klass s) :
    s.durable_effect ≤ 1 ∧ (s.committed = true ↔ s.durable_effect = 1) ∧
      (∀ i s', Step MAX_EPOCH klass s i s' → s.durable_effect < s'.durable_effect →
        (s.c i).1 = some s.owner_epoch) ∧
      (∀ i j e, (s.c i).1 = some e → (s.c j).1 = some e → i = j) ∧
      ¬ (s.committed = true ∧ s.uncertain = true) ∧
      ∀ is s', Lts.Exec (Step MAX_EPOCH klass) s is s' →
        ¬ (s.committed = true ∧ s'.uncertain = true) ∧ ¬ (s.uncertain = true ∧ s'.committed = true) := by
  have hinv := inv_of_reachable hs
  refine ⟨?_, hinv.committed_iff, fun i s' hstep => (kind_of_step hstep).owner, hinv.distinct, hinv.exclusive, ?_⟩
  · rw [hinv.effect]
    split_ifs
    · exact Nat.le_refl _
    · exact Nat.zero_le _
  · intro is s' hrun
    have hlater := (inv_of_reachable (hs.exec hrun)).exclusive
    have hkeeps := keeps_of_exec hrun
    exact ⟨fun hboth => hlater ⟨hkeeps.1 hboth.1, hboth.2⟩, fun hboth => hlater ⟨hboth.2, hkeeps.2 hboth.1⟩⟩

/-! ## Concrete runs -/

/-- The step at position `k` of those that coordinator `i` can take. -/
def take (MAX_EPOCH : Option Nat) (klass : Klass) (s : State ι) (ik : ι × Nat) : Option (State ι) :=
  (successors MAX_EPOCH klass s ik.1)[ik.2]?

theorem reachable_of_runAll (hs : Reachable MAX_EPOCH klass s) {ls : List (ι × Nat)}
    (h : Lts.runAll (take MAX_EPOCH klass) s ls = some s') : Reachable MAX_EPOCH klass s' := by
  induction ls generalizing s with
  | nil =>
    cases h
    exact hs
  | cons l ls ih =>
    obtain ⟨u, hu, hrest⟩ := Option.bind_eq_some_iff.mp h
    have hstep : Step MAX_EPOCH klass s l.1 u := List.mem_of_getElem? hu
    exact ih (hs.step hstep) hrest

end Successors

/-- Of three coordinators, one dies in its effect, and another finds the action ambiguous. -/
theorem safe_ambiguous : ∃ s : State (Fin 3), Reachable none .irreversible s ∧ s.uncertain = true ∧
    s.durable_effect ≤ 1 ∧ s.committed = false ∧
    ∀ is s', Lts.Exec (Step none .irreversible) s is s' → s'.committed = false := by
  let ls : List (Fin 3 × Nat) := [(0, 0), (0, 1), (0, 1), (0, 0), (1, 0), (1, 2)]
  have hrun : ((Lts.runAll (take none .irreversible) initial ls).map State.uncertain) = some true := by decide
  obtain ⟨s, hs, hu⟩ := Option.map_eq_some_iff.mp hrun
  have hreach : Reachable none .irreversible s := reachable_of_runAll (Lts.Reachable.start rfl) hs
  obtain ⟨hle, -, -, -, hexclusive, hlater⟩ := safe none .irreversible s hreach
  refine ⟨s, hreach, hu, hle, ?_, fun is s' hrun => ?_⟩
  · exact Bool.eq_false_iff.mpr fun hc => hexclusive ⟨hc, hu⟩
  · exact Bool.eq_false_iff.mpr fun hc => (hlater is s' hrun).2 ⟨hu, hc⟩

end AgentTx.Checker.Distributed
