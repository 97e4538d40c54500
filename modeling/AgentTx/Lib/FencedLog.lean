import Mathlib.Data.List.Nodup
import Mathlib.Data.List.Infix
import Mathlib.Logic.Function.Basic

/-!
# `Lib.FencedLog` — logs that one agent at a time may append to

Each job has a plan, a list of entries, and a log: the entries made so far, each with the epoch of its agent.
An agent is hired for one job. It acquires the job, which gives it a token, the next epoch of the job; it may make
the entry that comes next in the plan while its token is the job's epoch; and it may close the job when the log is
the whole plan. Closing is not fenced: there is nothing left that could be done twice.

A step is atomic here, and there are no crashes: an agent that dies takes no step any more. What a system of
processes, transactions and locks makes of this is for a refinement to say.
-/

/-- Epochs of jobs, tokens of agents, and the logs. -/
structure FencedLog (ι κ α : Type*) where
  epoch : κ → Option Nat
  token : ι → Option Nat
  log : κ → List (α × Nat)
  closed : κ → Bool

namespace FencedLog

variable {ι κ α : Type*}

/-- What an agent does. -/
inductive Act (α : Type*) where
  | acquire
  | enter (a : α)
  | close

/-- The entries made so far. -/
def entries (L : FencedLog ι κ α) (k : κ) : List α := (L.log k).map Prod.fst

/-- Their epochs. -/
def epochs (L : FencedLog ι κ α) (k : κ) : List Nat := (L.log k).map Prod.snd

/-- The epoch that comes after the current one. -/
def nextEpoch (L : FencedLog ι κ α) (k : κ) : Nat := (L.epoch k).elim 1 (· + 1)

theorem lt_nextEpoch {L : FencedLog ι κ α} {k : κ} {e : Nat} (h : L.epoch k = some e) : e < L.nextEpoch k := by
  simp [nextEpoch, h]

section Steps

variable [DecidableEq ι] [DecidableEq κ]

def acquired (L : FencedLog ι κ α) (i : ι) (k : κ) : FencedLog ι κ α :=
  { L with
    epoch := Function.update L.epoch k (some (L.nextEpoch k))
    token := Function.update L.token i (some (L.nextEpoch k)) }

def entered (L : FencedLog ι κ α) (k : κ) (a : α) (e : Nat) : FencedLog ι κ α :=
  { L with log := Function.update L.log k (L.log k ++ [(a, e)]) }

def close (L : FencedLog ι κ α) (k : κ) : FencedLog ι κ α :=
  { L with closed := Function.update L.closed k true }

@[simp] theorem acquired_token_self {L : FencedLog ι κ α} {i : ι} {k : κ} :
    (L.acquired i k).token i = some (L.nextEpoch k) :=
  Function.update_self ..

@[simp] theorem acquired_token_of_ne {L : FencedLog ι κ α} {i j : ι} {k : κ} (h : j ≠ i) :
    (L.acquired i k).token j = L.token j :=
  Function.update_of_ne h ..

@[simp] theorem acquired_epoch_self {L : FencedLog ι κ α} {i : ι} {k : κ} :
    (L.acquired i k).epoch k = some (L.nextEpoch k) :=
  Function.update_self ..

@[simp] theorem acquired_epoch_of_ne {L : FencedLog ι κ α} {i : ι} {k k' : κ} (h : k' ≠ k) :
    (L.acquired i k).epoch k' = L.epoch k' :=
  Function.update_of_ne h ..

/-- Agent `i` takes a step. -/
inductive Step (plan : κ → List α) (job : ι → κ) : FencedLog ι κ α → ι × Act α → FencedLog ι κ α → Prop where
  | acquire {L i} (hnew : L.token i = none) : Step plan job L (i, .acquire) (L.acquired i (job i))
  | enter {L i a e rest} (htoken : L.token i = some e) (hepoch : L.epoch (job i) = some e)
      (hnext : plan (job i) = L.entries (job i) ++ a :: rest) : Step plan job L (i, .enter a) (L.entered (job i) a e)
  | close {L i} (hwhole : L.entries (job i) = plan (job i)) : Step plan job L (i, .close) (L.close (job i))

end Steps

/-! ## What always holds -/

/-- The state of the logs. -/
structure Inv (plan : κ → List α) (job : ι → κ) (L : FencedLog ι κ α) : Prop where
  planned : ∀ k, L.entries k <+: plan k
  sorted : ∀ k, (L.epochs k).Pairwise (· ≤ ·)
  below : ∀ k, ∀ e ∈ L.epochs k, ∃ e', L.epoch k = some e' ∧ e ≤ e'
  token : ∀ i e, L.token i = some e → ∃ e', L.epoch (job i) = some e' ∧ e ≤ e'
  unique : ∀ i j e, job i = job j → L.token i = some e → L.token j = some e → i = j
  whole : ∀ k, L.closed k = true → L.entries k = plan k

variable {plan : κ → List α} {job : ι → κ} {L L' : FencedLog ι κ α}

/-- Nothing has happened. -/
theorem Inv.start (hlog : ∀ k, L.log k = []) (htoken : ∀ i, L.token i = none) (hclosed : ∀ k, L.closed k = false) :
    Inv plan job L where
  planned k := by simp [entries, hlog]
  sorted k := by simp [epochs, hlog]
  below k e he := by simp [epochs, hlog] at he
  token i e he := by simp [htoken] at he
  unique i j e _ he := by simp [htoken] at he
  whole k hk := by simp [hclosed] at hk

section Keeps

variable [DecidableEq κ]

/-- The entries of a job with one more. -/
theorem entries_entered (k k' : κ) (a : α) (e : Nat) :
    (L.entered k a e).entries k' = if k' = k then L.entries k ++ [a] else L.entries k' := by
  by_cases hk : k' = k
  · subst hk
    simp [entered, entries]
  · simp [entered, entries, hk]

theorem epochs_entered (k k' : κ) (a : α) (e : Nat) :
    (L.entered k a e).epochs k' = if k' = k then L.epochs k ++ [e] else L.epochs k' := by
  by_cases hk : k' = k
  · subst hk
    simp [entered, epochs]
  · simp [entered, epochs, hk]

variable [DecidableEq ι]

omit [DecidableEq ι] in
theorem Inv.entered (h : Inv plan job L) {k : κ} {a : α} {e : Nat} {rest : List α} (hepoch : L.epoch k = some e)
    (hnext : plan k = L.entries k ++ a :: rest) (hopen : L.closed k ≠ true) :
    Inv plan job (L.entered k a e) where
  planned k' := by
    rw [entries_entered]
    split
    · rename_i hk
      subst hk
      exact ⟨rest, by simp [hnext]⟩
    · exact h.planned k'
  sorted k' := by
    rw [epochs_entered]
    split
    · rename_i hk
      subst hk
      rw [List.pairwise_append]
      refine ⟨h.sorted _, by simp, fun e₁ h₁ e₂ h₂ => ?_⟩
      -- the new one has the epoch that all are below
      obtain ⟨e', he', hle⟩ := h.below _ e₁ h₁
      rw [hepoch] at he'
      cases he'
      simp only [List.mem_singleton] at h₂
      omega
    · exact h.sorted k'
  below k' e₁ h₁ := by
    rw [epochs_entered] at h₁
    split at h₁
    · rename_i hk
      subst hk
      rcases List.mem_append.mp h₁ with h₁ | h₁
      · exact h.below _ e₁ h₁
      · simp only [List.mem_singleton] at h₁
        exact ⟨e, hepoch, Nat.le_of_eq h₁⟩
    · exact h.below k' e₁ h₁
  token := h.token
  unique := h.unique
  whole k' hk' := by
    rw [entries_entered]
    split
    · rename_i hk
      subst hk
      exact absurd hk' hopen
    · exact h.whole k' hk'

theorem Inv.acquired (h : Inv plan job L) {i : ι} : Inv plan job (L.acquired i (job i)) where
  planned := h.planned
  sorted := h.sorted
  below k e he := by
    obtain ⟨e', he', hle⟩ := h.below k e he
    by_cases hk : k = job i
    · subst hk
      have hlt := lt_nextEpoch he'
      exact ⟨_, acquired_epoch_self, by omega⟩
    · exact ⟨e', (acquired_epoch_of_ne hk).trans he', hle⟩
  token j e he := by
    by_cases hji : j = i
    · subst hji
      simp only [acquired_token_self, Option.some.injEq] at he
      exact ⟨_, acquired_epoch_self, Nat.le_of_eq he.symm⟩
    · rw [acquired_token_of_ne hji] at he
      obtain ⟨e', he', hle⟩ := h.token j e he
      by_cases hk : job j = job i
      · rw [hk] at he' ⊢
        have hlt := lt_nextEpoch he'
        exact ⟨_, acquired_epoch_self, by omega⟩
      · exact ⟨e', (acquired_epoch_of_ne hk).trans he', hle⟩
  unique j j' e hjob hj hj' := by
    -- the token of `i` is above all others of its job
    have hother : ∀ {j : ι}, job j = job i → j ≠ i → L.token j ≠ some (L.nextEpoch (job i)) := by
      intro j hk hji htoken
      obtain ⟨e', he', hle⟩ := h.token j _ htoken
      rw [hk] at he'
      have hlt := lt_nextEpoch he'
      omega
    by_cases hji : j = i <;> by_cases hji' : j' = i
    · rw [hji, hji']
    · subst hji
      rw [acquired_token_self] at hj
      rw [acquired_token_of_ne hji', ← hj] at hj'
      exact absurd hj' (hother hjob.symm hji')
    · subst hji'
      rw [acquired_token_self] at hj'
      rw [acquired_token_of_ne hji, ← hj'] at hj
      exact absurd hj (hother hjob hji)
    · rw [acquired_token_of_ne hji] at hj
      rw [acquired_token_of_ne hji'] at hj'
      exact h.unique j j' e hjob hj hj'
  whole := h.whole

omit [DecidableEq ι] in
theorem Inv.close (h : Inv plan job L) {k : κ} (hwhole : L.entries k = plan k) : Inv plan job (L.close k) where
  planned := h.planned
  sorted := h.sorted
  below := h.below
  token := h.token
  unique := h.unique
  whole k' hk' := by
    by_cases hk : k' = k
    · subst hk
      exact hwhole
    · exact h.whole k' ((Function.update_of_ne hk ..).symm.trans hk')

/-- **Every step keeps the logs in order.** -/
theorem Step.keeps {act : ι × Act α} (h : Inv plan job L) (hstep : Step plan job L act L') : Inv plan job L' := by
  cases hstep with
  | acquire => exact h.acquired
  | @enter i a e rest htoken hepoch hnext =>
    refine h.entered hepoch hnext fun hclosed => ?_
    -- a closed log is the whole plan
    have hlen := congrArg List.length (h.whole _ hclosed ▸ hnext)
    simp at hlen
  | close hwhole => exact h.close hwhole

/-- An entry that is made stays where it is. -/
theorem Step.grows {act : ι × Act α} (hstep : Step plan job L act L') (k : κ) : L.log k <+: L'.log k := by
  cases hstep with
  | acquire => exact List.prefix_refl _
  | @enter i a e rest htoken hepoch hnext =>
    by_cases hk : k = job i
    · subst hk
      simp [FencedLog.entered]
    · simp [FencedLog.entered, hk]
  | close => exact List.prefix_refl _

end Keeps

/-! ## What comes next -/

section Next

variable {β : Type*} {f : β → α} {steps done rest : List β} {step : β}

/-- Entries that can be told apart where they are made. -/
def Apart (f : β → α) (made : List α) (steps : List β) : Prop :=
  steps.Pairwise fun x y => f x ∈ made → f x ≠ f y

theorem exists_take {made : List α} (hmade : made <+: steps.map f) : ∃ n, made = (steps.take n).map f := by
  refine ⟨made.length, ?_⟩
  rw [List.map_take]
  exact List.prefix_iff_eq_take.mp hmade

/-- A beginning of the plan that has all of `done` is as long. -/
theorem length_done_le {n : Nat} (hplan : steps = done ++ rest)
    (happart : Apart f ((steps.take n).map f) steps) (hdone : ∀ x ∈ done, f x ∈ (steps.take n).map f) :
    done.length ≤ n := by
  by_contra hlt
  -- what comes next in the plan is there already
  have hn : n < done.length := by omega
  have hlen : n < steps.length := by simp [hplan]; omega
  have hget : steps[n] = done[n] := by simp [hplan, List.getElem_append_left hn]
  have hmem : f steps[n] ∈ (steps.take n).map f := hget ▸ hdone _ (List.getElem_mem hn)
  obtain ⟨x, hx, hfx⟩ := List.mem_map.mp hmem
  obtain ⟨m, hm, rfl⟩ := List.mem_iff_getElem.mp hx
  simp only [List.length_take] at hm
  rw [List.getElem_take] at hfx
  have hne := List.pairwise_iff_getElem.mp happart m n (by omega) hlen (by omega)
  exact hne (hfx ▸ hmem) hfx

/-- **The next entry.** What comes before it in the plan has been made, and it has not. -/
theorem made_of_next {made : List α} (hmade : made <+: steps.map f) (hplan : steps = done ++ step :: rest)
    (happart : Apart f made steps) (hdone : ∀ x ∈ done, f x ∈ made) (hnew : f step ∉ made) :
    made = done.map f := by
  obtain ⟨n, rfl⟩ := exists_take hmade
  have hle := length_done_le hplan happart hdone
  have hge : n ≤ done.length := by
    by_contra hlt
    refine hnew (List.mem_map_of_mem (List.mem_take_iff_getElem.mpr ⟨done.length, ?_, ?_⟩))
    · simp [hplan]
      omega
    · simp [hplan]
  rw [Nat.le_antisymm hge hle, hplan, List.take_left]

/-- **Nothing is left.** -/
theorem made_of_all {made : List α} (hmade : made <+: steps.map f) (happart : Apart f made steps)
    (hall : ∀ x ∈ steps, f x ∈ made) : made = steps.map f := by
  obtain ⟨n, rfl⟩ := exists_take hmade
  have hle := length_done_le (List.append_nil steps).symm happart hall
  rw [List.take_of_length_le hle]

end Next

end FencedLog
