import Mathlib.Order.Basic

/-!
# `Lib.Lts` — labelled transition systems: runs, invariants, guarded runs

A system is a step relation `T : σ → ι → σ → Prop` (state, label, state). The file develops its runs
and the induction rules the rest of the development uses:

* `Exec T s ls t` — a finite run from `s` to `t`; `ls` lists its labels, oldest first;
* `Reachable T init s` — `s` ends a run that starts in an `init` state, with the invariant rule
  `Reachable.invariant`;
* `guard ok T` — the steps of `T` taken where `ok` holds, for "every run whose steps all meet …";
* `runAll step` — the run of a *function* `step : σ → ι → Option σ` over a given schedule, which is what
  a concrete trace is evaluated with (`runAll_exec`).
-/

namespace Lts

universe u v
variable {σ : Type u} {ι : Type v} {T : σ → ι → σ → Prop} {init : σ → Prop}

/-- A finite run; the labels of its steps are listed oldest first. -/
inductive Exec (T : σ → ι → σ → Prop) : σ → List ι → σ → Prop where
  | refl {s} : Exec T s [] s
  | tail {s t u ls l} : Exec T s ls t → T t l u → Exec T s (ls ++ [l]) u

/-- Two runs that meet compose, and so do their schedules. -/
theorem Exec.trans {s t u : σ} {ls ms : List ι} (h₁ : Exec T s ls t) (h₂ : Exec T t ms u) :
    Exec T s (ls ++ ms) u := by
  induction h₂ with
  | refl => simpa using h₁
  | tail _ hstep ih => rw [← List.append_assoc]; exact .tail ih hstep

theorem Exec.single {s t : σ} {l : ι} (h : T s l t) : Exec T s [l] t := by
  rw [← List.nil_append [l]]
  exact .tail .refl h

/-- A run with a larger step relation. -/
theorem Exec.mono {T' : σ → ι → σ → Prop} (hT : ∀ s l t, T s l t → T' s l t) {s t : σ} {ls : List ι}
    (h : Exec T s ls t) : Exec T' s ls t := by
  induction h with
  | refl => exact .refl
  | tail _ hstep ih => exact .tail ih (hT _ _ _ hstep)

/-- **Run rule.** What every step preserves, a run preserves. -/
theorem Exec.invariant (Inv : σ → Prop) (hstep : ∀ s l t, Inv s → T s l t → Inv t) {s t : σ}
    {ls : List ι} (h : Exec T s ls t) (h₀ : Inv s) : Inv t := by
  induction h with
  | refl => exact h₀
  | tail _ hs ih => exact hstep _ _ _ ih hs

/-- **Run rule with history.** An invariant of the state and of the labels so far. -/
theorem Exec.history (Inv : List ι → σ → Prop) {s t : σ} {ls : List ι} (h : Exec T s ls t)
    (h₀ : Inv [] s)
    (hstep : ∀ ms u l v, Exec T s ms u → Inv ms u → T u l v → Inv (ms ++ [l]) v) : Inv ls t := by
  induction h with
  | refl => exact h₀
  | tail hpre hs ih => exact hstep _ _ _ _ hpre ih hs

/-! ## Reachable states -/

/-- `s` ends a run from an initial state. -/
def Reachable (T : σ → ι → σ → Prop) (init : σ → Prop) (s : σ) : Prop :=
  ∃ s₀ ls, init s₀ ∧ Exec T s₀ ls s

theorem Reachable.start {s : σ} (h : init s) : Reachable T init s := ⟨s, [], h, .refl⟩

theorem Reachable.step {s t : σ} {l : ι} (h : Reachable T init s) (hs : T s l t) :
    Reachable T init t := by
  obtain ⟨s₀, ls, h₀, hrun⟩ := h
  exact ⟨s₀, ls ++ [l], h₀, .tail hrun hs⟩

theorem Reachable.exec {s t : σ} {ls : List ι} (h : Reachable T init s) (hrun : Exec T s ls t) :
    Reachable T init t := by
  obtain ⟨s₀, ms, h₀, hrun₀⟩ := h
  exact ⟨s₀, ms ++ ls, h₀, hrun₀.trans hrun⟩

/-- **Invariant rule.** True at the start and preserved by every step out of a reachable state, hence
    true of every reachable state. -/
theorem Reachable.invariant (Inv : σ → Prop) (h₀ : ∀ s, init s → Inv s)
    (hstep : ∀ s l t, Reachable T init s → Inv s → T s l t → Inv t) {s : σ}
    (h : Reachable T init s) : Inv s := by
  obtain ⟨s₀, ls, hi, hrun⟩ := h
  induction hrun with
  | refl => exact h₀ _ hi
  | tail hpre hs ih => exact hstep _ _ _ ⟨_, _, hi, hpre⟩ ih hs

/-! ## Guarded runs -/

/-- The steps of `T` that are taken where `ok` holds. -/
def guard (ok : σ → ι → Prop) (T : σ → ι → σ → Prop) : σ → ι → σ → Prop :=
  fun s l t => ok s l ∧ T s l t

theorem Exec.of_guard {ok : σ → ι → Prop} {s t : σ} {ls : List ι} (h : Exec (guard ok T) s ls t) :
    Exec T s ls t :=
  h.mono fun _ _ _ hs => hs.2

theorem Reachable.of_guard {ok : σ → ι → Prop} {s : σ} (h : Reachable (guard ok T) init s) :
    Reachable T init s := by
  obtain ⟨s₀, ls, h₀, hrun⟩ := h
  exact ⟨s₀, ls, h₀, hrun.of_guard⟩

/-- A condition that always holds restricts nothing. -/
theorem Reachable.guard {ok : σ → ι → Prop} {s : σ} (h : Reachable T init s) (hok : ∀ s l, ok s l) :
    Reachable (guard ok T) init s := by
  obtain ⟨s₀, ls, h₀, hrun⟩ := h
  exact ⟨s₀, ls, h₀, hrun.mono fun _ _ _ hs => ⟨hok _ _, hs⟩⟩

/-! ## Functional steps -/

/-- The step relation of a partial step function (`none`: the step is not enabled). -/
def ofFun (step : σ → ι → Option σ) : σ → ι → σ → Prop := fun s l t => step s l = some t

/-- Run a step function over a schedule. -/
def runAll (step : σ → ι → Option σ) : σ → List ι → Option σ
  | s, [] => some s
  | s, l :: ls => (step s l).bind (runAll step · ls)

/-- A schedule that runs through is a run. -/
theorem runAll_exec {step : σ → ι → Option σ} {s t : σ} {ls : List ι}
    (h : runAll step s ls = some t) : Exec (ofFun step) s ls t := by
  induction ls generalizing s with
  | nil => cases h; exact .refl
  | cons l ls ih =>
      obtain ⟨u, hu, hrest⟩ := Option.bind_eq_some_iff.mp h
      exact (Exec.single hu).trans (ih hrest)

end Lts
