import Mathlib.Data.List.Basic

/-!
# `Lib.Replay` — steps that are done again

A `Replay` is a partial step function of the kind that recovery relies on: a step that has been done is
found done, at once (`again`) and however much has been done since (`keeps`). A state in which a step is
found done is a fixed point of it (`Settled`). So whatever part of a list of steps has been done, by
however many attempts, going through all of it leads to where it led from the start (`run_resume`).
-/

structure Replay (σ α : Type*) where
  step : σ → α → Option σ
  /-- what has been done in one state has been done in the other -/
  Extends : σ → σ → Prop
  refl : ∀ s, Extends s s
  trans : ∀ {s s' s''}, Extends s s' → Extends s' s'' → Extends s s''
  step_extends : ∀ {s s' a}, step s a = some s' → Extends s s'
  again : ∀ {s s' a}, step s a = some s' → step s' a = some s'
  keeps : ∀ {s s' a}, Extends s s' → step s a = some s → step s' a = some s'

namespace Replay

variable {σ α : Type*} (R : Replay σ α)

/-- Doing the step again changes nothing. -/
def Settled (s : σ) (a : α) : Prop := R.step s a = some s

/-- All the steps, in order. -/
def run (s : σ) (as : List α) : Option σ := as.foldlM R.step s

variable {R} {s s' : σ} {a : α} {as bs : List α}

@[simp] theorem run_nil : R.run s [] = some s := rfl

@[simp] theorem run_cons : R.run s (a :: as) = (R.step s a).bind fun s' => R.run s' as := rfl

theorem run_append : R.run s (as ++ bs) = (R.run s as).bind fun s' => R.run s' bs := by
  unfold run
  rw [List.foldlM_append]
  rfl

theorem Settled.mono (h : R.Extends s s') (hs : R.Settled s a) : R.Settled s' a := R.keeps h hs

theorem settled_step (h : R.step s a = some s') : R.Settled s' a := R.again h

theorem run_extends (h : R.run s as = some s') : R.Extends s s' := by
  induction as generalizing s with
  | nil =>
    cases h
    exact R.refl _
  | cons a as ih =>
    obtain ⟨s₁, hstep, hrest⟩ := Option.bind_eq_some_iff.mp h
    exact R.trans (R.step_extends hstep) (ih hrest)

/-- What has been done is settled at the end. -/
theorem settled_run (h : R.run s as = some s') : ∀ a ∈ as, R.Settled s' a := by
  induction as generalizing s with
  | nil => simp
  | cons a as ih =>
    obtain ⟨s₁, hstep, hrest⟩ := Option.bind_eq_some_iff.mp h
    intro b hb
    rcases List.mem_cons.mp hb with rfl | hb
    · exact (settled_step hstep).mono (run_extends hrest)
    · exact ih hrest b hb

/-- Settled steps lead nowhere. -/
theorem run_settled (h : ∀ a ∈ as, R.Settled s a) : R.run s as = some s := by
  induction as with
  | nil => rfl
  | cons a as ih =>
    have ha : R.step s a = some s := h a List.mem_cons_self
    rw [run_cons, ha, Option.bind_some]
    exact ih fun b hb => h b (List.mem_cons_of_mem a hb)

/-- **To go on is to start over.** When a step is done after those before it are settled, the whole list
    leads from there to where it led before. -/
theorem run_resume (hdone : ∀ b ∈ as, R.Settled s b) (h : R.step s a = some s') :
    R.run s' (as ++ a :: bs) = R.run s (as ++ a :: bs) := by
  have hdone' : ∀ b ∈ as, R.Settled s' b := fun b hb => (hdone b hb).mono (R.step_extends h)
  have hs' : R.step s' a = some s' := settled_step h
  calc R.run s' (as ++ a :: bs)
      = R.run s' (a :: bs) := by rw [run_append, run_settled hdone', Option.bind_some]
    _ = R.run s' bs := by rw [run_cons, hs', Option.bind_some]
    _ = R.run s (a :: bs) := by rw [run_cons, h, Option.bind_some]
    _ = R.run s (as ++ a :: bs) := by rw [run_append, run_settled hdone, Option.bind_some]

end Replay
