import AgentTx.Lib.Lts
import Mathlib.Data.List.Forall2

/-!
# `Lib.Refinement` — a system that does what another one says

`Refines T init A via f`: seen through `f`, a step of `T` out of a reachable state is one step of `A`, or none
at all. `via l m` says which steps of `A` a step labelled `l` may be. A run of `T` is then a run of `A`
(`Refines.exec`): its steps are those of the run that are seen, in their order.
-/

namespace Lts

variable {σ ι τ κ : Type*}

/-- `f` maps the steps of `T` to steps of `A`, or to nothing. -/
structure Refines (T : σ → ι → σ → Prop) (init : σ → Prop) (A : τ → κ → τ → Prop) (via : ι → κ → Prop)
    (f : σ → τ) : Prop where
  step : ∀ s l t, Reachable T init s → T s l t → f t = f s ∨ ∃ m, via l m ∧ A (f s) m (f t)

namespace Refines

variable {T : σ → ι → σ → Prop} {init : σ → Prop} {A : τ → κ → τ → Prop} {via : ι → κ → Prop} {f : σ → τ}

/-- **Runs refine.** `seen` are the labels of the steps that the abstract run takes too. -/
theorem exec (h : Refines T init A via f) {s t : σ} {ls : List ι} (hs : Reachable T init s) (hrun : Exec T s ls t) :
    ∃ ms seen, Exec A (f s) ms (f t) ∧ seen.Sublist ls ∧ List.Forall₂ via seen ms := by
  induction hrun with
  | refl => exact ⟨[], [], .refl, .slnil, .nil⟩
  | @tail t u ls l hpre hstep ih =>
    obtain ⟨ms, seen, habs, hsub, hvia⟩ := ih
    rcases h.step _ _ _ (hs.exec hpre) hstep with hsame | ⟨m, hm, hA⟩
    · -- nobody sees it
      rw [hsame]
      exact ⟨ms, seen, habs, hsub.trans (List.sublist_append_left ls [l]), hvia⟩
    · refine ⟨ms ++ [m], seen ++ [l], .tail habs hA, hsub.append (List.Sublist.refl [l]), ?_⟩
      exact List.rel_append hvia (.cons hm .nil)

/-- What the steps of `A` preserve holds of what is seen of a run, from where it holds at first. -/
theorem invariant (h : Refines T init A via f) (P : τ → Prop) (hA : ∀ a m b, P a → A a m b → P b) {s t : σ}
    {ls : List ι} (hs : Reachable T init s) (hrun : Exec T s ls t) (h₀ : P (f s)) : P (f t) := by
  obtain ⟨ms, -, habs, -⟩ := h.exec hs hrun
  exact habs.invariant P hA h₀

end Refines

end Lts
