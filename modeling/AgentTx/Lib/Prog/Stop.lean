import AgentTx.Lib.Prog.Run
import Mathlib.Data.Set.Finite.Basic

/-!
# `Lib.Prog.Stop` — everybody stops

However many processes a system has, only finitely many of them have started in a state that it reaches
(`Reachable.finite_running`). So all of them can die, one after the other (`kill_all`); what is left of the shared
state is what the deaths leave. One that starts afresh then runs by itself (`exec_spawn`).
-/

namespace System

variable {ι κ τ σ ε α : Type} [DecidableEq ι] [DecidableEq τ] {S : System ι κ τ σ ε α} {init : σ → Prop}
  {c c' : Config ι τ σ ε α}

/-- Process `i` runs, or has come to its end. -/
def Running (c : Config ι τ σ ε α) (i : ι) : Prop := ∃ p, c.procs i = .running p

omit [DecidableEq ι] [DecidableEq τ] in
theorem not_running_kill {q : Proc τ σ ε α} {p : Prog τ σ ε α} : q.kill ≠ .running p := by
  cases q <;> simp [Proc.kill]

omit [DecidableEq τ] in
/-- Changing one process leaves the others what they are. -/
theorem finite_update (h : {i | Running c i}.Finite) (s : σ) (i : ι) (q : Proc τ σ ε α) :
    {j | Running ⟨s, Function.update c.procs i q⟩ j}.Finite := by
  refine (h.insert i).subset fun j hj => ?_
  by_cases hji : j = i
  · exact Or.inl hji
  · obtain ⟨p, hp⟩ := hj
    simp only [Function.update_of_ne hji] at hp
    exact Or.inr ⟨p, hp⟩

/-- **A step starts at most one process.** -/
theorem finite_step {l : Label ι κ τ} (hstep : S.step c l = some c') (h : {i | Running c i}.Finite) :
    {i | Running c' i}.Finite := by
  rcases step_cases hstep with ⟨i, -, -, rfl⟩ | ⟨i, t, β, act, k, b, s, -, -, -, rfl⟩ | ⟨i, p, -, -, rfl⟩ |
    ⟨e, s, -, -, rfl⟩
  · exact finite_update h _ i _
  · exact finite_update h _ i _
  · exact finite_update h _ i _
  · refine h.subset fun i hi => ?_
    obtain ⟨p, hp⟩ := hi
    simp only at hp
    split_ifs at hp with hkills
    · exact absurd hp not_running_kill
    · exact ⟨p, hp⟩

/-- **Finitely many processes run.** -/
theorem Reachable.finite_running (hc : S.Reachable init c) : {i | Running c i}.Finite := by
  refine Lts.Reachable.invariant (fun c => {i | Running c i}.Finite) ?_ ?_ hc
  · rintro c ⟨-, hfresh⟩
    have hnone : {i | Running c i} = ∅ := by
      refine Set.eq_empty_of_forall_notMem fun i hi => ?_
      obtain ⟨p, hp⟩ := hi
      rw [hfresh i] at hp
      cases hp
    rw [hnone]
    exact Set.finite_empty
  · intro c l c' _ h hstep
    exact finite_step hstep h

/-- **They all die**, and `P`, which no death changes, still holds. -/
theorem kill_all {P : σ → Prop} (hP : ∀ i s, P s → P (S.abort i s)) (h : {i | Running c i}.Finite)
    (hc : P c.shared) : ∃ ls c', Lts.Exec (Lts.ofFun S.step) c ls c' ∧ (∀ l ∈ ls, ∃ i, l = .die i) ∧
      (∀ i, c'.procs i = (c.procs i).kill) ∧ P c'.shared := by
  obtain ⟨s, hs⟩ : ∃ s : Finset ι, ∀ i, Running c i → i ∈ s := ⟨h.toFinset, fun i hi => h.mem_toFinset.mpr hi⟩
  clear h
  -- by induction on the processes that may still run
  induction s using Finset.induction_on generalizing c with
  | empty =>
    refine ⟨[], c, .refl, nofun, fun i => ?_, hc⟩
    cases hp : c.procs i with
    | fresh => rfl
    | dead => rfl
    | running p => exact absurd (hs i ⟨p, hp⟩) (Finset.notMem_empty i)
  | insert a s _ ih =>
    cases hp : c.procs a with
    | running p =>
      have hdie : S.step c (.die a) = some ⟨S.abort a c.shared, Function.update c.procs a .dead⟩ := by
        simp only [step, hp]
      have hrest : ∀ i, Running ⟨S.abort a c.shared, Function.update c.procs a .dead⟩ i → i ∈ s := by
        rintro i ⟨q, hq⟩
        by_cases hia : i = a
        · rw [hia] at hq
          simp at hq
        · simp only [Function.update_of_ne hia] at hq
          exact Finset.mem_of_mem_insert_of_ne (hs i ⟨q, hq⟩) hia
      obtain ⟨ls, c', hrun, hls, hprocs, hP'⟩ := ih (hP a _ hc) hrest
      refine ⟨.die a :: ls, c', (Lts.Exec.single hdie).trans hrun, ?_, fun i => ?_, hP'⟩
      · intro l hl
        rcases List.mem_cons.mp hl with rfl | hl
        · exact ⟨a, rfl⟩
        · exact hls l hl
      · rw [hprocs i]
        by_cases hia : i = a
        · rw [hia, hp]
          simp [Proc.kill]
        · simp only [Function.update_of_ne hia]
    | fresh | dead =>
      refine ih hc fun i hi => ?_
      refine Finset.mem_of_mem_insert_of_ne (hs i hi) ?_
      rintro rfl
      obtain ⟨q, hq⟩ := hi
      rw [hp] at hq
      cases hq

/-- A process runs to the end of its program, while the others wait. -/
theorem exec_run {i : ι} {p : Prog τ σ ε α} {r : Except ε α} {s : σ} (hp : c.procs i = .running p)
    (hrun : p.run c.shared = some (r, s)) : ∃ ls, (∀ l ∈ ls, ∃ t, l = .next i t) ∧
      Lts.Exec (Lts.ofFun S.step) c ls ⟨s, Function.update c.procs i (.running (Prog.Steps.fin r))⟩ := by
  obtain ⟨s₀, procs⟩ := c
  simp only at hp hrun ⊢
  induction p generalizing s₀ procs with
  | ret a =>
    cases hrun
    rw [Prog.Steps.fin, ← hp, Function.update_eq_self]
    exact ⟨[], nofun, .refl⟩
  | raise e =>
    cases hrun
    rw [Prog.Steps.fin, ← hp, Function.update_eq_self]
    exact ⟨[], nofun, .refl⟩
  | op t act k ih =>
    obtain ⟨⟨b, s₁⟩, hact, hrest⟩ := Option.bind_eq_some_iff.mp hrun
    obtain ⟨ls, hls, hexec⟩ := ih b s₁ (Function.update procs i (.running (k b))) (Function.update_self ..) hrest
    rw [Function.update_idem] at hexec
    refine ⟨.next i t :: ls, ?_, (Lts.Exec.single (step_next hp hact)).trans hexec⟩
    intro l hl
    rcases List.mem_cons.mp hl with rfl | hl
    · exact ⟨t, rfl⟩
    · exact hls l hl

/-- What one process does by itself: it starts, and takes its steps. -/
def Own (i : ι) (l : Label ι κ τ) : Prop := l = .spawn i ∨ ∃ t, l = .next i t

/-- A process starts, and runs to its end. -/
theorem exec_spawn {i : ι} {r : Except ε α} {s : σ} (hp : c.procs i = .fresh)
    (hrun : (S.main i).run c.shared = some (r, s)) : ∃ ls, (∀ l ∈ ls, Own i l) ∧
      Lts.Exec (Lts.ofFun S.step) c ls ⟨s, Function.update c.procs i (.running (Prog.Steps.fin r))⟩ := by
  have hspawn : S.step c (.spawn i) = some ⟨c.shared, Function.update c.procs i (.running (S.main i))⟩ := by
    simp only [step, hp]
  obtain ⟨ls, hls, hexec⟩ := exec_run (S := S)
    (c := ⟨c.shared, Function.update c.procs i (.running (S.main i))⟩) (Function.update_self ..) hrun
  rw [Function.update_idem] at hexec
  refine ⟨.spawn i :: ls, ?_, (Lts.Exec.single hspawn).trans hexec⟩
  intro l hl
  rcases List.mem_cons.mp hl with rfl | hl
  · exact Or.inl rfl
  · exact Or.inr (hls l hl)

end System
