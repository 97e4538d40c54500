import AgentTx.Lib.Prog.RelyGuarantee

/-!
# `Lib.Prog.Ghost` — history variables

A condition on a run often speaks of what happened so far: who has opened a file and not closed it yet.
`history note g ls` folds the labels of a run into such a value, and `System.noting` is the system that
carries it in its state. The two have the same runs (`System.exec_noting`), so what is proved of the system
with the history, under a condition on each step that sees the history, holds of the runs of the plain
system that meet the condition (`System.reachableWhen_noting`). Of a run that is given as a list of labels the
condition is checked label by label (`HistoryOk.of_split`).
-/

/-- What is known after the labels `ls`, when `note` says what each of them adds. -/
def history {ι κ τ γ : Type} (note : Label ι κ τ → γ → γ) (g : γ) (ls : List (Label ι κ τ)) : γ :=
  ls.foldl (fun g l => note l g) g

@[simp] theorem history_nil {ι κ τ γ : Type} (note : Label ι κ τ → γ → γ) (g : γ) : history note g [] = g := rfl

@[simp] theorem history_concat {ι κ τ γ : Type} (note : Label ι κ τ → γ → γ) (g : γ) (ls : List (Label ι κ τ))
    (l : Label ι κ τ) : history note g (ls ++ [l]) = note l (history note g ls) := by
  simp [history]

/-- Each statement of a run is executed where `ok` holds of what happened before it. -/
def HistoryOk {ι κ τ γ : Type} (note : Label ι κ τ → γ → γ) (ok : ι → τ → γ → Prop) : γ → List (Label ι κ τ) → Prop
  | _, [] => True
  | g, .next i t :: ls => ok i t g ∧ HistoryOk note ok (note (.next i t) g) ls
  | g, l :: ls => HistoryOk note ok (note l g) ls

theorem HistoryOk.of_split {ι κ τ γ : Type} {note : Label ι κ τ → γ → γ} {ok : ι → τ → γ → Prop}
    {ls : List (Label ι κ τ)} : ∀ {g : γ}, HistoryOk note ok g ls →
      ∀ ms i t rest, ls = ms ++ .next i t :: rest → ok i t (history note g ms) := by
  induction ls with
  | nil => exact fun _ ms i t rest hls => absurd hls (by simp)
  | cons l ls ih =>
    intro g h ms i t rest hls
    -- only steps of a process are subject to the condition
    have htail : HistoryOk note ok (note l g) ls := by
      cases l with
      | next i t => exact h.2
      | spawn i => exact h
      | die i => exact h
      | env e => exact h
    cases ms with
    | nil =>
      cases hls
      exact h.1
    | cons m ms =>
      cases hls
      exact ih htail ms i t rest rfl

namespace Prog

variable {τ σ γ ε α β : Type} (note : τ → γ → γ)

/-- The program, keeping a history of its statements. -/
def noting : Prog τ σ ε α → Prog τ (σ × γ) ε α
  | .ret a => .ret a
  | .raise e => .raise e
  | .op t act k => .op t (fun s => (act s.1).map fun r => (r.1, (r.2, note t s.2))) fun b => (k b).noting

@[simp] theorem noting_ret (a : α) : (Prog.ret a : Prog τ σ ε α).noting note = .ret a := rfl

@[simp] theorem noting_pure (a : α) : (pure a : Prog τ σ ε α).noting note = .ret a := rfl

@[simp] theorem noting_raise (e : ε) : (Prog.raise e : Prog τ σ ε α).noting note = .raise e := rfl

@[simp] theorem noting_bind (p : Prog τ σ ε α) (f : α → Prog τ σ ε β) :
    (p >>= f).noting note = (p.noting note >>= fun a => (f a).noting note) := by
  induction p with
  | ret a => rfl
  | raise e => rfl
  | op t act k ih =>
    rw [op_bind, noting, noting, op_bind]
    congr 1
    funext b
    exact ih b

theorem noting_step (t : τ) (act : σ → Option (α × σ)) :
    (step t act : Prog τ σ ε α).noting note =
      step t fun s => (act s.1).map fun r => (r.1, (r.2, note t s.2)) := rfl

end Prog

namespace Proc

variable {τ σ γ ε α : Type} (note : τ → γ → γ)

def noting : Proc τ σ ε α → Proc τ (σ × γ) ε α
  | fresh => fresh
  | running p => running (p.noting note)
  | dead => dead

theorem noting_kill (q : Proc τ σ ε α) : q.kill.noting note = (q.noting note).kill := by
  cases q <;> rfl

/-- A program that raised is one that raised. -/
theorem noting_eq_raise {q : Proc τ σ ε α} {e : ε} :
    q.noting note = running (.raise e) ↔ q = running (.raise e) := by
  constructor
  · intro h
    cases q with
    | fresh => cases h
    | dead => cases h
    | running p =>
      cases p with
      | ret a => cases h
      | op t act k => cases h
      | raise e' =>
        cases h
        rfl
  · rintro rfl
    rfl

end Proc

namespace System

variable {ι κ τ σ γ ε α : Type}

/-- The system, keeping a history of its labels. -/
def noting (S : System ι κ τ σ ε α) (note : Label ι κ τ → γ → γ) : System ι κ τ (σ × γ) ε α where
  main i := (S.main i).noting fun t => note (.next i t)
  abort i s := (S.abort i s.1, note (.die i) s.2)
  env e s := (S.env e s.1).map fun s' => (s', note (.env e) s.2)
  kills := S.kills

/-- A configuration with the history `g`. -/
def withHistory (note : Label ι κ τ → γ → γ) (g : γ) (c : Config ι τ σ ε α) : Config ι τ (σ × γ) ε α :=
  ⟨(c.shared, g), fun i => (c.procs i).noting fun t => note (.next i t)⟩

variable [DecidableEq ι] {S : System ι κ τ σ ε α} {note : Label ι κ τ → γ → γ} {c c' : Config ι τ σ ε α}

theorem withHistory_update (g : γ) (s : σ) (procs : ι → Proc τ σ ε α) (i : ι) (q : Proc τ σ ε α) :
    withHistory note g ⟨s, Function.update procs i q⟩ =
      ⟨(s, g), Function.update (fun j => (procs j).noting fun t => note (.next j t)) i
        (q.noting fun t => note (.next i t))⟩ := by
  unfold withHistory
  congr 1
  funext j
  show Proc.noting _ (Function.update procs i q j) = _
  by_cases hj : j = i
  · subst hj
    rw [Function.update_self, Function.update_self]
  · rw [Function.update_of_ne hj, Function.update_of_ne hj]

variable [DecidableEq τ]

/-- **Step.** Each step is one of the system with the history. The start of a process is not noted. -/
theorem step_noting (hspawn : ∀ i g, note (.spawn i) g = g) {l : Label ι κ τ} (h : S.step c l = some c') (g : γ) :
    (S.noting note).step (withHistory note g c) l = some (withHistory note (note l g) c') := by
  -- a process starts, takes a step, dies; or the environment acts
  rcases step_cases h with ⟨i, rfl, hp, rfl⟩ | ⟨i, t, β, act, k, b, s, rfl, hp, hact, rfl⟩ |
    ⟨i, p, rfl, hp, rfl⟩ | ⟨e, s, rfl, he, rfl⟩
  · have hp' : (withHistory note g c).procs i = .fresh := by
      simp only [withHistory, hp, Proc.noting]
    rw [withHistory_update, hspawn]
    simp only [step, hp']
    rfl
  · have hp' : (withHistory note g c).procs i = .running (.op t
        (fun s => (act s.1).map fun r => (r.1, (r.2, note (.next i t) s.2)))
        fun b => (k b).noting fun t => note (.next i t)) := by
      simp only [withHistory, hp, Proc.noting, Prog.noting]
    rw [withHistory_update]
    have hact' : (act (withHistory note g c).shared.1).map
        (fun r => (r.1, (r.2, note (.next i t) (withHistory note g c).shared.2))) =
        some (b, (s, note (.next i t) g)) := by
      show (act c.shared).map _ = _
      rw [hact]
      rfl
    exact step_next hp' hact'
  · have hp' : (withHistory note g c).procs i = .running (p.noting fun t => note (.next i t)) := by
      simp only [withHistory, hp, Proc.noting]
    rw [withHistory_update]
    simp only [step, hp']
    rfl
  · simp only [step]
    show Option.map _ ((S.env e c.shared).map _) = _
    rw [he, Option.map_some, Option.map_some]
    congr 1
    unfold withHistory
    congr 1
    funext i
    show (if S.kills e then _ else _) = Proc.noting _ (if S.kills e then _ else _)
    split_ifs
    · rw [Proc.noting_kill]
    · rfl

/-- **Run.** A run of the system whose statements are all executed where `ok` holds of the history is a
    guarded run of the system with the history. -/
theorem reachableWhen_noting (hspawn : ∀ i g, note (.spawn i) g = g) {init : σ → Prop} {g : γ}
    {ok : ι → τ → γ → Prop} {c₀ : Config ι τ σ ε α} (h₀ : Start init c₀) {ls : List (Label ι κ τ)}
    (h : Lts.Exec (Lts.ofFun S.step) c₀ ls c)
    (hok : ∀ ms i t rest, ls = ms ++ .next i t :: rest → ok i t (history note g ms)) :
    (S.noting note).ReachableWhen (fun i t s => ok i t s.2) (fun s => init s.1 ∧ s.2 = g)
      (withHistory note (history note g ls) c) := by
  induction h with
  | refl =>
    refine Lts.Reachable.start ⟨⟨h₀.1, rfl⟩, fun i => ?_⟩
    simp only [withHistory, h₀.2 i, Proc.noting]
  | @tail c c' ls l _ hstep ih =>
    have hpre := ih fun ms i t rest hms => hok ms i t (rest ++ [l]) (by simp [hms])
    rw [history_concat]
    refine Lts.Reachable.step hpre (l := l) ⟨?_, step_noting hspawn hstep _⟩
    cases l with
    | next i t => exact hok ls i t [] rfl
    | spawn i => exact trivial
    | die i => exact trivial
    | env e => exact trivial

end System
