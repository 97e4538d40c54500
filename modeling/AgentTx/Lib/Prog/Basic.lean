import AgentTx.Lib.Lts

/-!
# `Lib.Prog.Basic` — programs over a shared state, and systems of them

A `Prog τ σ ε α` is a program that works on a shared state `σ` in atomic steps: each step carries a tag
`τ` (which statement it is), may be blocked (`none`), and hands its result to the rest of the program.
Programs are values, so code is transcribed in `do` notation and its atomic steps can be interleaved.

`System` is any number of processes, each with its own program, over one shared state. Its labels are a
process starting, taking its next step, dying, and an event of the environment; a label names the
statement executed, so the labels of a run are its trace.
-/

/-- A program: it has returned, it has raised, or it makes an atomic step and goes on. -/
inductive Prog (τ σ ε α : Type) : Type 1 where
  | ret (a : α)
  | raise (e : ε)
  | op {β : Type} (t : τ) (act : σ → Option (β × σ)) (k : β → Prog τ σ ε α)

namespace Prog

variable {τ σ ε α β : Type}

protected def bind : Prog τ σ ε α → (α → Prog τ σ ε β) → Prog τ σ ε β
  | .ret a, f => f a
  | .raise e, _ => .raise e
  | .op t act k, f => .op t act fun b => (k b).bind f

instance : Monad (Prog τ σ ε) where
  pure := .ret
  bind := Prog.bind

@[simp] theorem ret_bind (a : α) (f : α → Prog τ σ ε β) : (Prog.ret a >>= f) = f a := rfl

@[simp] theorem pure_bind (a : α) (f : α → Prog τ σ ε β) : (pure a >>= f) = f a := rfl

@[simp] theorem raise_bind (e : ε) (f : α → Prog τ σ ε β) : (Prog.raise e >>= f) = .raise e := rfl

@[simp] theorem op_bind {γ : Type} (t : τ) (act : σ → Option (γ × σ)) (k : γ → Prog τ σ ε α)
    (f : α → Prog τ σ ε β) : (Prog.op t act k >>= f) = .op t act fun b => k b >>= f := rfl

theorem bind_assoc {γ : Type} (p : Prog τ σ ε α) (f : α → Prog τ σ ε β) (g : β → Prog τ σ ε γ) :
    (p >>= f >>= g) = (p >>= fun a => f a >>= g) := by
  induction p with
  | ret a => rfl
  | raise e => rfl
  | op t act k ih =>
    simp only [op_bind]
    congr 1
    funext b
    exact ih b

/-- One atomic step. -/
def step (t : τ) (act : σ → Option (α × σ)) : Prog τ σ ε α := .op t act .ret

/-- A step that is always enabled and only writes. -/
def modify (t : τ) (f : σ → σ) : Prog τ σ ε Unit := step t fun s => some ((), f s)

/-- A step that is always enabled and only reads. -/
def read (t : τ) (f : σ → α) : Prog τ σ ε α := step t fun s => some (f s, s)

/-- `try: p except e: h e`. -/
def tryCatch : Prog τ σ ε α → (ε → Prog τ σ ε α) → Prog τ σ ε α
  | .ret a, _ => .ret a
  | .raise e, h => h e
  | .op t act k, h => .op t act fun b => (k b).tryCatch h

/-- A computation that touches no shared state but may raise. -/
def ofExcept : Except ε α → Prog τ σ ε α
  | .ok a => .ret a
  | .error e => .raise e

/-- A value that may be missing, with the exception it raises then. -/
def ofOption (e : ε) (o : Option α) : Prog τ σ ε α := ofExcept (o.elim (.error e) .ok)

/-- `for x in xs: body x`. -/
def forEach {γ : Type} (xs : List γ) (body : γ → Prog τ σ ε Unit) : Prog τ σ ε Unit :=
  match xs with
  | [] => .ret ()
  | x :: xs => body x >>= fun _ => forEach xs body

/-- `if c: p`, where the program goes on in either case. -/
def onlyIf (c : Prop) [Decidable c] (p : Prog τ σ ε Unit) : Prog τ σ ε Unit := if c then p else .ret ()

@[simp] theorem forEach_nil {γ : Type} (body : γ → Prog τ σ ε Unit) : forEach [] body = .ret () := rfl

@[simp] theorem forEach_cons {γ : Type} (x : γ) (xs : List γ) (body : γ → Prog τ σ ε Unit) :
    forEach (x :: xs) body = (body x >>= fun _ => forEach xs body) := rfl

end Prog

/-! ## Systems -/

/-- Processes over a shared state. -/
structure System (ι κ τ σ ε α : Type) where
  /-- the program of each process -/
  main : ι → Prog τ σ ε α
  /-- what the death of a process does to the shared state -/
  abort : ι → σ → σ
  /-- the events of the environment -/
  env : κ → σ → Option σ
  /-- whether an event kills every running process -/
  kills : κ → Bool

/-- A process has not started, runs (or has finished, when what is left is `ret` or `raise`), or died. -/
inductive Proc (τ σ ε α : Type) : Type 1 where
  | fresh
  | running (p : Prog τ σ ε α)
  | dead

namespace Proc

variable {τ σ ε α : Type}

/-- A running process dies; one that has not started is not there to die. -/
def kill : Proc τ σ ε α → Proc τ σ ε α
  | fresh => fresh
  | running _ => dead
  | dead => dead

end Proc

/-- The shared state and the processes. -/
structure Config (ι τ σ ε α : Type) : Type 1 where
  shared : σ
  procs : ι → Proc τ σ ε α

/-- What happens next. -/
inductive Label (ι κ τ : Type) where
  | spawn (i : ι)
  | next (i : ι) (t : τ)
  | die (i : ι)
  | env (e : κ)

namespace System

variable {ι κ τ σ ε α : Type} [DecidableEq ι] [DecidableEq τ]

/-- One step of the system; `none` when the label is not enabled. -/
def step (S : System ι κ τ σ ε α) (c : Config ι τ σ ε α) : Label ι κ τ → Option (Config ι τ σ ε α)
  | .spawn i =>
      match c.procs i with
      | .fresh => some ⟨c.shared, Function.update c.procs i (.running (S.main i))⟩
      | _ => none
  | .next i t =>
      match c.procs i with
      | .running (.op t' act k) =>
          if t' = t then
            (act c.shared).map fun r => ⟨r.2, Function.update c.procs i (.running (k r.1))⟩
          else none
      | _ => none
  | .die i =>
      match c.procs i with
      | .running _ => some ⟨S.abort i c.shared, Function.update c.procs i .dead⟩
      | _ => none
  | .env e =>
      (S.env e c.shared).map fun s =>
        ⟨s, fun i => if S.kills e then (c.procs i).kill else c.procs i⟩

/-- Every process is still to start. -/
def Start (init : σ → Prop) (c : Config ι τ σ ε α) : Prop :=
  init c.shared ∧ ∀ i, c.procs i = .fresh

/-- The states a system reaches. -/
def Reachable (S : System ι κ τ σ ε α) (init : σ → Prop) : Config ι τ σ ε α → Prop :=
  Lts.Reachable (Lts.ofFun S.step) (Start init)

/-- A condition on the statements executed, as a condition on the steps of a run. -/
def okStep (ok : ι → τ → σ → Prop) (c : Config ι τ σ ε α) : Label ι κ τ → Prop
  | .next i t => ok i t c.shared
  | _ => True

/-- The states reached when every statement is executed where `ok` holds. -/
def ReachableWhen (S : System ι κ τ σ ε α) (ok : ι → τ → σ → Prop) (init : σ → Prop) :
    Config ι τ σ ε α → Prop :=
  Lts.Reachable (Lts.guard (okStep ok) (Lts.ofFun S.step)) (Start init)

theorem Reachable.when {S : System ι κ τ σ ε α} {init : σ → Prop} {c : Config ι τ σ ε α}
    {ok : ι → τ → σ → Prop} (hc : S.Reachable init c) (hok : ∀ i t s, ok i t s) :
    S.ReachableWhen ok init c := by
  refine Lts.Reachable.guard hc fun c l => ?_
  cases l with
  | next i t => exact hok i t _
  | spawn i => exact trivial
  | die i => exact trivial
  | env e => exact trivial

/-- A process takes the step its program is at. -/
theorem step_next {S : System ι κ τ σ ε α} {c : Config ι τ σ ε α} {i : ι} {t : τ} {β : Type}
    {act : σ → Option (β × σ)} {k : β → Prog τ σ ε α} {b : β} {s : σ}
    (hp : c.procs i = .running (.op t act k)) (h : act c.shared = some (b, s)) :
    S.step c (.next i t) = some ⟨s, Function.update c.procs i (.running (k b))⟩ := by
  simp only [step, hp, if_true, h, Option.map_some]

/-- **Inversion.** What a step can be, by its label. -/
theorem step_cases {S : System ι κ τ σ ε α} {c c' : Config ι τ σ ε α} {l : Label ι κ τ}
    (h : S.step c l = some c') :
    (∃ i, l = .spawn i ∧ c.procs i = .fresh ∧
      c' = ⟨c.shared, Function.update c.procs i (.running (S.main i))⟩) ∨
    (∃ i t, ∃ (β : Type) (act : σ → Option (β × σ)) (k : β → Prog τ σ ε α) (b : β) (s : σ),
      l = .next i t ∧ c.procs i = .running (.op t act k) ∧ act c.shared = some (b, s) ∧
      c' = ⟨s, Function.update c.procs i (.running (k b))⟩) ∨
    (∃ i p, l = .die i ∧ c.procs i = .running p ∧
      c' = ⟨S.abort i c.shared, Function.update c.procs i .dead⟩) ∨
    (∃ e s, l = .env e ∧ S.env e c.shared = some s ∧
      c' = ⟨s, fun i => if S.kills e then (c.procs i).kill else c.procs i⟩) := by
  cases l with
  | spawn i =>
    simp only [step] at h
    split at h
    · rename_i hp
      exact Or.inl ⟨i, rfl, hp, (Option.some.inj h).symm⟩
    · cases h
  | next i t =>
    simp only [step] at h
    split at h
    · rename_i t' act k hp
      split_ifs at h with ht
      subst ht
      obtain ⟨⟨b, s⟩, hact, rfl⟩ := Option.map_eq_some_iff.mp h
      exact Or.inr (Or.inl ⟨i, _, _, act, k, b, s, rfl, hp, hact, rfl⟩)
    · cases h
  | die i =>
    simp only [step] at h
    split at h
    · rename_i p hp
      exact Or.inr (Or.inr (Or.inl ⟨i, p, rfl, hp, (Option.some.inj h).symm⟩))
    · cases h
  | env e =>
    obtain ⟨s, hs, rfl⟩ := Option.map_eq_some_iff.mp h
    exact Or.inr (Or.inr (Or.inr ⟨e, s, rfl, hs, rfl⟩))

end System
