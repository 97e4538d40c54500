import AgentTx.Lib.Prog.Basic

/-!
# `Lib.Prog.Run` — a program that runs alone

`run p s` is what becomes of `p` when nobody else takes a step: how it ends, and the state it leaves;
`none` when it is blocked. Every program that runs to its end so is a run of the system
(`Reachable.run`), and so is one that runs up to a point (`Steps`, `Reachable.steps`): this is how a
reachable state is exhibited.

Layout:
* `run` — with the rules for sequencing and handlers (`run_bind`, `run_tryCatch`).
* `Guarded` and `Only` — every step of such a run is taken where a condition holds, or has one of some tags.
* `Steps` — runs up to a point, which compose (`Steps.trans`).
* Reachable states — a process starts, runs while the others wait, dies; the environment acts. Each has a form for
  runs under a condition (`ReachableWhen`).
-/

namespace Prog

variable {τ σ ε α β : Type}

/-- Run to the end. -/
def run : Prog τ σ ε α → σ → Option (Except ε α × σ)
  | .ret a, s => some (.ok a, s)
  | .raise e, s => some (.error e, s)
  | .op _ act k, s => (act s).bind fun r => (k r.1).run r.2

@[simp] theorem run_ret (a : α) (s : σ) : (Prog.ret a : Prog τ σ ε α).run s = some (.ok a, s) := rfl

@[simp] theorem run_pure (a : α) (s : σ) : (pure a : Prog τ σ ε α).run s = some (.ok a, s) := rfl

@[simp] theorem run_raise (e : ε) (s : σ) : (Prog.raise e : Prog τ σ ε α).run s = some (.error e, s) := rfl

/-- How the rest of a program goes on from the end of its first part. -/
def andThen (f : α → Prog τ σ ε β) : Except ε α × σ → Option (Except ε β × σ)
  | (.ok a, s) => (f a).run s
  | (.error e, s) => some (.error e, s)

@[simp] theorem andThen_ok (f : α → Prog τ σ ε β) (a : α) (s : σ) : andThen f (.ok a, s) = (f a).run s := rfl

@[simp] theorem andThen_error (f : α → Prog τ σ ε β) (e : ε) (s : σ) :
    andThen f (.error e, s) = some (.error e, s) := rfl

@[simp] theorem run_bind (p : Prog τ σ ε α) (f : α → Prog τ σ ε β) (s : σ) :
    (p >>= f).run s = (p.run s).bind (andThen f) := by
  induction p generalizing s with
  | ret a => rfl
  | raise e => rfl
  | op t act k ih =>
    rw [op_bind, run, run, Option.bind_assoc]
    congr 1
    funext r
    exact ih r.1 r.2

/-- How a handler goes on. -/
def orElse (h : ε → Prog τ σ ε α) : Except ε α × σ → Option (Except ε α × σ)
  | (.ok a, s) => some (.ok a, s)
  | (.error e, s) => (h e).run s

@[simp] theorem orElse_ok (h : ε → Prog τ σ ε α) (a : α) (s : σ) : orElse h (.ok a, s) = some (.ok a, s) := rfl

@[simp] theorem orElse_error (h : ε → Prog τ σ ε α) (e : ε) (s : σ) : orElse h (.error e, s) = (h e).run s := rfl

@[simp] theorem run_tryCatch (p : Prog τ σ ε α) (h : ε → Prog τ σ ε α) (s : σ) :
    (p.tryCatch h).run s = (p.run s).bind (orElse h) := by
  induction p generalizing s with
  | ret a => rfl
  | raise e => rfl
  | op t act k ih =>
    rw [tryCatch, run, run, Option.bind_assoc]
    congr 1
    funext r
    exact ih r.1 r.2

@[simp] theorem run_step (t : τ) (act : σ → Option (α × σ)) (s : σ) :
    (step t act : Prog τ σ ε α).run s = (act s).map fun r => (.ok r.1, r.2) := by
  rw [step, run]
  cases act s <;> rfl

@[simp] theorem run_modify (t : τ) (f : σ → σ) (s : σ) :
    (modify t f : Prog τ σ ε Unit).run s = some (.ok (), f s) := rfl

@[simp] theorem run_read (t : τ) (f : σ → α) (s : σ) :
    (read t f : Prog τ σ ε α).run s = some (.ok (f s), s) := rfl

@[simp] theorem run_ofExcept (r : Except ε α) (s : σ) :
    (ofExcept r : Prog τ σ ε α).run s = some (r, s) := by
  cases r <;> rfl

@[simp] theorem run_ofOption (e : ε) (o : Option α) (s : σ) :
    (ofOption e o : Prog τ σ ε α).run s = some (o.elim (.error e) .ok, s) := by
  cases o <;> rfl

/-! ## Under a condition on the steps -/

/-- Run alone from `s`, every step of the program is taken where `ok` holds. -/
def Guarded (ok : τ → σ → Prop) : Prog τ σ ε α → σ → Prop
  | .ret _, _ => True
  | .raise _, _ => True
  | .op t act k, s => ok t s ∧ ∀ b s', act s = some (b, s') → (k b).Guarded ok s'

section Guarded

variable {ok : τ → σ → Prop}

@[simp] theorem guarded_ret (a : α) (s : σ) : (Prog.ret a : Prog τ σ ε α).Guarded ok s := trivial

@[simp] theorem guarded_pure (a : α) (s : σ) : (pure a : Prog τ σ ε α).Guarded ok s := trivial

@[simp] theorem guarded_raise (e : ε) (s : σ) : (Prog.raise e : Prog τ σ ε α).Guarded ok s := trivial

@[simp] theorem guarded_step (t : τ) (act : σ → Option (α × σ)) (s : σ) :
    (step t act : Prog τ σ ε α).Guarded ok s ↔ ok t s := by
  simp [step, Guarded]

@[simp] theorem guarded_modify (t : τ) (f : σ → σ) (s : σ) :
    (modify t f : Prog τ σ ε Unit).Guarded ok s ↔ ok t s := guarded_step ..

@[simp] theorem guarded_read (t : τ) (f : σ → α) (s : σ) :
    (read t f : Prog τ σ ε α).Guarded ok s ↔ ok t s := guarded_step ..

@[simp] theorem guarded_ofExcept (r : Except ε α) (s : σ) : (ofExcept r : Prog τ σ ε α).Guarded ok s := by
  cases r <;> trivial

@[simp] theorem guarded_ofOption (e : ε) (o : Option α) (s : σ) :
    (ofOption e o : Prog τ σ ε α).Guarded ok s := guarded_ofExcept ..

@[simp] theorem guarded_bind (p : Prog τ σ ε α) (f : α → Prog τ σ ε β) (s : σ) :
    (p >>= f).Guarded ok s ↔
      p.Guarded ok s ∧ ∀ a s', p.run s = some (.ok a, s') → (f a).Guarded ok s' := by
  induction p generalizing s with
  | ret a => simp
  | raise e => simp
  | op t act k ih =>
    simp only [op_bind, Guarded, ih, run, Option.bind_eq_some_iff]
    constructor
    · intro h
      refine ⟨⟨h.1, fun b s' hb => (h.2 b s' hb).1⟩, ?_⟩
      rintro a s' ⟨⟨b, s₁⟩, hb, hrun⟩
      exact (h.2 b s₁ hb).2 a s' hrun
    · intro h
      exact ⟨h.1.1, fun b s₁ hb => ⟨h.1.2 b s₁ hb, fun a s' hrun => h.2 a s' ⟨(b, s₁), hb, hrun⟩⟩⟩

@[simp] theorem guarded_tryCatch (p : Prog τ σ ε α) (g : ε → Prog τ σ ε α) (s : σ) :
    (p.tryCatch g).Guarded ok s ↔
      p.Guarded ok s ∧ ∀ e s', p.run s = some (.error e, s') → (g e).Guarded ok s' := by
  induction p generalizing s with
  | ret a => simp [tryCatch]
  | raise e => simp [tryCatch]
  | op t act k ih =>
    simp only [tryCatch, Guarded, ih, run, Option.bind_eq_some_iff]
    constructor
    · intro h
      refine ⟨⟨h.1, fun b s' hb => (h.2 b s' hb).1⟩, ?_⟩
      rintro e s' ⟨⟨b, s₁⟩, hb, hrun⟩
      exact (h.2 b s₁ hb).2 e s' hrun
    · intro h
      exact ⟨h.1.1, fun b s₁ hb => ⟨h.1.2 b s₁ hb, fun e s' hrun => h.2 e s' ⟨(b, s₁), hb, hrun⟩⟩⟩

theorem guarded_of_forall (h : ∀ t s, ok t s) (p : Prog τ σ ε α) (s : σ) : p.Guarded ok s := by
  induction p generalizing s with
  | ret a => trivial
  | raise e => trivial
  | op t act k ih => exact ⟨h t s, fun b s' _ => ih b s'⟩

end Guarded

/-! ## Under a condition on the tags -/

/-- Every step of the program has a tag in `T`, wherever it is run. -/
def Only (T : τ → Prop) : Prog τ σ ε α → Prop
  | .ret _ => True
  | .raise _ => True
  | .op t _ k => T t ∧ ∀ b, (k b).Only T

section Only

variable {T : τ → Prop}

@[simp] theorem only_ret (a : α) : (Prog.ret a : Prog τ σ ε α).Only T := trivial

@[simp] theorem only_pure (a : α) : (pure a : Prog τ σ ε α).Only T := trivial

@[simp] theorem only_raise (e : ε) : (Prog.raise e : Prog τ σ ε α).Only T := trivial

@[simp] theorem only_step (t : τ) (act : σ → Option (α × σ)) : (step t act : Prog τ σ ε α).Only T ↔ T t := by
  simp [step, Only]

@[simp] theorem only_modify (t : τ) (f : σ → σ) : (modify t f : Prog τ σ ε Unit).Only T ↔ T t := only_step ..

@[simp] theorem only_read (t : τ) (f : σ → α) : (read t f : Prog τ σ ε α).Only T ↔ T t := only_step ..

@[simp] theorem only_ofExcept (r : Except ε α) : (ofExcept r : Prog τ σ ε α).Only T := by
  cases r <;> trivial

@[simp] theorem only_ofOption (e : ε) (o : Option α) : (ofOption e o : Prog τ σ ε α).Only T := only_ofExcept _

@[simp] theorem only_bind {p : Prog τ σ ε α} {f : α → Prog τ σ ε β} (hp : p.Only T) (hf : ∀ a, (f a).Only T) :
    (p >>= f).Only T := by
  induction p with
  | ret a => exact hf a
  | raise e => trivial
  | op t act k ih => exact ⟨hp.1, fun b => ih b (hp.2 b)⟩

@[simp] theorem only_tryCatch {p : Prog τ σ ε α} {g : ε → Prog τ σ ε α} (hp : p.Only T) (hg : ∀ e, (g e).Only T) :
    (p.tryCatch g).Only T := by
  induction p with
  | ret a => trivial
  | raise e => exact hg e
  | op t act k ih => exact ⟨hp.1, fun b => ih b (hp.2 b)⟩

/-- A condition on the steps that all tags in `T` meet anywhere. -/
theorem Only.guarded {ok : τ → σ → Prop} {p : Prog τ σ ε α} (hp : p.Only T) (hok : ∀ t s, T t → ok t s) (s : σ) :
    p.Guarded ok s := by
  induction p generalizing s with
  | ret a => trivial
  | raise e => trivial
  | op t act k ih => exact ⟨hok t s hp.1, fun b s' _ => ih b (hp.2 b) s'⟩

end Only

/-! ## Up to a point -/

/-- `p` runs alone from `s` up to `t`, where it is at `q`, and takes every step where `ok` holds. -/
inductive Steps (ok : τ → σ → Prop) : Prog τ σ ε α → σ → Prog τ σ ε α → σ → Prop where
  | refl {p : Prog τ σ ε α} {s : σ} : Steps ok p s p s
  | head {γ : Type} {t : τ} {act : σ → Option (γ × σ)} {k : γ → Prog τ σ ε α} {s s' s'' : σ} {b : γ}
      {q : Prog τ σ ε α} : ok t s → act s = some (b, s') → Steps ok (k b) s' q s'' →
        Steps ok (.op t act k) s q s''

namespace Steps

variable {ok : τ → σ → Prop} {p q r : Prog τ σ ε α} {s s' s'' : σ}

theorem trans (h : Steps ok p s q s') (h' : Steps ok q s' r s'') : Steps ok p s r s'' := by
  induction h with
  | refl => exact h'
  | head hok hact _ ih => exact .head hok hact (ih h')

/-- A weaker condition. -/
theorem mono {ok' : τ → σ → Prop} (hok : ∀ t s, ok t s → ok' t s) (h : Steps ok p s q s') :
    Steps ok' p s q s' := by
  induction h with
  | refl => exact .refl
  | head h hact _ ih => exact .head (hok _ _ h) hact ih

/-- The first part of a program. -/
theorem bind (h : Steps ok p s q s') (f : α → Prog τ σ ε β) : Steps ok (p >>= f) s (q >>= f) s' := by
  induction h with
  | refl => exact .refl
  | head hok hact _ ih => exact .head hok hact ih

/-- The body under a handler. -/
theorem tryCatch (h : Steps ok p s q s') (g : ε → Prog τ σ ε α) :
    Steps ok (p.tryCatch g) s (q.tryCatch g) s' := by
  induction h with
  | refl => exact .refl
  | head hok hact _ ih => exact .head hok hact ih

/-- What a program comes to an end with. -/
def fin : Except ε α → Prog τ σ ε α
  | .ok a => .ret a
  | .error e => .raise e

/-- The whole of a program. -/
theorem of_run {a : Except ε α} (hok : p.Guarded ok s) (h : p.run s = some (a, s')) :
    Steps ok p s (fin a) s' := by
  induction p generalizing s with
  | ret a' =>
    cases h
    exact .refl
  | raise e =>
    cases h
    exact .refl
  | op t act k ih =>
    obtain ⟨r, hact, hrest⟩ := Option.bind_eq_some_iff.mp h
    exact .head hok.1 hact (ih r.1 (hok.2 r.1 r.2 hact) hrest)

/-- The first part of a program, all of it. -/
theorem of_run_bind {a : α} {f : α → Prog τ σ ε β} (hok : p.Guarded ok s)
    (h : p.run s = some (.ok a, s')) : Steps ok (p >>= f) s (f a) s' :=
  (of_run hok h).bind f

/-- The same without a condition on the steps. -/
theorem part {a : α} {f : α → Prog τ σ ε β} (h : p.run s = some (.ok a, s')) :
    Steps (fun _ _ => True) (p >>= f) s (f a) s' :=
  of_run_bind (guarded_of_forall (fun _ _ => trivial) p s) h

end Steps

end Prog

namespace System

variable {ι κ τ σ ε α : Type} [DecidableEq ι] [DecidableEq τ] {S : System ι κ τ σ ε α} {init : σ → Prop}
  {c : Config ι τ σ ε α} {i : ι}

/-- A process starts. -/
theorem reachable_spawn {ok : Config ι τ σ ε α → Label ι κ τ → Prop} {Init : Config ι τ σ ε α → Prop}
    (hc : Lts.Reachable (Lts.guard ok (Lts.ofFun S.step)) Init c) (hp : c.procs i = .fresh) (hok : ok c (.spawn i)) :
    Lts.Reachable (Lts.guard ok (Lts.ofFun S.step)) Init
      ⟨c.shared, Function.update c.procs i (.running (S.main i))⟩ := by
  refine Lts.Reachable.step hc (l := .spawn i) ⟨hok, ?_⟩
  simp only [Lts.ofFun, step, hp]

theorem ReachableWhen.spawn {ok : ι → τ → σ → Prop} (hc : S.ReachableWhen ok init c)
    (hp : c.procs i = .fresh) :
    S.ReachableWhen ok init ⟨c.shared, Function.update c.procs i (.running (S.main i))⟩ :=
  reachable_spawn hc hp trivial

theorem Reachable.spawn (hc : S.Reachable init c) (hp : c.procs i = .fresh) :
    S.Reachable init ⟨c.shared, Function.update c.procs i (.running (S.main i))⟩ :=
  (ReachableWhen.spawn (hc.when fun _ _ _ => trivial) hp).of_guard

/-- A process runs, while the others wait. The condition on the steps may look at the others. -/
theorem reachable_steps {ok : Config ι τ σ ε α → Label ι κ τ → Prop} {Init : Config ι τ σ ε α → Prop}
    {met : τ → σ → Prop} {p q : Prog τ σ ε α} {s : σ}
    (hc : Lts.Reachable (Lts.guard ok (Lts.ofFun S.step)) Init c) (hp : c.procs i = .running p)
    (h : p.Steps met c.shared q s)
    (hmet : ∀ t s' p', met t s' → ok ⟨s', Function.update c.procs i (.running p')⟩ (.next i t)) :
    Lts.Reachable (Lts.guard ok (Lts.ofFun S.step)) Init ⟨s, Function.update c.procs i (.running q)⟩ := by
  obtain ⟨s₀, procs⟩ := c
  replace hp : procs i = .running p := hp
  replace h : p.Steps met s₀ q s := h
  replace hmet : ∀ t s' p', met t s' → ok ⟨s', Function.update procs i (.running p')⟩ (.next i t) := hmet
  induction h generalizing procs with
  | refl =>
    rw [← hp, Function.update_eq_self]
    exact hc
  | @head _ t act k _ _ _ _ _ hok hact _ ih =>
    have hhere := hmet _ _ (.op t act k) hok
    rw [← hp, Function.update_eq_self] at hhere
    have hnext := ih _ (Lts.Reachable.step hc (l := .next i _) ⟨hhere, step_next hp hact⟩)
      (Function.update_self ..) fun t s' p' ht => by
        rw [Function.update_idem]
        exact hmet t s' p' ht
    rw [Function.update_idem] at hnext
    exact hnext

theorem ReachableWhen.steps {ok : ι → τ → σ → Prop} {p q : Prog τ σ ε α} {s : σ}
    (hc : S.ReachableWhen ok init c) (hp : c.procs i = .running p) (h : p.Steps (ok i) c.shared q s) :
    S.ReachableWhen ok init ⟨s, Function.update c.procs i (.running q)⟩ :=
  reachable_steps hc hp h fun _ _ _ ht => ht

theorem Reachable.steps {p q : Prog τ σ ε α} {s : σ} (hc : S.Reachable init c)
    (hp : c.procs i = .running p) (h : p.Steps (fun _ _ => True) c.shared q s) :
    S.Reachable init ⟨s, Function.update c.procs i (.running q)⟩ :=
  (ReachableWhen.steps (hc.when fun _ _ _ => trivial) hp h).of_guard

/-- A process runs to the end of its program. -/
theorem Reachable.run {p : Prog τ σ ε α} {a : α} {s : σ} (hc : S.Reachable init c)
    (hp : c.procs i = .running p) (hrun : p.run c.shared = some (.ok a, s)) :
    S.Reachable init ⟨s, Function.update c.procs i (.running (.ret a))⟩ :=
  hc.steps hp (.of_run (Prog.guarded_of_forall (fun _ _ => trivial) p _) hrun)

/-- A process dies where it is. -/
theorem Reachable.die {p : Prog τ σ ε α} (hc : S.Reachable init c) (hp : c.procs i = .running p) :
    S.Reachable init ⟨S.abort i c.shared, Function.update c.procs i .dead⟩ := by
  refine Lts.Reachable.step hc (l := .die i) ?_
  simp only [Lts.ofFun, step, hp]

/-- An event of the environment. -/
theorem ReachableWhen.env {ok : ι → τ → σ → Prop} {e : κ} {s : σ} (hc : S.ReachableWhen ok init c)
    (he : S.env e c.shared = some s) :
    S.ReachableWhen ok init ⟨s, fun i => if S.kills e then (c.procs i).kill else c.procs i⟩ := by
  refine Lts.Reachable.step hc (l := .env e) ⟨trivial, ?_⟩
  simp only [Lts.ofFun, step, he, Option.map_some]

theorem Reachable.env {e : κ} {s : σ} (hc : S.Reachable init c) (he : S.env e c.shared = some s) :
    S.Reachable init ⟨s, fun i => if S.kills e then (c.procs i).kill else c.procs i⟩ :=
  (ReachableWhen.env (hc.when fun _ _ _ => trivial) he).of_guard

end System
