import AgentTx.Lib.Prog.RelyGuarantee
import AgentTx.Lib.Prog.Run

/-!
# `Lib.Prog.Serial` — attempts at a program, one after the other

A `Serial` is one process that makes attempts: each starts when the one before it is over, and may be
stopped after any of its steps. The rules of `RelyGuarantee` apply with nobody to rely on (`alone`);
`Verified.stateOk` is the soundness theorem.

The first part is about a program that works on a part of the state only (`Prog.zoom`).
-/

namespace Prog

variable {τ τ' σ ρ ε ε' α β : Type} (t : τ) (get : σ → ρ) (set : ρ → σ → σ) (err : ε' → ε)

/-- A program on a part of the state, and with exceptions of its own. Its steps all carry the tag `t`. -/
def zoom : Prog τ' ρ ε' α → Prog τ σ ε α
  | .ret a => .ret a
  | .raise e => .raise (err e)
  | .op _ act k => .op t (fun s => (act (get s)).map fun r => (r.1, set r.2 s)) fun b => (k b).zoom

@[simp] theorem zoom_pure (a : α) : (pure a : Prog τ' ρ ε' α).zoom t get set err = pure a := rfl

@[simp] theorem zoom_raise (e : ε') : (raise e : Prog τ' ρ ε' α).zoom t get set err = raise (err e) := rfl

@[simp] theorem zoom_bind (p : Prog τ' ρ ε' α) (f : α → Prog τ' ρ ε' β) :
    (p >>= f).zoom t get set err = (p.zoom t get set err >>= fun a => (f a).zoom t get set err) := by
  induction p with
  | ret a => rfl
  | raise e => rfl
  | op t' act k ih =>
    simp only [op_bind, zoom]
    congr 1
    funext b
    exact ih b

/-- A program on a part of the state runs as it does alone. -/
theorem run_zoom (hget : ∀ s x, get (set x s) = x) (hset : ∀ s x y, set y (set x s) = set y s)
    (hsame : ∀ s, set (get s) s = s) (p : Prog τ' ρ ε' α) (s : σ) :
    (p.zoom t get set err).run s = (p.run (get s)).map fun r => (r.1.mapError err, set r.2 s) := by
  induction p generalizing s with
  | ret a =>
    simp only [zoom, run_ret, Option.map_some, Except.mapError, hsame]
  | raise e =>
    simp only [zoom, run_raise, Option.map_some, Except.mapError, hsame]
  | op t' act k ih =>
    simp only [zoom, run]
    cases hact : act (get s) with
    | none => rfl
    | some r =>
      simp only [Option.map_some, Option.bind_some, ih, hget, hset]

/-- All its steps carry one tag. -/
theorem guarded_zoom {ok : τ → σ → Prop} (h : ∀ s, ok t s) (p : Prog τ' ρ ε' α) (s : σ) :
    (p.zoom t get set err).Guarded ok s := by
  induction p generalizing s with
  | ret a => exact trivial
  | raise e => exact trivial
  | op t' act k ih => exact ⟨h s, fun b s' _ => ih b s'⟩

@[simp] theorem zoom_step (t' : τ') (act : ρ → Option (α × ρ)) :
    (step t' act : Prog τ' ρ ε' α).zoom t get set err =
      step t fun s => (act (get s)).map fun r => (r.1, set r.2 s) := rfl

end Prog

/-- **What a program does when it runs alone**, from its triple: it is not disturbed. -/
theorem RelyGuarantee.Triple.run {ι τ σ ε β : Type} {R : RelyGuarantee ι τ σ} {i : ι} {P : σ → Prop}
    {p : Prog τ σ ε β} {Q : β → σ → Prop} {E : ε → σ → Prop} (h : R.Triple i P p Q E)
    (hok : ∀ t s, R.Ok i t s) {s s' : σ} {r : Except ε β} (hs : R.Inv s) (hP : P s)
    (hrun : p.run s = some (r, s')) :
    R.Inv s' ∧ (∀ b, r = .ok b → Q b s') ∧ ∀ e, r = .error e → E e s' := by
  have hsafe := h s hs hP
  clear h hP
  induction p generalizing s with
  | ret b =>
    cases hrun
    exact ⟨hs, fun b' hb => by cases hb; exact hsafe, nofun⟩
  | raise e =>
    cases hrun
    exact ⟨hs, nofun, fun e' he => by cases he; exact hsafe⟩
  | op t act k ih =>
    obtain ⟨⟨b, s₁⟩, hact, hrest⟩ := Option.bind_eq_some_iff.mp hrun
    obtain ⟨-, hinv, hnext⟩ := hsafe s .refl (hok t s) b s₁ hact
    exact ih b hinv hrest hnext

/-- One attempt after the other. -/
structure Serial (κ τ σ ε α : Type) where
  /-- the program of an attempt -/
  main : κ → Prog τ σ ε α
  /-- what is set up for an attempt -/
  start : κ → σ → σ
  /-- what the end of an attempt does, however it comes -/
  close : σ → σ

namespace Serial

/-- What happens next. -/
inductive Label (κ τ : Type) where
  | start (k : κ)
  | next (t : τ)
  | stop

/-- The shared state, and the attempt under way. -/
structure State (τ σ ε α : Type) : Type 1 where
  shared : σ
  proc : Option (Prog τ σ ε α)

variable {κ τ σ ε α : Type} [DecidableEq τ]

def step (S : Serial κ τ σ ε α) (c : State τ σ ε α) : Label κ τ → Option (State τ σ ε α)
  | .start k =>
      match c.proc with
      | none => some ⟨S.start k c.shared, some (S.main k)⟩
      | some _ => none
  | .next t =>
      match c.proc with
      | some (.op t' act k) =>
          if t' = t then (act c.shared).map fun r => ⟨r.2, some (k r.1)⟩ else none
      | _ => none
  | .stop =>
      match c.proc with
      | some _ => some ⟨S.close c.shared, none⟩
      | none => none

/-- A condition on the steps of attempts. -/
def okStep (ok : τ → σ → Prop) (c : State τ σ ε α) : Label κ τ → Prop
  | .next t => ok t c.shared
  | _ => True

/-- The states reached when every step of an attempt is taken where `ok` holds. -/
def Reachable (S : Serial κ τ σ ε α) (ok : τ → σ → Prop) (init : σ → Prop) : State τ σ ε α → Prop :=
  Lts.Reachable (Lts.guard (okStep ok) (Lts.ofFun S.step)) fun c => init c.shared ∧ c.proc = none

variable {S : Serial κ τ σ ε α} {ok : τ → σ → Prop} {init : σ → Prop} {c c' : State τ σ ε α}

/-- **Inversion.** What a step can be, by its label. -/
theorem step_cases {l : Label κ τ} (h : S.step c l = some c') :
    (∃ k, l = .start k ∧ c.proc = none ∧ c' = ⟨S.start k c.shared, some (S.main k)⟩) ∨
    (∃ t, ∃ (β : Type) (act : σ → Option (β × σ)) (k : β → Prog τ σ ε α) (b : β) (s : σ),
      l = .next t ∧ c.proc = some (.op t act k) ∧ act c.shared = some (b, s) ∧ c' = ⟨s, some (k b)⟩) ∨
    (∃ p, l = .stop ∧ c.proc = some p ∧ c' = ⟨S.close c.shared, none⟩) := by
  cases l with
  | start k =>
    simp only [step] at h
    split at h
    · rename_i hp
      exact Or.inl ⟨k, rfl, hp, (Option.some.inj h).symm⟩
    · cases h
  | next t =>
    simp only [step] at h
    split at h
    · rename_i t' act k hp
      split_ifs at h with ht
      subst ht
      obtain ⟨⟨b, s⟩, hact, rfl⟩ := Option.map_eq_some_iff.mp h
      exact Or.inr (Or.inl ⟨_, _, act, k, b, s, rfl, hp, hact, rfl⟩)
    · cases h
  | stop =>
    simp only [step] at h
    split at h
    · rename_i p hp
      exact Or.inr (Or.inr ⟨p, rfl, hp, (Option.some.inj h).symm⟩)
    · cases h

/-- What holds of every step, when it holds of the statements and of how attempts start and end. -/
theorem step_within {l : Label κ τ} (G : σ → σ → Prop) (hstart : ∀ k s, G s (S.start k s))
    (hnext : ∀ t, l = .next t → G c.shared c'.shared) (hclose : ∀ s, G s (S.close s)) (h : S.step c l = some c') :
    G c.shared c'.shared := by
  rcases step_cases h with ⟨k, -, -, rfl⟩ | ⟨t, β, act, k, b, s, hl, -, -, -⟩ | ⟨p, -, -, rfl⟩
  · exact hstart k c.shared
  · exact hnext t hl
  · exact hclose c.shared

/-! ## Reaching a state -/

theorem Reachable.begin (hc : S.Reachable ok init c) (hp : c.proc = none) (k : κ) :
    S.Reachable ok init ⟨S.start k c.shared, some (S.main k)⟩ := by
  refine Lts.Reachable.step hc (l := .start k) ⟨trivial, ?_⟩
  simp only [Lts.ofFun, step, hp]

theorem Reachable.steps {p q : Prog τ σ ε α} {s : σ} (hc : S.Reachable ok init c) (hp : c.proc = some p)
    (h : p.Steps ok c.shared q s) : S.Reachable ok init ⟨s, some q⟩ := by
  obtain ⟨s₀, proc⟩ := c
  cases hp
  replace h : p.Steps ok s₀ q s := h
  induction h with
  | refl => exact hc
  | @head γ t act k s₁ s₂ s₃ b q hok hact _ ih =>
    refine ih (Lts.Reachable.step hc (l := .next t) ⟨hok, ?_⟩)
    simp only [Lts.ofFun, step, if_true, hact, Option.map_some]

/-- An attempt comes to its end, if nothing stops it. -/
theorem Reachable.run {p : Prog τ σ ε α} {a : Except ε α} {s : σ} (hc : S.Reachable ok init c)
    (hp : c.proc = some p) (hok : p.Guarded ok c.shared) (hrun : p.run c.shared = some (a, s)) :
    S.Reachable ok init ⟨s, some (Prog.Steps.fin a)⟩ :=
  hc.steps hp (.of_run hok hrun)

theorem Reachable.halt {p : Prog τ σ ε α} (hc : S.Reachable ok init c) (hp : c.proc = some p) :
    S.Reachable ok init ⟨S.close c.shared, none⟩ := by
  refine Lts.Reachable.step hc (l := .stop) ⟨trivial, ?_⟩
  simp only [Lts.ofFun, step, hp]

/-! ## Proofs -/

section Alone

variable {β : Type} (inv : σ → Prop) (guar : τ → σ → σ → Prop) (ok : τ → σ → Prop)

/-- The rules with nobody to rely on. -/
def alone : RelyGuarantee Unit τ σ where
  Inv := inv
  Rely _ _ _ := False
  Guar _ := guar
  Ok _ := ok

variable {inv guar ok}

omit [DecidableEq τ] in
theorem stable_alone (P : σ → Prop) : (alone inv guar ok).Stable () P := fun _ _ _ _ h => h.elim

omit [DecidableEq τ] in
/-- What a program does when nobody else is there, from its triple. -/
theorem triple_run {P : σ → Prop} {p : Prog τ σ ε β} {Q : β → σ → Prop} {E : ε → σ → Prop}
    (h : (alone inv guar fun _ _ => True).Triple () P p Q E) {s s' : σ} {r : Except ε β} (hs : inv s)
    (hP : P s) (hrun : p.run s = some (r, s')) :
    inv s' ∧ (∀ b, r = .ok b → Q b s') ∧ ∀ e, r = .error e → E e s' :=
  h.run (fun _ _ => trivial) hs hP hrun

omit [DecidableEq τ] in
/-- Of any program, nothing is known. -/
theorem triple_any (p : Prog τ σ ε β) :
    (alone (fun _ => True) (fun _ _ _ => True) ok).Triple () (fun _ => True) p (fun _ _ => True)
      fun _ _ => True := by
  induction p with
  | ret a => exact fun _ _ _ => trivial
  | raise e => exact fun _ _ _ => trivial
  | op t act k ih => exact fun _ _ _ _ _ _ b s _ => ⟨trivial, trivial, ih b s trivial trivial⟩

omit [DecidableEq τ] in
/-- **A program on a part of the state**, from its triple there. `frame` is what is known of the rest. -/
theorem triple_zoom {τ' ρ ε' γ : Type} {t : τ} {get : σ → ρ} {set : ρ → σ → σ} {err : ε' → ε} {inv' : ρ → Prop}
    {guar' : τ' → ρ → ρ → Prop} {frame : σ → Prop} {P : ρ → Prop} {p : Prog τ' ρ ε' γ} {Q : γ → ρ → Prop}
    {E : ε' → ρ → Prop} (h : (alone inv' guar' fun _ _ => True).Triple () P p Q E)
    (hget : ∀ s x, get (set x s) = x)
    (hstep : ∀ s x, ok t s → frame s → inv' (get s) → inv' x →
      guar t s (set x s) ∧ inv (set x s) ∧ frame (set x s)) :
    (alone inv guar ok).Triple () (fun s => frame s ∧ inv' (get s) ∧ P (get s)) (p.zoom t get set err)
      (fun a s => frame s ∧ inv' (get s) ∧ Q a (get s)) fun e s => ∃ e', e = err e' ∧ frame s ∧ E e' (get s) := by
  rintro s - ⟨hframe, hinv', hP⟩
  have hsafe := h (get s) hinv' hP
  clear h hP
  induction p generalizing s with
  | ret a => exact ⟨hframe, hinv', hsafe⟩
  | raise e => exact ⟨e, rfl, hframe, hsafe⟩
  | op t' act k ih =>
    intro s₁ hi hok b s₂ hact
    obtain rfl : s₁ = s := (stable_alone fun s' => s' = s).interfere hi rfl
    obtain ⟨⟨b', x⟩, hx, he⟩ := Option.map_eq_some_iff.mp hact
    cases he
    obtain ⟨-, hinvx, hrest⟩ := hsafe (get s₁) .refl trivial b' x hx
    obtain ⟨hguar, hinv, hframe'⟩ := hstep s₁ x hok hframe hinv' hinvx
    refine ⟨hguar, hinv, ih b' _ hframe' ?_ ?_⟩
    · rw [hget]
      exact hinvx
    · rw [hget]
      exact hrest

end Alone

/-- The proof obligations of a process. `Rest` holds between attempts, `Pre k` at the start of one, and
    `Post` at its end, or `Err` when it raises. -/
structure Verified (S : Serial κ τ σ ε α) (R : RelyGuarantee Unit τ σ) (Rest : σ → Prop)
    (Pre : κ → σ → Prop) (Post : α → σ → Prop) (Err : ε → σ → Prop := fun _ _ => True) : Prop where
  main : ∀ k, R.Triple () (Pre k) (S.main k) Post Err
  start : ∀ k s, R.Inv s → Rest s → R.Inv (S.start k s) ∧ Pre k (S.start k s)
  close : ∀ s, R.Inv s → R.Inv (S.close s) ∧ Rest (S.close s)

variable {R : RelyGuarantee Unit τ σ} {Rest : σ → Prop} {Pre : κ → σ → Prop} {Post : α → σ → Prop}
  {Err : ε → σ → Prop}

/-- What holds of a state. -/
def StateOk (R : RelyGuarantee Unit τ σ) (Rest : σ → Prop) (Post : α → σ → Prop) (Err : ε → σ → Prop)
    (c : State τ σ ε α) : Prop :=
  R.Inv c.shared ∧
    match c.proc with
    | none => Rest c.shared
    | some p => R.Safe () Post Err p c.shared

/-- One step keeps the state fine, and a step of an attempt is within its guarantee; when an attempt is
    started, `hstart` answers for it. -/
theorem StateOk.step {l : Label κ τ} (hc : StateOk R Rest Post Err c) (hok : okStep (R.Ok ()) c l)
    (h : S.step c l = some c')
    (hstart : ∀ k, l = .start k → Rest c.shared →
      R.Inv (S.start k c.shared) ∧ R.Safe () Post Err (S.main k) (S.start k c.shared))
    (hclose : ∀ s, R.Inv s → R.Inv (S.close s) ∧ Rest (S.close s)) :
    StateOk R Rest Post Err c' ∧ ∀ t, l = .next t → R.Guar () t c.shared c'.shared := by
  obtain ⟨hinv, hproc⟩ := hc
  rcases step_cases h with ⟨k, rfl, hp, rfl⟩ | ⟨t, β, act, k, b, s, rfl, hp, hact, rfl⟩ | ⟨p, rfl, hp, rfl⟩
  · rw [hp] at hproc
    exact ⟨hstart k rfl hproc, nofun⟩
  · rw [hp] at hproc
    obtain ⟨hg, hinv', hrest⟩ := hproc c.shared .refl hok b s hact
    refine ⟨⟨hinv', hrest⟩, fun t' ht => ?_⟩
    cases ht
    exact hg
  · exact ⟨hclose c.shared hinv, nofun⟩

/-- **Step.** One step keeps the state fine, and a step of an attempt is within its guarantee. -/
theorem Verified.step (hV : Verified S R Rest Pre Post Err) {l : Label κ τ} (hc : StateOk R Rest Post Err c)
    (hok : okStep (R.Ok ()) c l) (h : S.step c l = some c') :
    StateOk R Rest Post Err c' ∧ ∀ t, l = .next t → R.Guar () t c.shared c'.shared := by
  refine hc.step hok h (fun k _ hrest => ?_) hV.close
  obtain ⟨hinv, hpre⟩ := hV.start k c.shared hc.1 hrest
  exact ⟨hinv, hV.main k _ hinv hpre⟩

/-- **Soundness.** -/
theorem Verified.stateOk (hV : Verified S R Rest Pre Post Err) (h₀ : ∀ s, init s → R.Inv s ∧ Rest s)
    (hc : S.Reachable (R.Ok ()) init c) : StateOk R Rest Post Err c := by
  refine Lts.Reachable.invariant (StateOk R Rest Post Err) ?_
    (fun _ _ _ _ hs hstep => (hV.step hs hstep.1 hstep.2).1) hc
  rintro ⟨s, proc⟩ ⟨hs, hp⟩
  cases hp
  exact h₀ s hs

/-- What an attempt returns is as promised. -/
theorem Verified.post (hV : Verified S R Rest Pre Post Err) (h₀ : ∀ s, init s → R.Inv s ∧ Rest s)
    (hc : S.Reachable (R.Ok ()) init c) {a : α} (hp : c.proc = some (.ret a)) : Post a c.shared := by
  have hproc := (hV.stateOk h₀ hc).2
  rw [hp] at hproc
  exact hproc

/-- So is what it raises. -/
theorem Verified.err (hV : Verified S R Rest Pre Post Err) (h₀ : ∀ s, init s → R.Inv s ∧ Rest s)
    (hc : S.Reachable (R.Ok ()) init c) {e : ε} (hp : c.proc = some (.raise e)) : Err e c.shared := by
  have hproc := (hV.stateOk h₀ hc).2
  rw [hp] at hproc
  exact hproc

/-! ## Attempts that are started under a condition -/

/-- A condition on the starts of attempts. -/
def startsWhen (begins : κ → σ → Prop) (c : State τ σ ε α) : Label κ τ → Prop
  | .start k => begins k c.shared
  | _ => True

/-- The states reached when every attempt is started where `begins` holds. -/
def ReachableWhen (S : Serial κ τ σ ε α) (begins : κ → σ → Prop) (init : σ → Prop) : State τ σ ε α → Prop :=
  Lts.Reachable (Lts.guard (startsWhen begins) (Lts.ofFun S.step)) fun c => init c.shared ∧ c.proc = none

variable {begins : κ → σ → Prop}

/-- An attempt comes to its end, if nothing stops it. -/
theorem ReachableWhen.run {s₀ s : σ} {k : κ} {r : Except ε α} (hc : S.ReachableWhen begins init ⟨s₀, none⟩)
    (hk : begins k s₀) (hrun : (S.main k).run (S.start k s₀) = some (r, s)) :
    S.ReachableWhen begins init ⟨s, some (Prog.Steps.fin r)⟩ := by
  have hstart : S.ReachableWhen begins init ⟨S.start k s₀, some (S.main k)⟩ := by
    refine Lts.Reachable.step hc (l := .start k) ⟨hk, ?_⟩
    rfl
  have hsteps : ∀ {p q : Prog τ σ ε α} {s s' : σ}, p.Steps (fun _ _ => True) s q s' →
      S.ReachableWhen begins init ⟨s, some p⟩ → S.ReachableWhen begins init ⟨s', some q⟩ := by
    intro p q s s' h
    induction h with
    | refl => exact id
    | @head γ t act k s₁ s₂ s₃ b q _ hact _ ih =>
      intro hc
      refine ih (Lts.Reachable.step hc (l := .next t) ⟨trivial, ?_⟩)
      simp only [Lts.ofFun, step, if_true, hact, Option.map_some]
  exact hsteps (.of_run (Prog.guarded_of_forall (fun _ _ => trivial) _ _) hrun) hstart

/-- A whole attempt, and what its end does. -/
theorem ReachableWhen.attempt {s₀ s : σ} {k : κ} {r : Except ε α} (hc : S.ReachableWhen begins init ⟨s₀, none⟩)
    (hk : begins k s₀) (hrun : (S.main k).run (S.start k s₀) = some (r, s)) :
    S.ReachableWhen begins init ⟨S.close s, none⟩ := by
  refine Lts.Reachable.step (hc.run hk hrun) (l := .stop) ⟨trivial, ?_⟩
  rfl

/-- **Soundness**, for attempts that are started where `begins` holds. -/
theorem ReachableWhen.stateOk (hmain : ∀ k, R.Triple () (Pre k) (S.main k) Post Err)
    (hstart : ∀ k s, R.Inv s → Rest s → begins k s → R.Inv (S.start k s) ∧ Pre k (S.start k s))
    (hclose : ∀ s, R.Inv s → R.Inv (S.close s) ∧ Rest (S.close s)) (hok : ∀ t s, R.Ok () t s)
    (h₀ : ∀ s, init s → R.Inv s ∧ Rest s) (hc : S.ReachableWhen begins init c) : StateOk R Rest Post Err c := by
  refine Lts.Reachable.invariant (StateOk R Rest Post Err) ?_ ?_ hc
  · rintro ⟨s, proc⟩ ⟨hs, hp⟩
    cases hp
    exact h₀ s hs
  · rintro c l c' - hc ⟨hguard, hstep⟩
    have hokStep : okStep (R.Ok ()) c l := by
      cases l with
      | next t => exact hok t c.shared
      | _ => trivial
    refine (hc.step hokStep hstep (fun k hl hrest => ?_) hclose).1
    subst hl
    obtain ⟨hinv, hpre⟩ := hstart k c.shared hc.1 hrest hguard
    exact ⟨hinv, hmain k _ hinv hpre⟩

end Serial
