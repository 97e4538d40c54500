import AgentTx.Lib.Prog.Run
import Mathlib.Logic.Relation

/-!
# `Lib.Prog.RelyGuarantee` — proving systems of programs, one program at a time

A `RelyGuarantee` fixes a global invariant, what each process may do to the shared state (`Guar`) and
what it lets the others do (`Rely`). `Triple R i P p Q E` says that process `i`, running `p` from a state
with `P`, only takes steps within its guarantee, whatever the others do within its rely, and ends with `Q`
(or raises with `E`). The rules compose triples along a program; `Verified.inv` is the soundness theorem:
if every process has a triple, the invariant holds in every state the system reaches, and every step of
a process is within its guarantee (`Verified.guar`).

`Ok` restricts which statements are looked at; it is `True` unless runs are to be proved under a
condition on their steps.
-/

/-- The invariant, the interference and the permissions of a proof. -/
structure RelyGuarantee (ι τ σ : Type) where
  Inv : σ → Prop
  Rely : ι → σ → σ → Prop
  Guar : ι → τ → σ → σ → Prop
  Ok : ι → τ → σ → Prop := fun _ _ _ => True

namespace RelyGuarantee

variable {ι κ τ σ ε α β : Type} (R : RelyGuarantee ι τ σ)

/-- Any number of steps of the others. -/
def Interfere (i : ι) : σ → σ → Prop :=
  Relation.ReflTransGen fun s s' => R.Inv s ∧ R.Inv s' ∧ R.Rely i s s'

/-- `P` survives every step of the others. -/
def Stable (i : ι) (P : σ → Prop) : Prop :=
  ∀ s s', R.Inv s → R.Inv s' → R.Rely i s s' → P s → P s'

variable {R} {i : ι}

theorem Stable.interfere {P : σ → Prop} (h : R.Stable i P) {s s' : σ} (hs : R.Interfere i s s')
    (hP : P s) : P s' := by
  induction hs with
  | refl => exact hP
  | tail _ hstep ih => exact h _ _ hstep.1 hstep.2.1 hstep.2.2 ih

theorem Interfere.inv {s s' : σ} (h : R.Interfere i s s') (hs : R.Inv s) : R.Inv s' := by
  cases h with
  | refl => exact hs
  | tail _ hstep => exact hstep.2.1

theorem Stable.and {P P' : σ → Prop} (h : R.Stable i P) (h' : R.Stable i P') :
    R.Stable i fun s => P s ∧ P' s :=
  fun s s' hs hs' hr hp => ⟨h s s' hs hs' hr hp.1, h' s s' hs hs' hr hp.2⟩

theorem Stable.const (p : Prop) : R.Stable i fun _ => p := fun _ _ _ _ _ hp => hp

variable (R)

/-- Process `i` may run `p` from `s`: its steps keep the guarantee and the invariant, and it ends with
    `Q` or raises with `E`. Between two of its steps the others may interfere. -/
def Safe (i : ι) (Q : α → σ → Prop) (E : ε → σ → Prop) : Prog τ σ ε α → σ → Prop
  | .ret a, s => Q a s
  | .raise e, s => E e s
  | .op t act k, s => ∀ s₁, R.Interfere i s s₁ → R.Ok i t s₁ → ∀ b s₂, act s₁ = some (b, s₂) →
      R.Guar i t s₁ s₂ ∧ R.Inv s₂ ∧ Safe i Q E (k b) s₂

/-- The triple of a program. -/
def Triple (i : ι) (P : σ → Prop) (p : Prog τ σ ε α) (Q : α → σ → Prop) (E : ε → σ → Prop) : Prop :=
  ∀ s, R.Inv s → P s → R.Safe i Q E p s

variable {R}

/-! ## Rules -/

theorem Safe.mono {Q Q' : α → σ → Prop} {E E' : ε → σ → Prop}
    (hQ : ∀ a s, R.Inv s → Q a s → Q' a s) (hE : ∀ e s, R.Inv s → E e s → E' e s) :
    ∀ {p : Prog τ σ ε α} {s : σ}, R.Inv s → R.Safe i Q E p s → R.Safe i Q' E' p s
  | .ret a, s, hs, h => hQ a s hs h
  | .raise e, s, hs, h => hE e s hs h
  | .op t act k, s, hs, h => fun s₁ hi hok b s₂ hact => by
      obtain ⟨hg, hinv, hrest⟩ := h s₁ hi hok b s₂ hact
      exact ⟨hg, hinv, Safe.mono hQ hE hinv hrest⟩

theorem Safe.bind {f : α → Prog τ σ ε β} {Q' : α → σ → Prop} {Q : β → σ → Prop} {E : ε → σ → Prop}
    (hf : ∀ a s, R.Inv s → Q' a s → R.Safe i Q E (f a) s) :
    ∀ {p : Prog τ σ ε α} {s : σ}, R.Inv s → R.Safe i Q' E p s → R.Safe i Q E (p >>= f) s
  | .ret a, s, hs, h => hf a s hs h
  | .raise _, _, _, h => h
  | .op t act k, s, _, h => fun s₁ hi hok b s₂ hact => by
      obtain ⟨hg, hinv, hrest⟩ := h s₁ hi hok b s₂ hact
      exact ⟨hg, hinv, Safe.bind hf hinv hrest⟩

theorem Safe.tryCatch {g : ε → Prog τ σ ε α} {Q : α → σ → Prop} {E E' : ε → σ → Prop}
    (hg : ∀ e s, R.Inv s → E' e s → R.Safe i Q E (g e) s) :
    ∀ {p : Prog τ σ ε α} {s : σ}, R.Inv s → R.Safe i Q E' p s → R.Safe i Q E (p.tryCatch g) s
  | .ret _, _, _, h => h
  | .raise e, s, hs, h => hg e s hs h
  | .op t act k, s, _, h => fun s₁ hi hok b s₂ hact => by
      obtain ⟨hguar, hinv, hrest⟩ := h s₁ hi hok b s₂ hact
      exact ⟨hguar, hinv, Safe.tryCatch hg hinv hrest⟩

/-- Steps of the others before a program's first step are part of its interference. -/
theorem Safe.interfere {β : Type} {t : τ} {act : σ → Option (β × σ)} {k : β → Prog τ σ ε α}
    {Q : α → σ → Prop} {E : ε → σ → Prop} {s s' : σ} (h : R.Safe i Q E (.op t act k) s)
    (hi : R.Interfere i s s') : R.Safe i Q E (.op t act k) s' :=
  fun s₁ hs₁ => h s₁ (hi.trans hs₁)

/-- **Two proofs of one program.** The second may let the others do more, and then knows less of them. -/
theorem Safe.and {R' : RelyGuarantee ι τ σ} {Q Q' : α → σ → Prop} {E E' : ε → σ → Prop}
    (hrely : ∀ s s', R.Interfere i s s' → R'.Interfere i s s') (hok : ∀ t s, R.Ok i t s → R'.Ok i t s) :
    ∀ {p : Prog τ σ ε α} {s : σ}, R.Safe i Q E p s → R'.Safe i Q' E' p s →
      R.Safe i (fun a s => Q a s ∧ Q' a s) (fun e s => E e s ∧ E' e s) p s
  | .ret _, _, h, h' => ⟨h, h'⟩
  | .raise _, _, h, h' => ⟨h, h'⟩
  | .op _ _ _, _, h, h' => fun s₁ hi hokt b s₂ hact => by
      obtain ⟨hg, hinv, hrest⟩ := h s₁ hi hokt b s₂ hact
      obtain ⟨-, -, hrest'⟩ := h' s₁ (hrely _ _ hi) (hok _ _ hokt) b s₂ hact
      exact ⟨hg, hinv, Safe.and hrely hok hrest hrest'⟩

/-- A program that runs alone ends as its triple says. -/
theorem Safe.ended (hok : ∀ t s, R.Ok i t s) {Q : α → σ → Prop} {E : ε → σ → Prop} :
    ∀ {p : Prog τ σ ε α} {s s' : σ} {r : Except ε α}, R.Safe i Q E p s → p.run s = some (r, s') →
      match r with
      | .ok a => Q a s'
      | .error e => E e s'
  | .ret _, _, _, _, h, hrun => by
      cases hrun
      exact h
  | .raise _, _, _, _, h, hrun => by
      cases hrun
      exact h
  | .op _ _ _, _, _, _, h, hrun => by
      obtain ⟨⟨b, s₁⟩, hact, hrest⟩ := Option.bind_eq_some_iff.mp hrun
      exact Safe.ended hok (h _ .refl (hok _ _) b s₁ hact).2.2 hrest

namespace Triple

variable {P : σ → Prop} {Q : α → σ → Prop} {E : ε → σ → Prop}

theorem ret {a : α} (h : ∀ s, R.Inv s → P s → Q a s) : R.Triple (τ := τ) i P (.ret a) Q E := h

theorem raise {e : ε} (h : ∀ s, R.Inv s → P s → E e s) : R.Triple (τ := τ) i P (.raise e) Q E := h

/-- **Step rule.** A stable precondition holds when the step is taken. -/
theorem step {t : τ} {act : σ → Option (α × σ)} (hP : R.Stable i P)
    (h : ∀ s a s', R.Inv s → P s → R.Ok i t s → act s = some (a, s') →
      R.Guar i t s s' ∧ R.Inv s' ∧ Q a s') :
    R.Triple i P (Prog.step t act) Q E := by
  intro s hs hp s₁ hi hok a s₂ hact
  exact h s₁ a s₂ (hi.inv hs) (hP.interfere hi hp) hok hact

/-- A step that only reads. -/
theorem read {t : τ} {f : σ → α} (hP : R.Stable i P) (hG : ∀ s, R.Guar i t s s)
    (h : ∀ s, R.Inv s → P s → R.Ok i t s → Q (f s) s) : R.Triple i P (Prog.read t f) Q E := by
  refine step hP fun s a s' hs hp hok hact => ?_
  cases hact
  exact ⟨hG s, hs, h s hs hp hok⟩

/-- A step that only writes. -/
theorem modify {t : τ} {f : σ → σ} {Q : Unit → σ → Prop} (hP : R.Stable i P)
    (h : ∀ s, R.Inv s → P s → R.Ok i t s → R.Guar i t s (f s) ∧ R.Inv (f s) ∧ Q () (f s)) :
    R.Triple i P (Prog.modify t f) Q E := by
  refine step hP fun s a s' hs hp hok hact => ?_
  cases hact
  exact h s hs hp hok

theorem bind {p : Prog τ σ ε α} {f : α → Prog τ σ ε β} {Q' : β → σ → Prop}
    (hp : R.Triple i P p Q E) (hf : ∀ a, R.Triple i (Q a) (f a) Q' E) :
    R.Triple i P (p >>= f) Q' E :=
  fun s hs hP => Safe.bind (fun a s' hs' hq => hf a s' hs' hq) hs (hp s hs hP)

theorem conseq {p : Prog τ σ ε α} {P' : σ → Prop} {Q' : α → σ → Prop} {E' : ε → σ → Prop}
    (h : R.Triple i P p Q E) (hP : ∀ s, R.Inv s → P' s → P s)
    (hQ : ∀ a s, R.Inv s → Q a s → Q' a s) (hE : ∀ e s, R.Inv s → E e s → E' e s) :
    R.Triple i P' p Q' E' :=
  fun s hs hp => Safe.mono hQ hE hs (h s hs (hP s hs hp))

/-- A weaker postcondition. -/
theorem post {p : Prog τ σ ε α} {Q' : α → σ → Prop} (h : R.Triple i P p Q E)
    (hQ : ∀ a s, R.Inv s → Q a s → Q' a s) : R.Triple i P p Q' E :=
  h.conseq (fun _ _ hp => hp) hQ fun _ _ _ he => he

/-- A stronger precondition. -/
theorem pre {p : Prog τ σ ε α} {P' : σ → Prop} (h : R.Triple i P p Q E)
    (hP : ∀ s, R.Inv s → P' s → P s) : R.Triple i P' p Q E :=
  h.conseq hP (fun _ _ _ hq => hq) fun _ _ _ he => he

theorem tryCatch {p : Prog τ σ ε α} {g : ε → Prog τ σ ε α} {E' : ε → σ → Prop}
    (hp : R.Triple i P p Q E') (hg : ∀ e, R.Triple i (E' e) (g e) Q E) :
    R.Triple i P (p.tryCatch g) Q E :=
  fun s hs hP => Safe.tryCatch (fun e s' hs' he => hg e s' hs' he) hs (hp s hs hP)

theorem ofExcept {r : Except ε α} (hok : ∀ a, r = .ok a → ∀ s, R.Inv s → P s → Q a s)
    (herr : ∀ e, r = .error e → ∀ s, R.Inv s → P s → E e s) :
    R.Triple (τ := τ) i P (Prog.ofExcept r) Q E := by
  cases r with
  | error e => exact herr e rfl
  | ok a => exact hok a rfl

theorem ofOption {e : ε} {o : Option α} (hsome : ∀ a, o = some a → ∀ s, R.Inv s → P s → Q a s)
    (hnone : o = none → ∀ s, R.Inv s → P s → E e s) :
    R.Triple (τ := τ) i P (Prog.ofOption e o) Q E := by
  cases o with
  | none => exact hnone rfl
  | some a => exact hsome a rfl

theorem onlyIf {c : Prop} [Decidable c] {p : Prog τ σ ε Unit} {Q : Unit → σ → Prop} (h : c → R.Triple i P p Q E)
    (hskip : ¬ c → ∀ s, R.Inv s → P s → Q () s) : R.Triple i P (Prog.onlyIf c p) Q E := by
  unfold Prog.onlyIf
  split_ifs with hc
  · exact h hc
  · exact hskip hc

/-- **Loop rule.** `P xs` is what holds when the items `xs` are still to come. -/
theorem forEach {γ : Type} {body : γ → Prog τ σ ε Unit} {P : List γ → σ → Prop}
    (h : ∀ x xs, R.Triple i (P (x :: xs)) (body x) (fun _ => P xs) E) :
    ∀ xs, R.Triple i (P xs) (Prog.forEach xs body) (fun _ => P []) E
  | [] => fun _ _ hp => hp
  | x :: xs => bind (h x xs) fun _ => forEach h xs

end Triple

/-! ## Soundness -/

section Soundness

variable (S : System ι κ τ σ ε α)

/-- The proof obligations of a system. `Pre i` is what process `i` may assume when it starts. -/
structure Verified (R : RelyGuarantee ι τ σ) (Pre : ι → σ → Prop) : Prop where
  main : ∀ i, R.Triple i (Pre i) (S.main i) (fun _ _ => True) fun _ _ => True
  pre_stable : ∀ i, R.Stable i (Pre i)
  guar_rely : ∀ i j t s s', i ≠ j → R.Inv s → R.Inv s' → R.Guar i t s s' → R.Rely j s s'
  abort : ∀ i s, R.Inv s → R.Inv (S.abort i s) ∧ ∀ j, i ≠ j → R.Rely j s (S.abort i s)
  env : ∀ e s s', R.Inv s → S.env e s = some s' → R.Inv s' ∧
    (if S.kills e then ∀ i, Pre i s → Pre i s' else ∀ i, R.Rely i s s')

variable {S} {Pre : ι → σ → Prop}

/-- How the programs end: with a result, or with an exception. -/
def Ends (S : System ι κ τ σ ε α) (R : RelyGuarantee ι τ σ) (Pre : ι → σ → Prop) (Q : ι → α → Prop)
    (E : ι → ε → Prop) : Prop :=
  ∀ i, R.Triple i (Pre i) (S.main i) (fun a _ => Q i a) fun e _ => E i e

theorem Verified.ends (hV : Verified S R Pre) : Ends S R Pre (fun _ _ => True) fun _ _ => True := hV.main

/-- What holds of a process in a reachable state. -/
def ProcOk (R : RelyGuarantee ι τ σ) (Pre : ι → σ → Prop) (Q : ι → α → Prop) (E : ι → ε → Prop) (i : ι) (s : σ) :
    Proc τ σ ε α → Prop
  | .fresh => Pre i s
  | .running p => R.Safe i (fun a _ => Q i a) (fun e _ => E i e) p s
  | .dead => True

variable {Q : ι → α → Prop} {E : ι → ε → Prop}

/-- A step of the others leaves a process what it is. -/
theorem ProcOk.rely (hstable : R.Stable i (Pre i)) {s s' : σ} (hs : R.Inv s) (hs' : R.Inv s')
    (hr : R.Rely i s s') {q : Proc τ σ ε α} (h : ProcOk R Pre Q E i s q) : ProcOk R Pre Q E i s' q := by
  cases q with
  | fresh => exact hstable s s' hs hs' hr h
  | dead => exact trivial
  | running p =>
    cases p with
    | ret a => exact h
    | raise e => exact h
    | op t act k => exact Safe.interfere h (.single ⟨hs, hs', hr⟩)

/-- Process `i` has started, and what is left of its program is safe. -/
def Follows (R : RelyGuarantee ι τ σ) (i : ι) (Q : α → σ → Prop) (E : ε → σ → Prop) (c : Config ι τ σ ε α) : Prop :=
  c.procs i ≠ .fresh ∧ ∀ p, c.procs i = .running p → R.Safe i Q E p c.shared

/-- What the others do leaves it so, when its results survive them. -/
theorem Follows.other {Q : α → σ → Prop} {E : ε → σ → Prop} (hQ : ∀ a, R.Stable i (Q a)) (hE : ∀ e, R.Stable i (E e))
    {c c' : Config ι τ σ ε α} (h : Follows R i Q E c) (hs : R.Inv c.shared) (hs' : R.Inv c'.shared)
    (hr : R.Rely i c.shared c'.shared) (hp : c'.procs i = c.procs i) : Follows R i Q E c' := by
  refine ⟨hp.symm ▸ h.1, fun p hrun => ?_⟩
  have hsafe := h.2 p (hp.symm.trans hrun)
  cases p with
  | ret a => exact hQ a _ _ hs hs' hr hsafe
  | raise e => exact hE e _ _ hs hs' hr hsafe
  | op t act k => exact Safe.interfere hsafe (.single ⟨hs, hs', hr⟩)

/-- The invariant of the whole configuration. -/
def ConfigOk (R : RelyGuarantee ι τ σ) (Pre : ι → σ → Prop) (Q : ι → α → Prop) (E : ι → ε → Prop)
    (c : Config ι τ σ ε α) : Prop :=
  R.Inv c.shared ∧ ∀ i, ProcOk R Pre Q E i c.shared (c.procs i)

/-- What the run starts from. -/
theorem configOk_start {init : σ → Prop} (h₀ : ∀ s, init s → R.Inv s ∧ ∀ i, Pre i s)
    {c : Config ι τ σ ε α} (hc : System.Start init c) : ConfigOk R Pre Q E c := by
  obtain ⟨hinit, hfresh⟩ := hc
  refine ⟨(h₀ _ hinit).1, fun i => ?_⟩
  rw [hfresh i]
  exact (h₀ _ hinit).2 i

variable [DecidableEq ι]

/-- After a step of process `i` that the others can live with, every process is still fine. -/
theorem Verified.procs_update (hV : Verified S R Pre) {c : Config ι τ σ ε α} (hc : ConfigOk R Pre Q E c)
    {s : σ} (hs : R.Inv s) (hrely : ∀ j, i ≠ j → R.Rely j c.shared s) {q : Proc τ σ ε α}
    (hq : ProcOk R Pre Q E i s q) :
    ConfigOk R Pre Q E ⟨s, Function.update c.procs i q⟩ := by
  refine ⟨hs, fun j => ?_⟩
  show ProcOk R Pre Q E j s (Function.update c.procs i q j)
  by_cases hij : j = i
  · subst hij
    rw [Function.update_self]
    exact hq
  · rw [Function.update_of_ne hij]
    exact ProcOk.rely (hV.pre_stable j) hc.1 hs (hrely j (Ne.symm hij)) (hc.2 j)

variable [DecidableEq τ]

/-- **Step.** One step of the system keeps the configuration fine, and a step of a process is within its
    guarantee. -/
theorem Verified.step (hV : Verified S R Pre) (hends : Ends S R Pre Q E) {c c' : Config ι τ σ ε α}
    {l : Label ι κ τ} (hc : ConfigOk R Pre Q E c) (hok : System.okStep R.Ok c l) (h : S.step c l = some c') :
    ConfigOk R Pre Q E c' ∧
      (∀ i t, l = .next i t → R.Guar i t c.shared c'.shared) := by
  rcases System.step_cases h with ⟨i, rfl, hp, rfl⟩ | ⟨i, t, β, act, k, b, s, rfl, hp, hact, rfl⟩ |
    ⟨i, p, rfl, hp, rfl⟩ | ⟨e, s, rfl, he, rfl⟩
  · -- a process starts: nobody sees it
    refine ⟨⟨hc.1, fun j => ?_⟩, nofun⟩
    by_cases hij : j = i
    · subst hij
      show ProcOk R Pre Q E j c.shared (Function.update c.procs j _ j)
      rw [Function.update_self]
      have hpre : Pre j c.shared := by
        have := hc.2 j
        rwa [hp] at this
      exact hends j c.shared hc.1 hpre
    · show ProcOk R Pre Q E j c.shared (Function.update c.procs i _ j)
      rw [Function.update_of_ne hij]
      exact hc.2 j
  · have hsafe := hc.2 i
    rw [hp] at hsafe
    obtain ⟨hg, hinv, hrest⟩ := hsafe c.shared .refl hok b s hact
    have hrely : ∀ j, i ≠ j → R.Rely j c.shared s := fun j hij =>
      hV.guar_rely i j t _ _ hij hc.1 hinv hg
    refine ⟨hV.procs_update hc hinv hrely hrest, fun j t' hl => ?_⟩
    cases hl
    exact hg
  · obtain ⟨hinv, hrely⟩ := hV.abort i c.shared hc.1
    exact ⟨hV.procs_update hc hinv hrely trivial, nofun⟩
  · obtain ⟨hinv, hrest⟩ := hV.env e c.shared s hc.1 he
    refine ⟨⟨hinv, fun j => ?_⟩, nofun⟩
    show ProcOk R Pre Q E j s (if S.kills e then (c.procs j).kill else c.procs j)
    have hj := hc.2 j
    split_ifs at hrest ⊢ with hk
    · cases hproc : c.procs j with
      | fresh =>
        rw [hproc] at hj
        exact hrest j hj
      | running p => exact trivial
      | dead => exact trivial
    · exact ProcOk.rely (hV.pre_stable j) hc.1 hinv (hrest j) hj

/-- **Soundness, under a condition on the steps.** -/
theorem Verified.configOk (hV : Verified S R Pre) (hends : Ends S R Pre Q E) {init : σ → Prop}
    (h₀ : ∀ s, init s → R.Inv s ∧ ∀ i, Pre i s) {c : Config ι τ σ ε α}
    (hc : S.ReachableWhen R.Ok init c) : ConfigOk R Pre Q E c :=
  Lts.Reachable.invariant (ConfigOk R Pre Q E) (fun _ => configOk_start h₀)
    (fun _ _ _ _ hs hstep => (hV.step hends hs hstep.1 hstep.2).1) hc

theorem Verified.invWhen (hV : Verified S R Pre) {init : σ → Prop}
    (h₀ : ∀ s, init s → R.Inv s ∧ ∀ i, Pre i s) {c : Config ι τ σ ε α}
    (hc : S.ReachableWhen R.Ok init c) : R.Inv c.shared :=
  (hV.configOk hV.ends h₀ hc).1

/-- A process that has raised, raised what its triple allows. -/
theorem Verified.raised (hV : Verified S R Pre) (hends : Ends S R Pre Q E) {init : σ → Prop}
    (h₀ : ∀ s, init s → R.Inv s ∧ ∀ i, Pre i s) {c : Config ι τ σ ε α}
    (hc : S.ReachableWhen R.Ok init c) {e : ε} (he : c.procs i = .running (.raise e)) : E i e := by
  have hi := (hV.configOk hends h₀ hc).2 i
  rw [he] at hi
  exact hi

/-- **Soundness.** Every reachable state satisfies the invariant. -/
theorem Verified.inv (hV : Verified S R Pre) (hok : ∀ i t s, R.Ok i t s) {init : σ → Prop}
    (h₀ : ∀ s, init s → R.Inv s ∧ ∀ i, Pre i s) {c : Config ι τ σ ε α} (hc : S.Reachable init c) :
    R.Inv c.shared :=
  hV.invWhen h₀ (hc.when hok)

/-- Every step of a process out of a reachable state is within its guarantee. -/
theorem Verified.guar (hV : Verified S R Pre) (hok : ∀ i t s, R.Ok i t s) {init : σ → Prop}
    (h₀ : ∀ s, init s → R.Inv s ∧ ∀ i, Pre i s) {c c' : Config ι τ σ ε α} (hc : S.Reachable init c)
    {t : τ} (h : S.step c (.next i t) = some c') : R.Guar i t c.shared c'.shared := by
  have hcfg := hV.configOk hV.ends h₀ (hc.when hok)
  have hokt : System.okStep (κ := κ) R.Ok c (.next i t) := hok i t _
  exact (hV.step hV.ends hcfg hokt h).2 i t rfl

/-! ### One process, from its start on -/

/-- **Following one process.** A process that starts where the precondition of a triple holds keeps to the
    triple for the rest of the run, whatever the others do. -/
theorem Verified.follows (hV : Verified S R Pre) (hok : ∀ i t s, R.Ok i t s) (hkills : ∀ e, S.kills e = false)
    {Q : α → σ → Prop} {E : ε → σ → Prop} (hQ : ∀ a, R.Stable i (Q a)) (hE : ∀ e, R.Stable i (E e))
    {c c' : Config ι τ σ ε α} (hc : ConfigOk R Pre (fun _ _ => True) (fun _ _ => True) c) {l : Label ι κ τ}
    (h : Follows R i Q E c) (hstep : S.step c l = some c') : Follows R i Q E c' := by
  have hokl : System.okStep R.Ok c l := by
    cases l with
    | next j t => exact hok j t _
    | spawn j => exact trivial
    | die j => exact trivial
    | env e => exact trivial
  have hinv : R.Inv c'.shared := (hV.step hV.ends hc hokl hstep).1.1
  have hguar := (hV.step hV.ends hc hokl hstep).2
  rcases System.step_cases hstep with ⟨j, rfl, hp, rfl⟩ | ⟨j, t, β, act, k, b, s, rfl, hp, hact, rfl⟩ |
    ⟨j, p, rfl, hp, rfl⟩ | ⟨e, s, rfl, he, rfl⟩
  · -- it is another process that starts
    have hij : i ≠ j := by
      intro hij
      subst hij
      exact h.1 hp
    have hprocs : Function.update c.procs j (.running (S.main j)) i = c.procs i := Function.update_of_ne hij ..
    constructor
    · intro hfresh
      exact h.1 (hprocs.symm.trans hfresh)
    · intro p hrun
      exact h.2 p (hprocs.symm.trans hrun)
  · by_cases hij : i = j
    · subst hij
      obtain ⟨-, -, hrest⟩ := h.2 _ hp c.shared .refl (hok i t _) b s hact
      refine ⟨by simp, fun p hrun => ?_⟩
      simp only [Function.update_self, Proc.running.injEq] at hrun
      rw [← hrun]
      exact hrest
    · have hrely := hV.guar_rely j i t _ _ (Ne.symm hij) hc.1 hinv (hguar j t rfl)
      exact h.other hQ hE hc.1 hinv hrely (Function.update_of_ne hij ..)
  · by_cases hij : i = j
    · subst hij
      exact ⟨by simp, by simp⟩
    · have hrely := (hV.abort j _ hc.1).2 i (Ne.symm hij)
      exact h.other hQ hE hc.1 hinv hrely (Function.update_of_ne hij ..)
  · obtain ⟨-, hrest⟩ := hV.env e _ _ hc.1 he
    simp only [hkills, Bool.false_eq_true, if_false] at hrest ⊢
    exact h.other hQ hE hc.1 hinv (hrest i) rfl

/-- The same for a whole run. -/
theorem Verified.follows_run (hV : Verified S R Pre) (hok : ∀ i t s, R.Ok i t s) (hkills : ∀ e, S.kills e = false)
    {Q : α → σ → Prop} {E : ε → σ → Prop} (hQ : ∀ a, R.Stable i (Q a)) (hE : ∀ e, R.Stable i (E e))
    {init : σ → Prop} (h₀ : ∀ s, init s → R.Inv s ∧ ∀ i, Pre i s) {c c' : Config ι τ σ ε α} (hc : S.Reachable init c)
    {ls : List (Label ι κ τ)} (h : Follows R i Q E c) (hrun : Lts.Exec (Lts.ofFun S.step) c ls c') :
    Follows R i Q E c' := by
  induction hrun with
  | refl => exact h
  | tail hpre hstep ih =>
    have hreach : S.Reachable init _ := Lts.Reachable.exec hc hpre
    have hcfg := hV.configOk hV.ends h₀ (hreach.when hok)
    exact hV.follows hok hkills hQ hE hcfg ih hstep

/-- **Every process that has started is followed**, when each has a triple from its precondition on. -/
theorem Verified.followed (hV : Verified S R Pre) (hok : ∀ i t s, R.Ok i t s) (hkills : ∀ e, S.kills e = false)
    {Q : ι → α → σ → Prop} {E : ι → ε → σ → Prop} (hmain : ∀ i, R.Triple i (Pre i) (S.main i) (Q i) (E i))
    (hQ : ∀ i a, R.Stable i (Q i a)) (hE : ∀ i e, R.Stable i (E i e)) {init : σ → Prop}
    (h₀ : ∀ s, init s → R.Inv s ∧ ∀ i, Pre i s) {c : Config ι τ σ ε α} (hc : S.Reachable init c) :
    ∀ i, c.procs i ≠ .fresh → Follows R i (Q i) (E i) c := by
  refine Lts.Reachable.invariant (fun c => ∀ i, c.procs i ≠ .fresh → Follows R i (Q i) (E i) c) ?_ ?_ hc
  · rintro c ⟨-, hfresh⟩ i hi
    exact absurd (hfresh i) hi
  · intro c l c' hc ih hstep i hi
    have hreach : S.Reachable init c := hc
    have hcfg := hV.configOk hV.ends h₀ (hreach.when hok)
    by_cases hfresh : c.procs i = .fresh
    · -- it is the one that starts
      have hproc := hcfg.2 i
      rw [hfresh] at hproc
      rcases System.step_cases hstep with ⟨j, -, hp, rfl⟩ | ⟨j, t, β, act, k, b, s, -, hp, -, rfl⟩ |
        ⟨j, p, -, hp, rfl⟩ | ⟨e, s, -, -, rfl⟩
      · by_cases hij : i = j
        · subst hij
          refine ⟨hi, fun p hrun => ?_⟩
          simp only [Function.update_self, Proc.running.injEq] at hrun
          rw [← hrun]
          exact hmain i c.shared hcfg.1 hproc
        · exact absurd ((Function.update_of_ne hij ..).trans hfresh) hi
      · by_cases hij : i = j
        · subst hij
          rw [hfresh] at hp
          cases hp
        · exact absurd ((Function.update_of_ne hij ..).trans hfresh) hi
      · by_cases hij : i = j
        · subst hij
          rw [hfresh] at hp
          cases hp
        · exact absurd ((Function.update_of_ne hij ..).trans hfresh) hi
      · simp [hkills, hfresh] at hi
    · exact hV.follows hok hkills (hQ i) (hE i) hcfg (ih i hfresh) hstep

end Soundness

end RelyGuarantee
