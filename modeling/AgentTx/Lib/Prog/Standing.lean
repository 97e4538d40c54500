import AgentTx.Lib.Prog.RelyGuarantee

/-!
# `Lib.Prog.Standing` — a promise of the others that depends on where a process stands

Some programs are right only as long as nobody comes between two of their statements. `Spare i t s s'` is what
a step of the others keeps to while process `i` is at its statement `t`, on top of the rely. No program keeps
it of itself: it is a condition on the run, and speaks of what each process is about to do (`Spared`).

`TripleAt` is a triple under that promise. What is proved without it stays proved (`TripleAt.of_triple`), and
the postcondition of one part, which others may destroy at any other point, is kept at the statement after it.
-/

variable {ι κ τ σ ε α β : Type}

/-- A process whose next statement is `t`. -/
def Proc.At (t : τ) : Proc τ σ ε α → Prop
  | .running (.op t' _ _) => t' = t
  | _ => False

namespace RelyGuarantee

section Triples

variable (R : RelyGuarantee ι τ σ) (Spare : ι → τ → σ → σ → Prop)

/-- The rules while a process is at `t`. -/
def standing (t : τ) : RelyGuarantee ι τ σ :=
  { R with Rely := fun i s s' => R.Rely i s s' ∧ Spare i t s s' }

/-- `Safe`, with the others' steps as promised at each statement. -/
def SafeAt (i : ι) (Q : α → σ → Prop) (E : ε → σ → Prop) : Prog τ σ ε α → σ → Prop
  | .ret a, s => Q a s
  | .raise e, s => E e s
  | .op t act k, s => ∀ s₁, (R.standing Spare t).Interfere i s s₁ → R.Ok i t s₁ → ∀ b s₂, act s₁ = some (b, s₂) →
      R.Guar i t s₁ s₂ ∧ R.Inv s₂ ∧ SafeAt i Q E (k b) s₂

def TripleAt (i : ι) (P : σ → Prop) (p : Prog τ σ ε α) (Q : α → σ → Prop) (E : ε → σ → Prop) : Prop :=
  ∀ s, R.Inv s → P s → R.SafeAt Spare i Q E p s

variable {R Spare} {i : ι} {P : σ → Prop} {Q : α → σ → Prop} {E : ε → σ → Prop}

theorem Interfere.of_standing {t : τ} {s s' : σ} (h : (R.standing Spare t).Interfere i s s') :
    R.Interfere i s s' := by
  induction h with
  | refl => exact .refl
  | tail _ hstep ih => exact ih.tail ⟨hstep.1, hstep.2.1, hstep.2.2.1⟩

theorem SafeAt.of_safe : ∀ {p : Prog τ σ ε α} {s : σ}, R.Safe i Q E p s → R.SafeAt Spare i Q E p s
  | .ret _, _, h => h
  | .raise _, _, h => h
  | .op _ _ _, _, h => fun s₁ hi hok b s₂ hact => by
      obtain ⟨hguar, hinv, hrest⟩ := h s₁ hi.of_standing hok b s₂ hact
      exact ⟨hguar, hinv, SafeAt.of_safe hrest⟩

/-- **What needs no promise.** -/
theorem TripleAt.of_triple {p : Prog τ σ ε α} (h : R.Triple i P p Q E) : R.TripleAt Spare i P p Q E :=
  fun s hs hp => SafeAt.of_safe (h s hs hp)

theorem SafeAt.bind {f : α → Prog τ σ ε β} {Q' : α → σ → Prop} {Q : β → σ → Prop}
    (hf : ∀ a s, R.Inv s → Q' a s → R.SafeAt Spare i Q E (f a) s) :
    ∀ {p : Prog τ σ ε α} {s : σ}, R.Inv s → R.SafeAt Spare i Q' E p s → R.SafeAt Spare i Q E (p >>= f) s
  | .ret a, s, hs, h => hf a s hs h
  | .raise _, _, _, h => h
  | .op _ _ _, _, _, h => fun s₁ hi hok b s₂ hact => by
      obtain ⟨hguar, hinv, hrest⟩ := h s₁ hi hok b s₂ hact
      exact ⟨hguar, hinv, SafeAt.bind hf hinv hrest⟩

theorem SafeAt.tryCatch {g : ε → Prog τ σ ε α} {E' : ε → σ → Prop}
    (hg : ∀ e s, R.Inv s → E' e s → R.SafeAt Spare i Q E (g e) s) :
    ∀ {p : Prog τ σ ε α} {s : σ}, R.Inv s → R.SafeAt Spare i Q E' p s → R.SafeAt Spare i Q E (p.tryCatch g) s
  | .ret _, _, _, h => h
  | .raise e, s, hs, h => hg e s hs h
  | .op _ _ _, _, _, h => fun s₁ hi hok b s₂ hact => by
      obtain ⟨hguar, hinv, hrest⟩ := h s₁ hi hok b s₂ hact
      exact ⟨hguar, hinv, SafeAt.tryCatch hg hinv hrest⟩

/-- Steps of the others before the first statement are part of its interference. -/
theorem SafeAt.interfere {γ : Type} {t : τ} {act : σ → Option (γ × σ)} {k : γ → Prog τ σ ε α} {s s' : σ}
    (h : R.SafeAt Spare i Q E (.op t act k) s) (hi : (R.standing Spare t).Interfere i s s') :
    R.SafeAt Spare i Q E (.op t act k) s' :=
  fun s₁ hs₁ => h s₁ (hi.trans hs₁)

namespace TripleAt

theorem bind {p : Prog τ σ ε α} {f : α → Prog τ σ ε β} {Q' : β → σ → Prop} (hp : R.TripleAt Spare i P p Q E)
    (hf : ∀ a, R.TripleAt Spare i (Q a) (f a) Q' E) : R.TripleAt Spare i P (p >>= f) Q' E :=
  fun s hs hP => SafeAt.bind (fun a s' hs' hq => hf a s' hs' hq) hs (hp s hs hP)

theorem tryCatch {p : Prog τ σ ε α} {g : ε → Prog τ σ ε α} {E' : ε → σ → Prop}
    (hp : R.TripleAt Spare i P p Q E') (hg : ∀ e, R.TripleAt Spare i (E' e) (g e) Q E) :
    R.TripleAt Spare i P (p.tryCatch g) Q E :=
  fun s hs hP => SafeAt.tryCatch (fun e s' hs' he => hg e s' hs' he) hs (hp s hs hP)

/-- **Step rule.** The precondition has to survive what is promised at this statement only. -/
theorem step {t : τ} {act : σ → Option (α × σ)} (hP : (R.standing Spare t).Stable i P)
    (h : ∀ s a s', R.Inv s → P s → R.Ok i t s → act s = some (a, s') → R.Guar i t s s' ∧ R.Inv s' ∧ Q a s') :
    R.TripleAt Spare i P (Prog.step t act) Q E := by
  intro s hs hp s₁ hi hok a s₂ hact
  exact h s₁ a s₂ (hi.inv hs) (hP.interfere hi hp) hok hact

/-- A step that only writes. -/
theorem modify {t : τ} {f : σ → σ} {Q : Unit → σ → Prop} (hP : (R.standing Spare t).Stable i P)
    (h : ∀ s, R.Inv s → P s → R.Ok i t s → R.Guar i t s (f s) ∧ R.Inv (f s) ∧ Q () (f s)) :
    R.TripleAt Spare i P (Prog.modify t f) Q E := by
  refine step hP fun s a s' hs hp hok hact => ?_
  cases hact
  exact h s hs hp hok

end TripleAt

end Triples

/-! ## Soundness -/

section Soundness

variable (S : System ι κ τ σ ε α) (R : RelyGuarantee ι τ σ) (Spare : ι → τ → σ → σ → Prop) (Pre : ι → σ → Prop)

/-- The proof obligations of a system. -/
structure VerifiedAt : Prop where
  main : ∀ i, R.TripleAt Spare i (Pre i) (S.main i) (fun _ _ => True) fun _ _ => True
  pre_stable : ∀ i, R.Stable i (Pre i)
  guar_rely : ∀ i j t s s', i ≠ j → R.Inv s → R.Inv s' → R.Guar i t s s' → R.Rely j s s'
  abort : ∀ i s, R.Inv s → R.Inv (S.abort i s) ∧ ∀ j, i ≠ j → R.Rely j s (S.abort i s)
  env : ∀ e s s', R.Inv s → S.env e s = some s' → R.Inv s' ∧ ∀ i, R.Rely i s s'
  kills : ∀ e, S.kills e = false

/-- The promise, for one step of the system: it is kept to every process that does not take the step. -/
def Spared (c c' : Config ι τ σ ε α) (l : Label ι κ τ) : Prop :=
  ∀ i t, (c.procs i).At t → (∀ t', l ≠ .next i t') → Spare i t c.shared c'.shared

/-- What holds of a process in a reachable state. -/
def ProcAt (i : ι) (s : σ) : Proc τ σ ε α → Prop
  | .fresh => Pre i s
  | .running p => R.SafeAt Spare i (fun _ _ => True) (fun _ _ => True) p s
  | .dead => True

def ConfigAt (c : Config ι τ σ ε α) : Prop :=
  R.Inv c.shared ∧ ∀ i, ProcAt R Spare Pre i c.shared (c.procs i)

variable {S R Spare Pre} {i : ι}

/-- A step of the others leaves a process what it is. -/
theorem ProcAt.other (hstable : R.Stable i (Pre i)) {s s' : σ} (hs : R.Inv s) (hs' : R.Inv s')
    (hr : R.Rely i s s') {q : Proc τ σ ε α} (hspare : ∀ t, q.At t → Spare i t s s')
    (h : ProcAt R Spare Pre i s q) : ProcAt R Spare Pre i s' q := by
  cases q with
  | fresh => exact hstable s s' hs hs' hr h
  | dead => exact trivial
  | running p =>
    cases p with
    | ret a => exact trivial
    | raise e => exact trivial
    | op t act k => exact SafeAt.interfere h (.single ⟨hs, hs', hr, hspare t rfl⟩)

theorem configAt_start {init : σ → Prop} (h₀ : ∀ s, init s → R.Inv s ∧ ∀ i, Pre i s) {c : Config ι τ σ ε α}
    (hc : System.Start init c) : ConfigAt R Spare Pre c := by
  obtain ⟨hinit, hfresh⟩ := hc
  refine ⟨(h₀ _ hinit).1, fun i => ?_⟩
  rw [hfresh i]
  exact (h₀ _ hinit).2 i

variable [DecidableEq ι]

/-- A step of process `i` that the others can live with. -/
theorem ConfigAt.update {c : Config ι τ σ ε α} (hc : ConfigAt R Spare Pre c) (hstable : ∀ j, R.Stable j (Pre j))
    {s : σ} (hs : R.Inv s) (hrely : ∀ j, i ≠ j → R.Rely j c.shared s)
    (hspare : ∀ j t, i ≠ j → (c.procs j).At t → Spare j t c.shared s) {q : Proc τ σ ε α}
    (hq : ProcAt R Spare Pre i s q) : ConfigAt R Spare Pre ⟨s, Function.update c.procs i q⟩ := by
  refine ⟨hs, fun j => ?_⟩
  show ProcAt R Spare Pre j s (Function.update c.procs i q j)
  by_cases hji : j = i
  · subst hji
    rw [Function.update_self]
    exact hq
  · have hij : i ≠ j := Ne.symm hji
    rw [Function.update_of_ne hji]
    exact (hc.2 j).other (hstable j) hc.1 hs (hrely j hij) fun t => hspare j t hij

variable [DecidableEq τ]

/-- **Step.** -/
theorem VerifiedAt.step (hV : VerifiedAt S R Spare Pre) {c c' : Config ι τ σ ε α} {l : Label ι κ τ}
    (hc : ConfigAt R Spare Pre c) (hok : System.okStep R.Ok c l) (hspared : Spared Spare c c' l)
    (h : S.step c l = some c') :
    ConfigAt R Spare Pre c' ∧ ∀ i t, l = .next i t → R.Guar i t c.shared c'.shared := by
  rcases System.step_cases h with ⟨i, rfl, hp, rfl⟩ | ⟨i, t, β, act, k, b, s, rfl, hp, hact, rfl⟩ |
    ⟨i, p, rfl, hp, rfl⟩ | ⟨e, s, rfl, he, rfl⟩
  · -- a process starts: the shared state is the same
    refine ⟨⟨hc.1, fun j => ?_⟩, nofun⟩
    show ProcAt R Spare Pre j c.shared (Function.update c.procs i (.running (S.main i)) j)
    by_cases hji : j = i
    · subst hji
      have hpre := hc.2 j
      rw [hp] at hpre
      rw [Function.update_self]
      exact hV.main j c.shared hc.1 hpre
    · rw [Function.update_of_ne hji]
      exact hc.2 j
  · have hsafe := hc.2 i
    rw [hp] at hsafe
    obtain ⟨hguar, hinv, hrest⟩ := hsafe c.shared .refl hok b s hact
    refine ⟨hc.update hV.pre_stable hinv (fun j hij => hV.guar_rely i j t _ _ hij hc.1 hinv hguar)
      (fun j t' hij hat => hspared j t' hat fun t'' hl => ?_) hrest, fun j t' hl => ?_⟩
    · cases hl
      exact hij rfl
    · cases hl
      exact hguar
  · obtain ⟨hinv, hrely⟩ := hV.abort i c.shared hc.1
    exact ⟨hc.update hV.pre_stable hinv hrely (fun j t _ hat => hspared j t hat nofun) trivial, nofun⟩
  · obtain ⟨hinv, hrely⟩ := hV.env e c.shared s hc.1 he
    refine ⟨⟨hinv, fun j => ?_⟩, nofun⟩
    simp only [hV.kills e, Bool.false_eq_true, if_false]
    exact (hc.2 j).other (hV.pre_stable j) hc.1 hinv (hrely j) fun t hat => hspared j t hat nofun

/-- **Soundness**, for the runs whose steps meet a condition from which the promise follows. -/
theorem VerifiedAt.configAt (hV : VerifiedAt S R Spare Pre) {init : σ → Prop}
    {ok : Config ι τ σ ε α → Label ι κ τ → Prop}
    (hok : ∀ c l c', S.Reachable init c → ok c l → S.step c l = some c' →
      System.okStep R.Ok c l ∧ Spared Spare c c' l)
    (h₀ : ∀ s, init s → R.Inv s ∧ ∀ i, Pre i s) {c : Config ι τ σ ε α}
    (hc : Lts.Reachable (Lts.guard ok (Lts.ofFun S.step)) (System.Start init) c) : ConfigAt R Spare Pre c := by
  refine Lts.Reachable.invariant (ConfigAt R Spare Pre) (fun _ => configAt_start h₀) ?_ hc
  rintro c l c' hreach hcfg ⟨hcond, hstep⟩
  obtain ⟨hokl, hspared⟩ := hok c l c' hreach.of_guard hcond hstep
  exact (hV.step hcfg hokl hspared hstep).1

/-- Every step out of such a state is within its guarantee. -/
theorem VerifiedAt.guar (hV : VerifiedAt S R Spare Pre) {init : σ → Prop}
    {ok : Config ι τ σ ε α → Label ι κ τ → Prop}
    (hok : ∀ c l c', S.Reachable init c → ok c l → S.step c l = some c' →
      System.okStep R.Ok c l ∧ Spared Spare c c' l)
    (h₀ : ∀ s, init s → R.Inv s ∧ ∀ i, Pre i s) {c c' : Config ι τ σ ε α} {l : Label ι κ τ}
    (hc : Lts.Reachable (Lts.guard ok (Lts.ofFun S.step)) (System.Start init) c) (hcond : ok c l)
    (hstep : S.step c l = some c') (i : ι) (t : τ) (hl : l = .next i t) : R.Guar i t c.shared c'.shared := by
  obtain ⟨hokl, hspared⟩ := hok c l c' hc.of_guard hcond hstep
  exact (hV.step (hV.configAt hok h₀ hc) hokl hspared hstep).2 i t hl

end Soundness

end RelyGuarantee
