import AgentTx.Lib.Prog.Run

/-!
# `Lib.Prog.Trace` — a program stopped on its way, and programs that cannot tell two states apart

`Trace p s ts q s'` — `p`, alone from `s`, executes the statements `ts` and is then at `q`, in `s'`. The rules
of `Along` prove what holds at every such point, and at the end. `Respects Rel p` says that related states
look the same to `p`: whatever it reads is equal, and what it leaves is related again.
-/

namespace Prog

variable {τ σ ε α β : Type}

/-- `p` runs alone from `s`, executes `ts`, and is at `q`. -/
inductive Trace : Prog τ σ ε α → σ → List τ → Prog τ σ ε α → σ → Prop where
  | refl {p : Prog τ σ ε α} {s : σ} : Trace p s [] p s
  | head {γ : Type} {t : τ} {act : σ → Option (γ × σ)} {k : γ → Prog τ σ ε α} {s s' s'' : σ} {b : γ}
      {ts : List τ} {q : Prog τ σ ε α} : act s = some (b, s') → Trace (k b) s' ts q s'' →
        Trace (.op t act k) s (t :: ts) q s''

namespace Trace

variable {ts ts' : List τ} {s s' s'' : σ}

theorem trans {p q r : Prog τ σ ε α} (h : Trace p s ts q s') (h' : Trace q s' ts' r s'') :
    Trace p s (ts ++ ts') r s'' := by
  induction h with
  | refl => exact h'
  | head hact _ ih => exact .head hact (ih h')

/-- The first part of a program. -/
theorem bind {p q : Prog τ σ ε α} (h : Trace p s ts q s') (f : α → Prog τ σ ε β) :
    Trace (p >>= f) s ts (q >>= f) s' := by
  induction h with
  | refl => exact .refl
  | head hact _ ih => exact .head hact ih

/-- The body under a handler. -/
theorem tryCatch {p q : Prog τ σ ε α} (h : Trace p s ts q s') (g : ε → Prog τ σ ε α) :
    Trace (p.tryCatch g) s ts (q.tryCatch g) s' := by
  induction h with
  | refl => exact .refl
  | head hact _ ih => exact .head hact ih

/-- One statement. -/
theorem step {t : τ} {act : σ → Option (β × σ)} {b : β} {f : β → Prog τ σ ε α} (h : act s = some (b, s')) :
    Trace (Prog.step t act >>= f) s [t] (f b) s' := .head h .refl

end Trace

/-- At every point of the run of `p` alone, `P` holds of the statements executed and of the state; it returns
    with `Q` and raises with `E`. -/
def Along (P : List τ → σ → Prop) (Q : α → List τ → σ → Prop) (E : ε → List τ → σ → Prop) :
    Prog τ σ ε α → List τ → σ → Prop
  | .ret a, ts, s => P ts s ∧ Q a ts s
  | .raise e, ts, s => P ts s ∧ E e ts s
  | .op t act k, ts, s => P ts s ∧ ∀ b s', act s = some (b, s') → (k b).Along P Q E (ts ++ [t]) s'

namespace Along

variable {P : List τ → σ → Prop} {Q : α → List τ → σ → Prop} {E : ε → List τ → σ → Prop}

theorem here {p : Prog τ σ ε α} {ts : List τ} {s : σ} (h : p.Along P Q E ts s) : P ts s := by
  cases p with
  | ret a => exact h.1
  | raise e => exact h.1
  | op t act k => exact h.1

theorem bind {f : α → Prog τ σ ε β} {Q' : β → List τ → σ → Prop}
    (hf : ∀ a ts s, P ts s → Q a ts s → (f a).Along P Q' E ts s) :
    ∀ {p : Prog τ σ ε α} {ts : List τ} {s : σ}, p.Along P Q E ts s → (p >>= f).Along P Q' E ts s
  | .ret a, ts, s, h => hf a ts s h.1 h.2
  | .raise _, _, _, h => h
  | .op _ _ _, _, _, h => ⟨h.1, fun b s' hact => Along.bind hf (h.2 b s' hact)⟩

theorem tryCatch {g : ε → Prog τ σ ε α} {D : ε → List τ → σ → Prop}
    (hg : ∀ e ts s, P ts s → D e ts s → (g e).Along P Q E ts s) :
    ∀ {p : Prog τ σ ε α} {ts : List τ} {s : σ}, p.Along P Q D ts s → (p.tryCatch g).Along P Q E ts s
  | .ret _, _, _, h => h
  | .raise e, ts, s, h => hg e ts s h.1 h.2
  | .op _ _ _, _, _, h => ⟨h.1, fun b s' hact => Along.tryCatch hg (h.2 b s' hact)⟩

theorem step {t : τ} {act : σ → Option (α × σ)} {ts : List τ} {s : σ} (hp : P ts s)
    (h : ∀ a s', act s = some (a, s') → P (ts ++ [t]) s' ∧ Q a (ts ++ [t]) s') :
    (Prog.step t act).Along P Q E ts s := ⟨hp, h⟩

theorem ofExcept {r : Except ε α} {ts : List τ} {s : σ} (hp : P ts s) (hQ : ∀ a, r = .ok a → Q a ts s)
    (hE : ∀ e, r = .error e → E e ts s) : (Prog.ofExcept r).Along P Q E ts s := by
  cases r with
  | ok a => exact ⟨hp, hQ a rfl⟩
  | error e => exact ⟨hp, hE e rfl⟩

/-- Less is said of an exception. -/
theorem raises {E' : ε → List τ → σ → Prop} (hE : ∀ e ts s, E e ts s → E' e ts s) :
    ∀ {p : Prog τ σ ε α} {ts : List τ} {s : σ}, p.Along P Q E ts s → p.Along P Q E' ts s
  | .ret _, _, _, h => h
  | .raise e, ts, s, h => ⟨h.1, hE e ts s h.2⟩
  | .op _ _ _, _, _, h => ⟨h.1, fun b s' hact => Along.raises hE (h.2 b s' hact)⟩

/-- **What holds along the run holds where it is stopped.** -/
theorem trace {p q : Prog τ σ ε α} {ts₀ ts : List τ} {s s' : σ} (h : p.Along P Q E ts₀ s)
    (ht : Trace p s ts q s') : P (ts₀ ++ ts) s' := by
  induction ht generalizing ts₀ with
  | refl =>
    rw [List.append_nil]
    exact h.here
  | head hact _ ih =>
    rw [List.append_cons]
    exact ih (h.2 _ _ hact)

/-- **What holds of the end of the run holds when it ends.** -/
theorem ended {p : Prog τ σ ε α} {ts₀ : List τ} {s s' : σ} {r : Except ε α} (h : p.Along P Q E ts₀ s)
    (hrun : p.run s = some (r, s')) : ∃ ts, match r with
      | .ok a => Q a ts s'
      | .error e => E e ts s' := by
  induction p generalizing ts₀ s with
  | ret a =>
    cases hrun
    exact ⟨ts₀, h.2⟩
  | raise e =>
    cases hrun
    exact ⟨ts₀, h.2⟩
  | op t act k ih =>
    obtain ⟨⟨b, s₁⟩, hact, hrest⟩ := Option.bind_eq_some_iff.mp hrun
    exact ih b (h.2 b s₁ hact) hrest

end Along

/-! ## Related states -/

/-- `p` cannot tell related states apart. -/
def Respects (Rel : σ → σ → Prop) : Prog τ σ ε α → Prop
  | .ret _ => True
  | .raise _ => True
  | .op _ act k =>
      (∀ s s', Rel s s' → Option.Rel (fun r r' => r.1 = r'.1 ∧ Rel r.2 r'.2) (act s) (act s')) ∧
        ∀ b, (k b).Respects Rel

namespace Respects

variable {Rel : σ → σ → Prop}

theorem ret (a : α) : (Prog.ret a : Prog τ σ ε α).Respects Rel := trivial

theorem raise (e : ε) : (Prog.raise e : Prog τ σ ε α).Respects Rel := trivial

theorem step {t : τ} {act : σ → Option (α × σ)}
    (h : ∀ s s', Rel s s' → Option.Rel (fun r r' => r.1 = r'.1 ∧ Rel r.2 r'.2) (act s) (act s')) :
    (Prog.step t act : Prog τ σ ε α).Respects Rel := ⟨h, fun _ => trivial⟩

theorem modify {t : τ} {f : σ → σ} (h : ∀ s s', Rel s s' → Rel (f s) (f s')) :
    (Prog.modify t f : Prog τ σ ε Unit).Respects Rel :=
  step fun s s' hs => .some ⟨rfl, h s s' hs⟩

theorem ofExcept (r : Except ε α) : (Prog.ofExcept r : Prog τ σ ε α).Respects Rel := by
  cases r <;> trivial

theorem ofOption (e : ε) (o : Option α) : (Prog.ofOption e o : Prog τ σ ε α).Respects Rel := ofExcept _

theorem bind {p : Prog τ σ ε α} {f : α → Prog τ σ ε β} (hp : p.Respects Rel)
    (hf : ∀ a, (f a).Respects Rel) : (p >>= f).Respects Rel := by
  induction p with
  | ret a => exact hf a
  | raise e => trivial
  | op t act k ih => exact ⟨hp.1, fun b => ih b (hp.2 b)⟩

theorem tryCatch {p : Prog τ σ ε α} {g : ε → Prog τ σ ε α} (hp : p.Respects Rel)
    (hg : ∀ e, (g e).Respects Rel) : (p.tryCatch g).Respects Rel := by
  induction p with
  | ret a => trivial
  | raise e => exact hg e
  | op t act k ih => exact ⟨hp.1, fun b => ih b (hp.2 b)⟩

/-- **Runs from related states end alike.** -/
theorem run {p : Prog τ σ ε α} (hp : p.Respects Rel) {s s' : σ} (hs : Rel s s') :
    Option.Rel (fun r r' => r.1 = r'.1 ∧ Rel r.2 r'.2) (p.run s) (p.run s') := by
  induction p generalizing s s' with
  | ret a => exact .some ⟨rfl, hs⟩
  | raise e => exact .some ⟨rfl, hs⟩
  | op t act k ih =>
    unfold Prog.run
    have hact := hp.1 s s' hs
    generalize act s = x, act s' = x' at hact ⊢
    cases hact with
    | none => exact .none
    | @some r r' hr =>
      obtain ⟨b, s₁⟩ := r
      obtain ⟨b', s₁'⟩ := r'
      obtain ⟨rfl, hrel⟩ := hr
      exact ih b (hp.2 b) hrel

end Respects

end Prog
