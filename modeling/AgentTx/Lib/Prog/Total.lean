import AgentTx.Lib.Prog.Files
import AgentTx.Lib.Prog.Serial

/-!
# `Lib.Prog.Total` — programs that run alone, to their end

`p.Ends Q E s`: alone from `s`, `p` is never blocked, and comes to its end; `Q` holds when it returns, `E` when it
raises. It is a transformer of `Q` and `E` along the program (`Ends.bind`, `Ends.tryCatch`, `Ends.zoom`), and what a
triple says of the same program can be added (`Triple.ends`). `p.Runs`: so it is from every state.
-/

namespace Prog

variable {τ τ' σ ρ ε ε' α β : Type}

/-- Alone from a state it comes to its end, with `Q` or with `E`. -/
def Ends (Q : α → σ → Prop) (E : ε → σ → Prop) : Prog τ σ ε α → σ → Prop
  | .ret a, s => Q a s
  | .raise e, s => E e s
  | .op _ act k, s => ∃ b s', act s = some (b, s') ∧ (k b).Ends Q E s'

variable {Q Q' : α → σ → Prop} {E E' : ε → σ → Prop} {p : Prog τ σ ε α} {s : σ}

/-- **What it means of the run.** -/
theorem Ends.run (h : p.Ends Q E s) :
    ∃ r s', p.run s = some (r, s') ∧ (∀ a, r = .ok a → Q a s') ∧ ∀ e, r = .error e → E e s' := by
  induction p generalizing s with
  | ret a =>
    refine ⟨.ok a, s, rfl, ?_, nofun⟩
    intro b hb
    cases hb
    exact h
  | raise e =>
    refine ⟨.error e, s, rfl, nofun, ?_⟩
    intro e' he
    cases he
    exact h
  | op t act k ih =>
    obtain ⟨b, s₁, hact, hrest⟩ := h
    obtain ⟨r, s', hrun, hQE⟩ := ih b hrest
    refine ⟨r, s', ?_, hQE⟩
    rw [Prog.run, hact]
    exact hrun

/-- **And back.** -/
theorem Ends.of_run {r : Except ε α} {s' : σ} (hrun : p.run s = some (r, s')) (hQ : ∀ a, r = .ok a → Q a s')
    (hE : ∀ e, r = .error e → E e s') : p.Ends Q E s := by
  induction p generalizing s with
  | ret a =>
    cases hrun
    exact hQ a rfl
  | raise e =>
    cases hrun
    exact hE e rfl
  | op t act k ih =>
    obtain ⟨⟨b, s₁⟩, hact, hrest⟩ := Option.bind_eq_some_iff.mp hrun
    exact ⟨b, s₁, hact, ih b hrest⟩

/-- A run that returns. -/
theorem Ends.of_run_ok {a : α} {s' : σ} (hrun : p.run s = some (.ok a, s')) (hQ : Q a s') : p.Ends Q E s := by
  apply Ends.of_run hrun
  · intro b hb
    cases hb
    exact hQ
  · intro e he
    cases he

/-- A program that cannot raise here returns. -/
theorem Ends.returns (h : p.Ends Q (fun _ _ => False) s) : ∃ a s', p.run s = some (.ok a, s') ∧ Q a s' := by
  obtain ⟨r, s', hrun, hQ, hE⟩ := h.run
  cases r with
  | ok a => exact ⟨a, s', hrun, hQ a rfl⟩
  | error e => exact (hE e rfl).elim

/-! ## Rules -/

@[simp] theorem ends_ret (a : α) : (Prog.ret a : Prog τ σ ε α).Ends Q E s ↔ Q a s := Iff.rfl

@[simp] theorem ends_pure (a : α) : (pure a : Prog τ σ ε α).Ends Q E s ↔ Q a s := Iff.rfl

@[simp] theorem ends_raise (e : ε) : (Prog.raise e : Prog τ σ ε α).Ends Q E s ↔ E e s := Iff.rfl

@[simp] theorem ends_step (t : τ) (act : σ → Option (α × σ)) :
    (step t act : Prog τ σ ε α).Ends Q E s ↔ ∃ b s', act s = some (b, s') ∧ Q b s' := Iff.rfl

@[simp] theorem ends_modify {Q : Unit → σ → Prop} (t : τ) (f : σ → σ) :
    (modify t f : Prog τ σ ε Unit).Ends Q E s ↔ Q () (f s) := by
  constructor
  · rintro ⟨b, s', hact, hQ⟩
    cases hact
    exact hQ
  · intro hQ
    exact ⟨(), f s, rfl, hQ⟩

@[simp] theorem ends_read (t : τ) (f : σ → α) : (read t f : Prog τ σ ε α).Ends Q E s ↔ Q (f s) s := by
  constructor
  · rintro ⟨b, s', hact, hQ⟩
    cases hact
    exact hQ
  · intro hQ
    exact ⟨f s, s, rfl, hQ⟩

theorem Ends.ofExcept {r : Except ε α} (hQ : ∀ a, r = .ok a → Q a s) (hE : ∀ e, r = .error e → E e s) :
    (Prog.ofExcept r : Prog τ σ ε α).Ends Q E s := by
  cases r with
  | ok a => exact hQ a rfl
  | error e => exact hE e rfl

theorem Ends.mono (h : p.Ends Q E s) (hQ : ∀ a s', Q a s' → Q' a s') (hE : ∀ e s', E e s' → E' e s') :
    p.Ends Q' E' s := by
  induction p generalizing s with
  | ret a => exact hQ a s h
  | raise e => exact hE e s h
  | op t act k ih =>
    obtain ⟨b, s', hact, hrest⟩ := h
    exact ⟨b, s', hact, ih b hrest⟩

theorem Ends.bind {f : α → Prog τ σ ε β} {Q' : β → σ → Prop} (h : p.Ends Q E s)
    (hf : ∀ a s', Q a s' → (f a).Ends Q' E s') : (p >>= f).Ends Q' E s := by
  induction p generalizing s with
  | ret a => exact hf a s h
  | raise e => exact h
  | op t act k ih =>
    obtain ⟨b, s', hact, hrest⟩ := h
    exact ⟨b, s', hact, ih b hrest⟩

theorem Ends.tryCatch {g : ε → Prog τ σ ε α} (h : p.Ends Q E s) (hg : ∀ e s', E e s' → (g e).Ends Q E' s') :
    (p.tryCatch g).Ends Q E' s := by
  induction p generalizing s with
  | ret a => exact h
  | raise e => exact hg e s h
  | op t act k ih =>
    obtain ⟨b, s', hact, hrest⟩ := h
    exact ⟨b, s', hact, ih b hrest⟩

/-- **A program on a part of the state**: the rest stays as it is. -/
theorem Ends.zoom {t : τ} {get : σ → ρ} (set : ρ → σ → σ) {err : ε' → ε} {p : Prog τ' ρ ε' α}
    {Q : α → ρ → Prop} {E : ε' → ρ → Prop} (h : p.Ends Q E (get s)) (hget : ∀ s x, get (set x s) = x)
    (hset : ∀ s x y, set x (set y s) = set x s) (hself : ∀ s, set (get s) s = s) :
    (p.zoom t get set err).Ends (fun a s' => s' = set (get s') s ∧ Q a (get s'))
      (fun e s' => s' = set (get s') s ∧ ∃ e', e = err e' ∧ E e' (get s')) s := by
  induction p generalizing s with
  | ret a => exact ⟨(hself s).symm, h⟩
  | raise e => exact ⟨(hself s).symm, e, rfl, h⟩
  | op t' act k ih =>
    obtain ⟨b, x, hact, hrest⟩ := h
    have hhead : ((act (get s)).map fun r => (r.1, set r.2 s)) = some (b, set x s) := by
      rw [hact]
      rfl
    -- the rest runs on the part that this step has left
    have hx : (k b).Ends Q E (get (set x s)) := by
      rw [hget]
      exact hrest
    refine ⟨b, set x s, hhead, (ih b hx).mono ?_ ?_⟩
    · intro a s' hs'
      rw [hset] at hs'
      exact hs'
    · intro e s' hs'
      rw [hset] at hs'
      exact hs'

theorem Ends.onlyIf {c : Prop} [Decidable c] {p : Prog τ σ ε Unit} {Q : Unit → σ → Prop} (h : c → p.Ends Q E s)
    (hskip : ¬ c → Q () s) : (Prog.onlyIf c p).Ends Q E s := by
  unfold Prog.onlyIf
  split_ifs with hc
  · exact h hc
  · exact hskip hc

section Files

variable [HasFiles τ σ] [LawfulFiles τ σ]

open HasFiles

/-- **A file is written over**, and no other. -/
theorem ends_rewrite {E : ε → σ → Prop} (p : FsPath) (bytes : List UInt8) (hlinks : (files τ s).NoLinks) :
    (do let f ← openTrunc p; writeBytes f 0 bytes : Prog τ σ ε Unit).Ends
      (fun _ s' => ∃ fs, s' = setFiles τ s fs ∧ fs.read p = some bytes ∧ (files τ s).OnlyAt p fs) E s := by
  obtain ⟨fs, hwrite, hdir, -, hothers, hdata⟩ := run_writeBytes (τ := τ) (ε := ε) ((files τ s).openInode p) bytes 0 s
    ((files τ s).openTrunc p)
  have hempty : ((files τ s).openTrunc p).data ((files τ s).openInode p) = [] := FileSys.openTrunc_data_self ..
  have hn : fs.dir p = some ((files τ s).openInode p) := by
    rw [hdir, FileSys.openTrunc_dir_self]
  have hcontent : fs.data ((files τ s).openInode p) = bytes := by
    simpa [hempty] using hdata
  have hrun : (do let f ← openTrunc p; writeBytes f 0 bytes : Prog τ σ ε Unit).run s =
      some (.ok (), setFiles τ s fs) := by
    simp only [run_bind, run_openTrunc, Option.bind_some, andThen_ok]
    exact hwrite
  apply Ends.of_run_ok hrun
  refine ⟨fs, rfl, ?_, ?_, ?_⟩
  · simp [FileSys.read, hn, hcontent]
  · have hopen := FileSys.onlyAt_openTrunc hlinks p
    unfold FileSys.NoLinks
    rw [hdir]
    exact hopen.no_links
  · intro q hq
    have hopen := (FileSys.onlyAt_openTrunc hlinks p).elsewhere q hq
    rw [hdir]
    refine ⟨hopen.1, fun m hm => ?_⟩
    rw [hothers m (hlinks.ne_openInode hq hm)]
    exact hopen.2 m hm

/-- **A file is written.** -/
theorem ends_writeFile {E : ε → σ → Prop} (p : FsPath) (bytes : List UInt8) (hlinks : (files τ s).NoLinks) :
    (writeFile p bytes : Prog τ σ ε Unit).Ends
      (fun _ s' => ∃ fs, s' = setFiles τ s fs ∧ fs.NoLinks ∧ fs.read p = some bytes ∧
        ∀ q, q ≠ p → fs.read q = (files τ s).read q) E s := by
  obtain ⟨fs, hrun, -, -, hread, honly⟩ := run_writeFile (τ := τ) (ε := ε) p bytes s
  apply Ends.of_run_ok hrun
  exact ⟨fs, rfl, (honly hlinks).no_links, hread, fun q hq => (honly hlinks).read hq⟩

/-- **A file is published.** -/
theorem ends_publish {E : ε → σ → Prop} (e : ε) (tmp p : FsPath) (bytes : List UInt8)
    (hlinks : (files τ s).NoLinks) :
    (do writeFile tmp bytes; replace e tmp p : Prog τ σ ε Unit).Ends
      (fun _ s' => ∃ fs, s' = setFiles τ s fs ∧ fs.NoLinks ∧ fs.read p = some bytes ∧
        ∀ q, q ≠ tmp → q ≠ p → fs.read q = (files τ s).read q) E s := by
  obtain ⟨fs, _, hrun, -, -, hread, honly⟩ := run_publish (τ := τ) e tmp p bytes s
  apply Ends.of_run_ok hrun
  exact ⟨fs, rfl, (honly hlinks).1, hread, (honly hlinks).2⟩

end Files

/-! ## Programs that are never blocked -/

/-- Alone, it comes to its end from every state. -/
def Runs (p : Prog τ σ ε α) : Prop := ∀ s, p.Ends (fun _ _ => True) (fun _ _ => True) s

theorem Runs.of_run (h : ∀ s, ∃ a s', p.run s = some (.ok a, s')) : p.Runs := by
  intro s
  obtain ⟨a, s', hrun⟩ := h s
  exact .of_run_ok hrun trivial

theorem Runs.bind {f : α → Prog τ σ ε β} (hp : p.Runs) (hf : ∀ a, (f a).Runs) : (p >>= f).Runs :=
  fun s => (hp s).bind fun a s' _ => hf a s'

theorem Runs.onlyIf {c : Prop} [Decidable c] {p : Prog τ σ ε Unit} (hp : p.Runs) : (Prog.onlyIf c p).Runs :=
  fun s => .onlyIf (fun _ => hp s) fun _ => trivial

theorem runs_ofExcept (r : Except ε α) : (ofExcept r : Prog τ σ ε α).Runs :=
  fun _ => .ofExcept (fun _ _ => trivial) fun _ _ => trivial

theorem runs_modify (t : τ) (f : σ → σ) : (modify t f : Prog τ σ ε Unit).Runs := .of_run fun _ => ⟨_, _, rfl⟩

theorem runs_read (t : τ) (f : σ → α) : (read t f : Prog τ σ ε α).Runs := .of_run fun _ => ⟨_, _, rfl⟩

theorem runs_writeFile [HasFiles τ σ] [LawfulFiles τ σ] (p : FsPath) (bytes : List UInt8) :
    (writeFile p bytes : Prog τ σ ε Unit).Runs := by
  refine .of_run fun s => ?_
  obtain ⟨fs, hrun, -⟩ := run_writeFile (τ := τ) (ε := ε) p bytes s
  exact ⟨_, _, hrun⟩

theorem runs_publish [HasFiles τ σ] [LawfulFiles τ σ] (e : ε) (tmp p : FsPath) (bytes : List UInt8) :
    (do writeFile tmp bytes; replace e tmp p : Prog τ σ ε Unit).Runs := by
  refine .of_run fun s => ?_
  obtain ⟨fs, _, hrun, -⟩ := run_publish (τ := τ) e tmp p bytes s
  exact ⟨_, _, hrun⟩

end Prog

/-- **A triple and a run to the end**: what is known by an invariant, and what is known by following the program. -/
theorem RelyGuarantee.Triple.ends {ι τ σ ε α : Type} {R : RelyGuarantee ι τ σ} {i : ι} {P : σ → Prop}
    {p : Prog τ σ ε α} {Q Q' : α → σ → Prop} {E E' : ε → σ → Prop} (h : R.Triple i P p Q E)
    (hok : ∀ t s, R.Ok i t s) {s : σ} (hs : R.Inv s) (hP : P s) (hends : p.Ends Q' E' s) :
    p.Ends (fun a s => R.Inv s ∧ Q a s ∧ Q' a s) (fun e s => R.Inv s ∧ E e s ∧ E' e s) s := by
  have hsafe := h s hs hP
  clear h hP
  induction p generalizing s with
  | ret a => exact ⟨hs, hsafe, hends⟩
  | raise e => exact ⟨hs, hsafe, hends⟩
  | op t act k ih =>
    obtain ⟨b, s', hact, hrest⟩ := hends
    obtain ⟨-, hinv, hnext⟩ := hsafe s .refl (hok t s) b s' hact
    exact ⟨b, s', hact, ih b hinv hrest hnext⟩
