import AgentTx.Gateway.Contract

/-!
# `Gateway.Calls` — attempts at one call, and what the tool is asked to do

`calls` is any number of calls of `Gateway.call` on one action id with the same arguments, one after the
other. `Tool.spy` is a tool that also writes down when the gateway invokes it, and what it returned.
-/

namespace AgentTx.Gateway

variable {R X : Type}

/-- Attempts at a call, each with the tick at which its clock kills it. What an attempt leaves open is
    rolled back. -/
def calls [Driver] (tool : Tool R X) (args : Json) (session turn : String) (ordinal : Int) (commit_id : String) :
    Serial Nat Stmt (World R X) Exn Result where
  main _ := call tool args session turn ordinal commit_id
  start kill_at w := { w with clock := ⟨0, kill_at⟩ }
  close w := { w with working := w.committed }

/-! ## Spying on a tool -/

/-- An invocation of a tool, or its return. -/
inductive Event where
  | effect (key : String)
  | effected (key : String) (value : Json)
  | compensate (key : String)
  | compensated (key : String)
  deriving DecidableEq, Repr

/-- A program of a tool, between two notes. -/
def spied {α : Type} (before : Event) (after : α → Event) (p : Prog Unit X String α) :
    Prog Unit (X × List Event) String α := do
  Prog.modify () fun s => (s.1, s.2 ++ [before])
  let a ← p.zoom () Prod.fst (fun x s => (x, s.2)) id
  Prog.modify () fun s => (s.1, s.2 ++ [after a])
  pure a

/-- The tool, with a list of its invocations and returns beside the outside world. -/
def Tool.spy (tool : Tool R X) : Tool R (X × List Event) where
  name := tool.name
  klass := tool.klass
  db_effect := tool.db_effect
  effect key args := spied (.effect key) (.effected key) (tool.effect key args)
  compensate key args := spied (.compensate key) (fun _ => .compensated key) (tool.compensate key args)

/-- Being spied on does not change what a program does. -/
theorem run_spied {α : Type} (before : Event) (after : α → Event) (p : Prog Unit X String α) (x : X)
    (l : List Event) :
    (spied before after p).run (x, l) = (p.run x).map fun r =>
      (r.1, r.2, match r.1 with
        | .ok a => l ++ [before] ++ [after a]
        | .error _ => l ++ [before]) := by
  have hzoom : ∀ (p : Prog Unit X String α) x,
      (p.zoom () Prod.fst (fun x (s : X × List Event) => (x, s.2)) id).run (x, l ++ [before]) =
        (p.run x).map fun r => (r.1, r.2, l ++ [before]) := by
    intro p
    induction p with
    | ret a => exact fun _ => rfl
    | raise e => exact fun _ => rfl
    | op t act k ih =>
      intro x
      simp only [Prog.zoom, Prog.run]
      cases hact : act x with
      | none => rfl
      | some r => exact ih r.1 r.2
  simp only [spied, Prog.run_bind, Prog.run_modify, Option.bind_some, Prog.andThen_ok, hzoom]
  cases p.run x with
  | none => rfl
  | some r =>
    obtain ⟨res, x'⟩ := r
    cases res <;> rfl

namespace Contract

variable {C : Contract R (X × List Event)}

/-- **A program that is spied on**, from its triple. `A` is what is known of the notes before it. -/
theorem spied {α : Type} {d : Db R} {inv' P : X → Prop} {Q : α → X → Prop} {A : List Event → Prop}
    {before : Event} {after : α → Event} {p : Prog Unit X String α}
    (h : (Serial.alone inv' (fun _ _ _ => True) fun _ _ => True).Triple () P p Q fun _ _ => True)
    (hbefore : ∀ x l, A l → inv' x → P x → C.may d (x, l) d (x, l ++ [before]) ∧ C.inv d (x, l ++ [before]))
    (hduring : ∀ x x' l, A l → inv' x → inv' x' →
      C.may d (x, l ++ [before]) d (x', l ++ [before]) ∧ C.inv d (x', l ++ [before]))
    (hafter : ∀ a x l, A l → inv' x → Q a x →
      C.may d (x, l ++ [before]) d (x, l ++ [before] ++ [after a]) ∧ C.inv d (x, l ++ [before] ++ [after a])) :
    (C.toolRules d).Triple () (fun s => A s.2 ∧ inv' s.1 ∧ P s.1) (Gateway.spied before after p)
      (fun a s => (∃ l, A l ∧ s.2 = l ++ [before] ++ [after a]) ∧ inv' s.1 ∧ Q a s.1) fun _ _ => True := by
  let frame (s : X × List Event) : Prop := ∃ l, A l ∧ s.2 = l ++ [before]
  refine RelyGuarantee.Triple.bind (Q := fun _ s => frame s ∧ inv' s.1 ∧ P s.1) ?_ fun _ => ?_
  · refine RelyGuarantee.Triple.modify (Serial.stable_alone _) ?_
    rintro ⟨x, l⟩ - ⟨hA, hinv', hP⟩ -
    obtain ⟨hmay, hinv⟩ := hbefore x l hA hinv' hP
    exact ⟨hmay, hinv, ⟨l, hA, rfl⟩, hinv', hP⟩
  have hzoom : (C.toolRules d).Triple () (fun s => frame s ∧ inv' s.1 ∧ P s.1)
      (p.zoom () Prod.fst (fun x (s : X × List Event) => (x, s.2)) id)
      (fun a s => frame s ∧ inv' s.1 ∧ Q a s.1) fun e s => ∃ e', e = id e' ∧ frame s ∧ True := by
    refine Serial.triple_zoom h (fun _ _ => rfl) ?_
    rintro ⟨x, _⟩ x' - ⟨l, hA, rfl⟩ hx hx'
    obtain ⟨hmay, hinv⟩ := hduring x x' l hA hx hx'
    exact ⟨hmay, hinv, l, hA, rfl⟩
  refine RelyGuarantee.Triple.bind (Q := fun a s => frame s ∧ inv' s.1 ∧ Q a s.1)
    (hzoom.conseq (fun _ _ h => h) (fun _ _ _ h => h) fun _ _ _ _ => trivial) fun a => ?_
  refine RelyGuarantee.Triple.bind (Q := fun _ (s : X × List Event) =>
    (∃ l, A l ∧ s.2 = l ++ [before] ++ [after a]) ∧ inv' s.1 ∧ Q a s.1) ?_ fun _ => fun _ _ h => h
  refine RelyGuarantee.Triple.modify (Serial.stable_alone _) ?_
  rintro ⟨x, _⟩ - ⟨⟨l, hA, rfl⟩, hinv', hQ⟩ -
  obtain ⟨hmay, hinv⟩ := hafter a x l hA hinv' hQ
  exact ⟨hmay, hinv, ⟨l, hA, rfl⟩, hinv', hQ⟩

end Contract

/-! ## Attempts -/

/-- **The contract of the attempts at a call** is kept when the call keeps it. -/
theorem Contract.verified_calls [Driver] {C : Contract R X} {tool : Tool R X} {args : Json} {session turn cid : String}
    {ordinal : Int} {before : Db R → X → Prop} {after : Result → Db R → X → Prop}
    {E : Exn → World R X → Prop} (hinv : ∀ d x, C.inv d x → before d x)
    (h : C.rules.Triple () (Settled before) (Gateway.call tool args session turn ordinal cid)
      (fun res => Settled (after res)) E) :
    Serial.Verified (calls tool args session turn ordinal cid) C.rules (Settled before)
      (fun _ => Settled before) (fun res => Settled (after res)) E where
  main _ := h
  start _ _ hw hF := ⟨hw, hF.idle, hF.fact⟩
  close _ hw := ⟨hw, rfl, hinv _ _ hw⟩

end AgentTx.Gateway
