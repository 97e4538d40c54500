import Mathlib.Data.List.Count

/-!
# `Lib.Redo` — effects that are made again until they are recorded

A job makes an effect and records it. It is attempted until it comes to its end, and each attempt makes the effect
unless it finds the record. How often the effect is there in the end depends on the `Guard` between effect and
record, and on the `Stage` at which each attempt was stopped: `History.cell` counts it exactly, and `History.total`
in the end.
-/

namespace Redo

/-- What keeps an attempt from making the effect again. -/
inductive Guard where
  /-- nothing does -/
  | nothing
  /-- a record that is written after the effect -/
  | after
  /-- a record that is written together with the effect -/
  | together
  /-- a record that is written after the effect; the effect, made again, takes the place of the one before -/
  | inPlace
  deriving DecidableEq, Repr

/-- Where an attempt was stopped. -/
inductive Stage where
  /-- before the effect -/
  | before
  /-- between the effect and its record -/
  | between
  /-- past the record -/
  | past
  deriving DecidableEq, Repr

/-- How often the effect is there, and whether it is recorded. -/
structure Cell where
  count : Nat
  recorded : Bool
  deriving DecidableEq, Repr

/-- The effect is made once more. -/
def Guard.made (g : Guard) (n : Nat) : Nat := if g = .inPlace then 1 else n + 1

/-- An attempt that is stopped at a stage. -/
def Cell.stop (g : Guard) (s : Stage) (c : Cell) : Cell :=
  if c.recorded then c
  else
    match s with
    | .before => c
    | .between => ⟨g.made c.count, g = .together⟩
    | .past => ⟨g.made c.count, g ≠ .nothing⟩

@[simp] theorem Cell.stop_before (g : Guard) (c : Cell) : c.stop g .before = c := by
  unfold Cell.stop
  split_ifs <;> rfl

/-- An attempt that finds the record. -/
theorem Cell.stop_of_recorded {c : Cell} (h : c.recorded = true) (g : Guard) (s : Stage) : c.stop g s = c := by
  simp [Cell.stop, h]

/-- An attempt that does not find it. -/
theorem Cell.stop_between {c : Cell} (h : c.recorded = false) (g : Guard) :
    c.stop g .between = ⟨g.made c.count, g = .together⟩ := by
  simp [Cell.stop, h]

theorem Cell.stop_past {c : Cell} (h : c.recorded = false) (g : Guard) :
    c.stop g .past = ⟨g.made c.count, g ≠ .nothing⟩ := by
  simp [Cell.stop, h]

/-- What attempts stopped at these stages, oldest first, have made of a fresh job. An attempt that finds the record
    makes no effect, so that it is not stopped behind it. -/
inductive History (g : Guard) : List Stage → Cell → Prop where
  | fresh : History g [] ⟨0, false⟩
  | stop {ss : List Stage} {c : Cell} (s : Stage) : History g ss c → (s = .between → c.recorded = false) →
      History g (ss ++ [s]) (c.stop g s)

/-- An attempt got past the effect. -/
def reached (ss : List Stage) : Bool := ss.any (· ≠ .before)

/-- An attempt got past the record. -/
def finished (ss : List Stage) : Bool := ss.any (· = .past)

theorem reached_of_finished {ss : List Stage} (h : finished ss = true) : reached ss = true := by
  obtain ⟨s, hs, hpast⟩ := List.any_eq_true.mp h
  have heq : s = .past := of_decide_eq_true hpast
  subst heq
  exact List.any_eq_true.mpr ⟨.past, hs, rfl⟩

/-- The number of times the effect is there. -/
def Guard.count (g : Guard) (ss : List Stage) : Nat :=
  match g with
  | .nothing => ss.countP (· ≠ .before)
  | .after => ss.count .between + (finished ss).toNat
  | .together => (reached ss).toNat
  | .inPlace => (reached ss).toNat

/-- Whether the effect is recorded. -/
def Guard.recorded (g : Guard) (ss : List Stage) : Bool :=
  match g with
  | .nothing => false
  | .after => finished ss
  | .together => reached ss
  | .inPlace => finished ss

variable {g : Guard} {ss : List Stage} {c : Cell}

/-- **One more attempt.** -/
theorem Guard.stop (g : Guard) (ss : List Stage) (s : Stage) (h : s = .between → g.recorded ss = false) :
    Cell.stop g s ⟨g.count ss, g.recorded ss⟩ = ⟨g.count (ss ++ [s]), g.recorded (ss ++ [s])⟩ := by
  have hreached : reached (ss ++ [s]) = (reached ss || s ≠ .before) := by
    simp [reached]
  have hfinished : finished (ss ++ [s]) = (finished ss || s = .past) := by
    simp [finished]
  cases g with
  | nothing => cases s <;> simp [Cell.stop, Guard.made, Guard.count, Guard.recorded]
  | after =>
    have hb : s = .between → finished ss = false := h
    simp only [Guard.count, Guard.recorded, hfinished, List.count_append]
    cases hf : finished ss with
    | true =>
      -- the record is there, and the attempt was not stopped before it
      have hs : s ≠ .between := fun hs => by simp [hb hs] at hf
      cases s <;> simp_all [Cell.stop]
    | false => cases s <;> simp [Cell.stop, Guard.made]
  | together =>
    simp only [Guard.count, Guard.recorded, hreached]
    cases hr : reached ss <;> cases s <;> simp [Cell.stop, Guard.made]
  | inPlace =>
    simp only [Guard.count, Guard.recorded, hreached, hfinished]
    cases hf : finished ss with
    | true => simp [Cell.stop, reached_of_finished hf]
    | false => cases s <;> simp [Cell.stop, Guard.made]

/-- **Exactly counted**, by the stages at which the attempts were stopped. -/
theorem History.cell (h : History g ss c) : c = ⟨g.count ss, g.recorded ss⟩ := by
  induction h with
  | fresh => cases g <;> rfl
  | stop s _ hbetween ih =>
    subst ih
    exact Guard.stop g _ s hbetween

/-- How often the effect is there after attempts that were stopped, and one that was not. -/
def Guard.total (g : Guard) (ss : List Stage) : Nat :=
  match g with
  | .nothing => ss.countP (· ≠ .before) + 1
  | .after => ss.count .between + 1
  | .together => 1
  | .inPlace => 1

/-- **And in the end.** -/
theorem History.total (h : History g ss c) : (c.stop g .past).count = g.total ss := by
  rw [(h.stop .past nofun).cell]
  cases g with
  | nothing => simp [Guard.count, Guard.total]
  | after => simp [Guard.count, Guard.total, finished]
  | together => simp [Guard.count, Guard.total, reached]
  | inPlace => simp [Guard.count, Guard.total, reached]

end Redo
