import AgentTx.Gateway.Alone
import AgentTx.Gateway.ContentCheck

/-!
# `Gateway.Taxonomy` — six classes, any number of turns, one database

A database outlives its turns: the owner runs and recovers them in any order, and each attempt may die anywhere.
The tools may do anything. `Tool.watch` notes each invocation and each return beside the outside world, and signs
what a database effect commits, so that the tables and the notes together are the history of every action.

`Story` says what the row of an action then tells of its history, class by class:

* **transactional** — the effect is committed with its row, or not at all;
* **overlay, idempotent, pure** — the effect is tried until it is recorded, and never again;
* **irreversible** — the intent comes first, and the effect is invoked at most once;
* **compensatable** — the effect follows its two intents, and the compensation follows the effect.

The argument. `Kept` is the invariant: every action has its row, if any, and its story. A step of a call is about one
action (`Elsewhere`), so it keeps the stories of all others (`Kept.step`), and the action at hand goes on with its
own: `found_of_row` for the row that the call finds, and one lemma for each stage after it (`prepare_moves`,
`begin_moves`, `intend_moves`, `effect_outside`, `insert_moves`, `finish_moves`, `compensate_outside`, `undo_moves`).
`callOk` collects them, `turnOk` carries them through the loop of a turn, and `verified` over all attempts. What is
`held` in the contract are rows that no step may touch: none for the first theorem, the intent of an irreversible
action for the second.

Main results, both for turns that `Registers` (an action id stands for one tool and its arguments, in whatever turn):

* `every_action_keeps_its_story` — in every state of every run; what an attempt answers is what the rows say, and none
  fails the content check.
* `settled_stays` — no step touches an action that is committed or compensated, nor, once its attempt is over, an
  irreversible one that has its intent alone.
-/

namespace AgentTx.Gateway

variable {R X κ : Type}

/-! ## What a tool is asked to do

The tables do not say what a tool did outside, and the outside world does not say in which order. So the tool is
watched: a note before its effect and one after it, and likewise for the compensation; and a database effect signs its
own rows, so that its commit can be seen in the tables. -/

/-- The action that a note is about. -/
def Event.key : Event → String
  | .effect key => key
  | .effected key _ => key
  | .compensate key => key
  | .compensated key => key

/-- The tool, watched: its invocations and returns are noted beside the outside world, and what its database
    effect commits is signed with a row of its own. -/
def Tool.watch (tool : Tool R X) : Tool (R ⊕ String) (X × List Event) where
  name := tool.name
  klass := tool.klass
  db_effect key args rows := do
    let (v, new) ← tool.db_effect key args (rows.filterMap Sum.getLeft?)
    pure (v, new.map .inl ++ [.inr key])
  effect := tool.spy.effect
  compensate := tool.spy.compensate

namespace Taxonomy

open ContentCheck (RecordsAfter)

/-- The notes about an action. -/
def notesOf (key : String) (notes : List Event) : List Event := notes.filter fun e => e.key = key

/-- How often its database effect was committed. -/
def signed (key : String) (d : Db (R ⊕ String)) : Nat := (d.app.filterMap Sum.getRight?).count key

/-- Status and result, in the row of an action. -/
def reading (d : Db R) (key : String) : Option (KeyStatus × Option String) :=
  (d.gw_keys key).map fun r => (r.status, r.result)

section Views

variable {key key' : String} {d : Db R} {notes l : List Event} {e : Event}

theorem notesOf_append : notesOf key (notes ++ l) = notesOf key notes ++ notesOf key l := by
  simp [notesOf]

theorem notesOf_self (h : ∀ e ∈ l, e.key = key) : notesOf key l = l := by
  unfold notesOf
  rw [List.filter_eq_self]
  intro e he
  simp [h e he]

theorem notesOf_of_ne (hne : key' ≠ key) (h : ∀ e ∈ l, e.key = key) : notesOf key' l = [] := by
  unfold notesOf
  rw [List.filter_eq_nil_iff]
  intro e he
  simp [h e he, Ne.symm hne]

theorem reading_record {afp : String} {status : KeyStatus} {klass : ToolClass} {result : Option String} :
    reading (d.record key afp status klass result) key = some (status, result) := by
  unfold reading
  cases h : d.gw_keys key with
  | none => rw [Db.record_of_none h, Option.map_some]
  | some row => rw [Db.record_of_some h, Option.map_some]

theorem reading_some {row : KeyRow} (h : d.gw_keys key = some row) :
    reading d key = some (row.status, row.result) := by
  rw [reading, h, Option.map_some]

theorem reading_none (h : d.gw_keys key = none) : reading d key = none := by
  rw [reading, h, Option.map_none]

/-- The watched tool signs what it inserts. -/
theorem signs {tool : Tool R X} {args v : Json} {d : Db (R ⊕ String)} {rows : List (R ⊕ String)}
    (h : tool.watch.db_effect key args d.app = .ok (v, rows)) : rows.filterMap Sum.getRight? = [key] := by
  unfold Tool.watch at h
  dsimp only at h
  cases hres : tool.db_effect key args (d.app.filterMap Sum.getLeft?) with
  | error e =>
    rw [hres] at h
    cases h
  | ok r =>
    rw [hres] at h
    cases h
    simp

end Views

/-! ## Stories

A story is about one action: the status of its row, the notes about it and its signatures. Each constructor is a point
at which an attempt at the action may have been stopped. -/

section Story

variable [Driver] (key : String)

/-- Attempts at an effect: invocations and returns. -/
def Tries (notes : List Event) : Prop := ∀ e ∈ notes, e = .effect key ∨ ∃ v, e = .effected key v

/-- Attempts at a compensation. -/
def Undoings (notes : List Event) : Prop := ∀ e ∈ notes, e = .compensate key ∨ e = .compensated key

/-- **What the row of an action says of its tool**: of the notes about it, and of how often its database effect
    was committed. -/
inductive Story : ToolClass → Option (KeyStatus × Option String) → List Event → Nat → Prop
  -- the effect and its row are one transaction
  | apart : Story .transactional none [] 0
  | together {stored : Option String} : Story .transactional (some (.committed, stored)) [] 1
  -- the effect may be repeated until it is recorded, and then it is over
  | tried {k : ToolClass} {notes : List Event} (hk : RecordsAfter k) (h : Tries key notes) : Story k none notes 0
  | recorded {k : ToolClass} {notes : List Event} {v : Json} {stored : Option String} (hk : RecordsAfter k)
      (h : Tries key notes) (hstored : Driver.text v = some stored) :
      Story k (some (.committed, stored)) (notes ++ [.effect key, .effected key v]) 0
  -- the intent comes before the effect
  | unintended {k : ToolClass} (hk : k = .irreversible ∨ k = .compensatable) : Story k none [] 0
  | uncertain {notes : List Event} {v : Json} (h : notes <+: [.effect key, .effected key v]) :
      Story .irreversible (some (.prepared, none)) notes 0
  | prepared : Story .compensatable (some (.prepared, none)) [] 0
  | started {notes undo : List Event} {v : Json} (h : notes <+: [.effect key, .effected key v])
      (hu : Undoings key undo) : Story .compensatable (some (.effect_started, none)) (notes ++ undo) 0
  | done {k : ToolClass} {v : Json} {stored : Option String} (hk : k = .irreversible ∨ k = .compensatable)
      (hstored : Driver.text v = some stored) :
      Story k (some (.committed, stored)) [.effect key, .effected key v] 0
  | undone {notes undo : List Event} {v : Json} (h : notes <+: [.effect key, .effected key v])
      (hu : Undoings key undo) :
      Story .compensatable (some (.compensated, none)) (notes ++ undo ++ [.compensate key, .compensated key]) 0

/-- What the row reads while the effect of an action runs. -/
def intent : ToolClass → Option (KeyStatus × Option String)
  | .irreversible => some (.prepared, none)
  | .compensatable => some (.effect_started, none)
  | _ => none

instance (k : ToolClass) : Decidable (RecordsAfter k) :=
  inferInstanceAs (Decidable (k = .overlay ∨ k = .idempotent ∨ k = .pure))

/-- The notes before the last invocation of the effect. -/
def Opening (k : ToolClass) (notes : List Event) : Prop := if RecordsAfter k then Tries key notes else notes = []

end Story

section Stories

variable {key : String} {v : Json} {stored : Option String} {k : ToolClass} {notes l : List Event} {n : Nat}

/-- A class that is not transactional has its row after the effect, or its intent before. -/
theorem class_cases (hk : k ≠ .transactional) : RecordsAfter k ∨ k = .irreversible ∨ k = .compensatable := by
  cases k with
  | transactional => exact absurd rfl hk
  | _ => simp [RecordsAfter]

theorem Tries.append (h : Tries key notes) (hl : l <+: [.effect key, .effected key v]) : Tries key (notes ++ l) := by
  intro e he
  rcases List.mem_append.mp he with he | he
  · exact h e he
  · have hmem := hl.subset he
    simp only [List.mem_cons, List.not_mem_nil, or_false] at hmem
    rcases hmem with rfl | rfl
    · exact Or.inl rfl
    · exact Or.inr ⟨v, rfl⟩

theorem intent_of_after (hk : RecordsAfter k) : intent k = none := by
  rcases hk with rfl | rfl | rfl <;> rfl

variable [Driver]

/-- **While the effect runs.** -/
theorem Story.during (hk : k ≠ .transactional) (h : Opening key k notes) (hl : l <+: [.effect key, .effected key v]) :
    Story key k (intent k) (notes ++ l) 0 := by
  unfold Opening at h
  rcases class_cases hk with hafter | rfl | rfl
  · rw [if_pos hafter] at h
    rw [intent_of_after hafter]
    exact .tried hafter (h.append hl)
  · rw [if_neg (by simp [RecordsAfter])] at h
    rw [h]
    exact .uncertain hl
  · rw [if_neg (by simp [RecordsAfter])] at h
    rw [h, List.nil_append, ← List.append_nil l]
    exact .started hl nofun

/-- **When it is recorded.** -/
theorem Story.finish (hk : k ≠ .transactional) (h : Opening key k notes) (hstored : Driver.text v = some stored) :
    Story key k (some (.committed, stored)) (notes ++ [.effect key, .effected key v]) 0 := by
  unfold Opening at h
  rcases class_cases hk with hafter | hbefore
  · rw [if_pos hafter] at h
    exact .recorded hafter h hstored
  · have hnot : ¬ RecordsAfter k := by
      rcases hbefore with rfl | rfl <;> simp [RecordsAfter]
    rw [if_neg hnot] at h
    rw [h]
    exact .done hbefore hstored

/-- Without a row, the effect is to come, again or for the first time. -/
theorem Story.opening (h : Story key k none notes n) (hk : k ≠ .transactional) : Opening key k notes ∧ n = 0 := by
  unfold Opening
  cases h with
  | apart => exact absurd rfl hk
  | tried hafter htries => exact ⟨by rwa [if_pos hafter], rfl⟩
  | unintended hbefore =>
    refine ⟨?_, rfl⟩
    rw [if_neg]
    rcases hbefore with rfl | rfl <;> simp [RecordsAfter]

theorem Story.of_prepared {r : Option String} (h : Story key k (some (.prepared, r)) notes n) :
    k = .irreversible ∨ k = .compensatable ∧ notes = [] ∧ n = 0 ∧ r = none := by
  cases h with
  | uncertain => exact Or.inl rfl
  | prepared => exact Or.inr ⟨rfl, rfl, rfl, rfl⟩

theorem Story.of_started {r : Option String} (h : Story key k (some (.effect_started, r)) notes n) :
    k = .compensatable ∧ n = 0 ∧ r = none ∧ ∃ pre undo v, notes = pre ++ undo ∧
      pre <+: [.effect key, .effected key v] ∧ Undoings key undo := by
  cases h with
  | started hpre hundo => exact ⟨rfl, rfl, rfl, _, _, _, rfl, hpre, hundo⟩

theorem Story.of_apart (h : Story key .transactional none notes n) : notes = [] ∧ n = 0 := by
  cases h with
  | apart => exact ⟨rfl, rfl⟩
  | tried hk => simp [RecordsAfter] at hk
  | unintended hk => simp at hk

end Stories

/-! ## The contract

The contract is about all actions at once, since one run is about many. What makes it manageable is that a step
touches one of them: `Elsewhere` for the others, and `Kept.step` to put the two parts together. -/

section Contract

variable [Driver] (task : String → Option (Tool R X × Json))

/-- What holds of the tables and the notes: every action has its row, if any, and its story. -/
structure Kept (d : Db (R ⊕ String)) (notes : List Event) : Prop where
  row : ∀ key tool args row, task key = some (tool, args) → d.gw_keys key = some row →
    row.args_fp = args_fingerprint args ∧ row.klass = tool.klass
  story : ∀ key tool args, task key = some (tool, args) →
    Story key tool.klass (reading d key) (notesOf key notes) (signed key d)

/-- What a step may do: it does not touch an action that is settled. -/
def May (d : Db (R ⊕ String)) (notes : List Event) (d' : Db (R ⊕ String)) (notes' : List Event) : Prop :=
  ∀ key row, d.gw_keys key = some row → row.status = .committed ∨ row.status = .compensated →
    d'.gw_keys key = some row ∧ notesOf key notes' = notesOf key notes ∧ signed key d' = signed key d

variable (held : Table String KeyRow) (notes₀ : List Event)

/-- The actions whose rows are `held` stay as they are. -/
def Stuck (d : Db (R ⊕ String)) (notes : List Event) : Prop :=
  ∀ key row, held key = some row → d.gw_keys key = some row ∧ notesOf key notes = notesOf key notes₀

/-- They are irreversible actions whose attempt is over. -/
def Uncertain : Prop := ∀ key row, held key = some row → row.status = .prepared ∧
  ∃ tool args, task key = some (tool, args) ∧ tool.klass = .irreversible

def contract : Contract (R ⊕ String) (X × List Event) where
  inv d s := Kept task d s.2 ∧ Stuck held notes₀ d s.2
  may d s d' s' := May d s.2 d' s'.2
  may_refl _ _ := fun _ _ hrow _ => ⟨hrow, rfl, rfl⟩

end Contract

/-- What an answer says, and the row bears out: the row holds what its column makes of the value returned, and a
    replay returns what the row holds. -/
def Answered [Driver] (d : Db (R ⊕ String)) (res : Result) : Prop :=
  ∃ row, d.gw_keys res.key = some row ∧ row.klass = res.klass ∧ match res.status with
    | .committed => row.status = .committed ∧ Driver.text res.value = some row.result
    | .dedup_hit => row.status = .committed ∧ res.value = Driver.read row.result
    | .compensated => row.status = .compensated
    | .uncertain => row.status = .prepared ∧ row.klass = .irreversible

/-- The calls before have been answered. -/
def AllAnswered [Driver] (rs : List Result) (d : Db (R ⊕ String)) : Prop := ∀ res ∈ rs, Answered d res

/-- They were calls of other actions. -/
def Others (rs : List Result) (key : String) : Prop := ∀ res ∈ rs, res.key ≠ key

section Steps

variable {task : String → Option (Tool R X × Json)} {held : Table String KeyRow} {notes₀ notes notes' : List Event}
  {d d' : Db (R ⊕ String)} {key afp : String} {tool : Tool R X} {args : Json} {rs : List Result}

/-- The tables and the notes differ in this action only. -/
structure Elsewhere (key : String) (d : Db (R ⊕ String)) (notes : List Event) (d' : Db (R ⊕ String))
    (notes' : List Event) : Prop where
  rows : ∀ k, k ≠ key → d'.gw_keys k = d.gw_keys k
  notes : ∀ k, k ≠ key → notesOf k notes' = notesOf k notes
  signed : ∀ k, k ≠ key → signed k d' = signed k d

theorem elsewhere_record (key afp : String) (status : KeyStatus) (klass : ToolClass) (result : Option String)
    (d : Db (R ⊕ String)) (notes : List Event) :
    Elsewhere key d notes (d.record key afp status klass result) notes where
  rows _ hk := record_gw_keys_of_ne hk
  notes _ _ := rfl
  signed _ _ := rfl

theorem elsewhere_notes (d : Db (R ⊕ String)) (notes : List Event) {l : List Event} (hl : ∀ e ∈ l, e.key = key) :
    Elsewhere key d notes d (notes ++ l) where
  rows _ _ := rfl
  notes k hk := by rw [notesOf_append, notesOf_of_ne hk hl, List.append_nil]
  signed _ _ := rfl

theorem signed_insert {rows : List (R ⊕ String)} (hrows : rows.filterMap Sum.getRight? = [key]) (k : String)
    (d : Db (R ⊕ String)) : signed k { d with app := d.app ++ rows } = signed k d + if key = k then 1 else 0 := by
  simp [signed, List.filterMap_append, hrows, List.count_singleton]

theorem elsewhere_insert {rows : List (R ⊕ String)} (hrows : rows.filterMap Sum.getRight? = [key])
    (afp : String) (stored : Option String) (d : Db (R ⊕ String)) (notes : List Event) : Elsewhere key d notes
      (Db.record { d with app := d.app ++ rows } key afp .committed .transactional stored) notes where
  rows _ hk := record_gw_keys_of_ne hk
  notes _ _ := rfl
  signed k hk := by
    show signed k { d with app := d.app ++ rows } = _
    rw [signed_insert hrows, if_neg (Ne.symm hk), Nat.add_zero]

/-- A step in an action that is not settled. -/
theorem Elsewhere.may (h : Elsewhere key d notes d' notes')
    (hopen : ∀ row, d.gw_keys key = some row → row.status ≠ .committed ∧ row.status ≠ .compensated) :
    May d notes d' notes' := by
  intro k row hrow hfinal
  by_cases hk : k = key
  · rw [hk] at hrow
    obtain ⟨hne, hne'⟩ := hopen row hrow
    exact (hfinal.elim hne hne').elim
  · exact ⟨(h.rows k hk).trans hrow, h.notes k hk, h.signed k hk⟩

/-- A step keeps what is held, when the action at hand is not. -/
theorem Stuck.step (hstuck : Stuck held notes₀ d notes) (h : Elsewhere key d notes d' notes')
    (hkey : held key = none) : Stuck held notes₀ d' notes' := by
  intro k row hk
  have hne : k ≠ key := by
    rintro rfl
    rw [hkey] at hk
    cases hk
  obtain ⟨hr, hn⟩ := hstuck k row hk
  exact ⟨(h.rows k hne).trans hr, (h.notes k hne).trans hn⟩

/-- The row that is there when it is recorded is the call's. -/
theorem row_record
    (hold : ∀ row, d.gw_keys key = some row → row.args_fp = args_fingerprint args ∧ row.klass = tool.klass)
    (hafp : args_fingerprint args = some afp) (status : KeyStatus) (result : Option String) :
    ∀ row, (d.record key afp status tool.klass result).gw_keys key = some row →
      row.args_fp = args_fingerprint args ∧ row.klass = tool.klass := by
  intro row hrow
  cases hr : d.gw_keys key with
  | none =>
    rw [Db.record_of_none hr] at hrow
    cases hrow
    exact ⟨hafp.symm, rfl⟩
  | some old =>
    rw [Db.record_of_some hr] at hrow
    cases hrow
    exact hold old hr

/-- The row recorded. -/
theorem recorded_row
    (hold : ∀ row, d.gw_keys key = some row → row.args_fp = args_fingerprint args ∧ row.klass = tool.klass)
    (hafp : args_fingerprint args = some afp) (status : KeyStatus) (result : Option String) :
    ∃ row, (d.record key afp status tool.klass result).gw_keys key = some row ∧ row.klass = tool.klass ∧
      row.status = status ∧ row.result = result := by
  have hreading : reading (d.record key afp status tool.klass result) key = some (status, result) := reading_record
  obtain ⟨row, hrow, hread⟩ := Option.map_eq_some_iff.mp hreading
  cases hread
  exact ⟨row, hrow, (row_record hold hafp _ _ row hrow).2, rfl, rfl⟩

variable [Driver]

/-- **A step keeps the stories** of the other actions; it is for the action at hand to go on with its own. -/
theorem Kept.step (hkept : Kept task d notes) (h : Elsewhere key d notes d' notes')
    (htask : task key = some (tool, args))
    (hrow : ∀ row, d'.gw_keys key = some row → row.args_fp = args_fingerprint args ∧ row.klass = tool.klass)
    (hstory : Story key tool.klass (reading d' key) (notesOf key notes') (signed key d')) : Kept task d' notes' := by
  refine ⟨fun k tool' args' row hk hr => ?_, fun k tool' args' hk => ?_⟩
  · by_cases heq : k = key
    · subst heq
      cases htask.symm.trans hk
      exact hrow row hr
    · exact hkept.row k tool' args' row hk ((h.rows k heq).symm.trans hr)
  · by_cases heq : k = key
    · subst heq
      cases htask.symm.trans hk
      exact hstory
    · rw [reading, h.rows k heq, h.notes k heq, h.signed k heq]
      exact hkept.story k tool' args' hk

/-- It keeps the answers of the others true. -/
theorem AllAnswered.step (hans : AllAnswered rs d) (h : Elsewhere key d notes d' notes') (hothers : Others rs key) :
    AllAnswered rs d' := by
  intro res hres
  obtain ⟨row, hrow, hrest⟩ := hans res hres
  exact ⟨row, (h.rows res.key (hothers res hres)).trans hrow, hrest⟩

/-- The action at hand is neither held nor answered for, and its row, if any, is not settled. -/
structure Free (held : Table String KeyRow) (rs : List Result) (key : String) (d : Db (R ⊕ String)) : Prop where
  held : held key = none
  others : Others rs key
  answered : AllAnswered rs d
  unsettled : ∀ row, d.gw_keys key = some row → row.status ≠ .committed ∧ row.status ≠ .compensated

/-- A call that finds no row goes on, and so does one that finds an intent it can resolve. -/
theorem free_of (hheld : Uncertain task held) (hstuck : Stuck held notes₀ d notes) (hans : AllAnswered rs d)
    (hkept : Kept task d notes) (htask : task key = some (tool, args))
    (hrow : ∀ row, d.gw_keys key = some row →
      row.status = .effect_started ∨ row.status = .prepared ∧ tool.klass ≠ .irreversible) :
    Free held rs key d := by
  have hopen : ∀ row, d.gw_keys key = some row → row.status ≠ .committed ∧ row.status ≠ .compensated := by
    intro row hr
    rcases hrow row hr with hst | ⟨hst, -⟩ <;> simp [hst]
  refine ⟨?_, fun res hres heq => ?_, hans, hopen⟩
  · cases hk : held key with
    | none => rfl
    | some row =>
      obtain ⟨hst, tool', args', htask', hirr⟩ := hheld key row hk
      cases htask.symm.trans htask'
      rcases hrow row (hstuck key row hk).1 with hst' | ⟨-, hne⟩
      · rw [hst] at hst'
        cases hst'
      · exact absurd hirr hne
  · obtain ⟨row, hr, -, hanswer⟩ := hans res hres
    rw [heq] at hr
    obtain ⟨hne, hne'⟩ := hopen row hr
    cases hst : res.status with
    | committed =>
      rw [hst] at hanswer
      exact hne hanswer.1
    | dedup_hit =>
      rw [hst] at hanswer
      exact hne hanswer.1
    | compensated =>
      rw [hst] at hanswer
      exact hne' hanswer
    | uncertain =>
      rw [hst] at hanswer
      rcases hrow row hr with hst' | ⟨-, hnot⟩
      · rw [hanswer.1] at hst'
        cases hst'
      · exact hnot ((hkept.row key tool args row htask hr).2.symm.trans hanswer.2)

theorem Free.step (hfree : Free held rs key d) (h : Elsewhere key d notes d' notes')
    (hopen : ∀ row, d'.gw_keys key = some row → row.status ≠ .committed ∧ row.status ≠ .compensated) :
    Free held rs key d' :=
  ⟨hfree.held, hfree.others, hfree.answered.step h hfree.others, hopen⟩

/-- A record of the action at hand. -/
theorem record_step {status : KeyStatus} {result : Option String} (hkept : Kept task d notes)
    (hstuck : Stuck held notes₀ d notes) (hfree : Free held rs key d) (htask : task key = some (tool, args))
    (hafp : args_fingerprint args = some afp)
    (hstory : Story key tool.klass (some (status, result)) (notesOf key notes) (signed key d)) :
    (Kept task (d.record key afp status tool.klass result) notes ∧
        Stuck held notes₀ (d.record key afp status tool.klass result) notes) ∧
      May d notes (d.record key afp status tool.klass result) notes ∧
      (status ≠ .committed → status ≠ .compensated →
        Free held rs key (d.record key afp status tool.klass result)) ∧
      AllAnswered rs (d.record key afp status tool.klass result) := by
  have helse := elsewhere_record key afp status tool.klass result d notes
  refine ⟨⟨hkept.step helse htask
      (row_record (hkept.row key tool args · htask) hafp status result) ?_, hstuck.step helse hfree.held⟩,
    helse.may hfree.unsettled, fun hne hne' => hfree.step helse ?_, hfree.answered.step helse hfree.others⟩
  · rw [reading_record]
    exact hstory
  · intro row hrow
    have hreading := (reading_some hrow).symm.trans reading_record
    simp only [Option.some.injEq, Prod.mk.injEq] at hreading
    exact ⟨by rw [hreading.1]; exact hne, by rw [hreading.1]; exact hne'⟩

/-- A note about the action at hand. -/
theorem note_step {l : List Event} (hkept : Kept task d notes) (hstuck : Stuck held notes₀ d notes)
    (hfree : Free held rs key d) (htask : task key = some (tool, args)) (hl : ∀ e ∈ l, e.key = key)
    (hstory : Story key tool.klass (reading d key) (notesOf key notes ++ l) (signed key d)) :
    May d notes d (notes ++ l) ∧ Kept task d (notes ++ l) ∧ Stuck held notes₀ d (notes ++ l) := by
  have helse := elsewhere_notes d notes hl
  refine ⟨helse.may hfree.unsettled, hkept.step helse htask (fun row => hkept.row key tool args row htask) ?_,
    hstuck.step helse hfree.held⟩
  rw [notesOf_append, notesOf_self hl]
  exact hstory

end Steps

/-! ## A call

One lemma for each stage that a call can be at. The classes share most of them: a row is found in one way, recorded at
the end in one way, and a class differs in which intents it records before its effect. -/

section Call

variable [Driver] (task : String → Option (Tool R X × Json)) (held : Table String KeyRow) (notes₀ : List Event)
  (key : String) (tool : Tool R X) (rs : List Result)

/-- What is known at each stage of a call, when the calls before it have answered `rs`. -/
def phases : Contract.Phases (R ⊕ String) (X × List Event) where
  before d _ := AllAnswered rs d
  ready d _ := Free held rs key d ∧
    (reading d key = none ∨ tool.klass = .compensatable ∧ reading d key = some (.prepared, none))
  prepared d s := Free held rs key d ∧ notesOf key s.2 = [] ∧ signed key d = 0
  starting d s := Free held rs key d ∧ reading d key = intent tool.klass ∧ signed key d = 0 ∧
    Opening key tool.klass (notesOf key s.2)
  effected v d s := Free held rs key d ∧ signed key d = 0 ∧
    ∃ pre, Opening key tool.klass pre ∧ notesOf key s.2 = pre ++ [.effect key, .effected key v]
  undoing d _ := Free held rs key d ∧ reading d key = some (.effect_started, none)
  undone d s := Free held rs key d ∧ signed key d = 0 ∧ ∃ pre undo v,
    pre <+: [.effect key, .effected key v] ∧ Undoings key undo ∧
      notesOf key s.2 = pre ++ undo ++ [.compensate key, .compensated key]
  after res d _ := res.key = key ∧ AllAnswered (rs ++ [res]) d

variable {task held notes₀ key tool rs} {afp : String} {args : Json}

theorem AllAnswered.add {d : Db (R ⊕ String)} {res : Result} (h : AllAnswered rs d) (hres : Answered d res) :
    AllAnswered (rs ++ [res]) d := by
  intro r hr
  rcases List.mem_append.mp hr with hr | hr
  · exact h r hr
  · rw [List.mem_singleton.mp hr]
    exact hres

/-- The effect of the tool, watched. -/
theorem effect_spec (hk : tool.klass ≠ .transactional) (htask : task key = some (tool, args)) {d : Db (R ⊕ String)}
    (hfree : Free held rs key d) (hreading : reading d key = intent tool.klass) (hsigned : signed key d = 0) :
    ((contract task held notes₀).toolRules d).Triple ()
      (fun s => (Kept task d s.2 ∧ Stuck held notes₀ d s.2 ∧ Opening key tool.klass (notesOf key s.2)) ∧ True ∧ True)
      (tool.watch.effect key args)
      (fun v s => (∃ l, (Kept task d l ∧ Stuck held notes₀ d l ∧ Opening key tool.klass (notesOf key l)) ∧
        s.2 = l ++ [.effect key] ++ [.effected key v]) ∧ True ∧ True) fun _ _ => True := by
  -- a note on this effect keeps the story of its action, and is no matter to the others
  have hnote : ∀ {l : List Event} (m : List Event) (v : Json), Kept task d l → Stuck held notes₀ d l →
      Opening key tool.klass (notesOf key l) → m <+: [.effect key, .effected key v] →
      May d l d (l ++ m) ∧ Kept task d (l ++ m) ∧ Stuck held notes₀ d (l ++ m) := by
    intro l m v hkept hstuck hopening hm
    refine note_step hkept hstuck hfree htask (fun e he => ?_) ?_
    · have hmem := hm.subset he
      simp only [List.mem_cons, List.not_mem_nil, or_false] at hmem
      rcases hmem with rfl | rfl <;> rfl
    · rw [hreading, hsigned]
      exact Story.during hk hopening hm
  refine Contract.spied (A := fun l => Kept task d l ∧ Stuck held notes₀ d l ∧ Opening key tool.klass (notesOf key l))
    (Serial.triple_any _) ?_ ?_ ?_
  · rintro x l ⟨hkept, hstuck, hopening⟩ - -
    exact hnote [.effect key] .null hkept hstuck hopening ⟨[.effected key .null], rfl⟩
  · rintro x x' l ⟨hkept, hstuck, hopening⟩ - -
    refine ⟨fun _ _ hrow _ => ⟨hrow, rfl, rfl⟩, ?_⟩
    exact (hnote [.effect key] .null hkept hstuck hopening ⟨[.effected key .null], rfl⟩).2
  · rintro v x l ⟨hkept, hstuck, hopening⟩ - -
    obtain ⟨-, hkept', hstuck'⟩ := hnote [.effect key, .effected key v] v hkept hstuck hopening (List.prefix_refl _)
    rw [List.append_assoc]
    refine ⟨?_, hkept', hstuck'⟩
    rw [← List.append_assoc]
    exact (elsewhere_notes d _ (l := [.effected key v]) (by simp [Event.key])).may hfree.unsettled

/-- What an unresolved effect leaves in the notes: an effect begun, and attempts to take it back. -/
def Underway (key : String) (notes : List Event) : Prop := ∃ pre undo v,
  notes = pre ++ undo ∧ pre <+: [.effect key, .effected key v] ∧ Undoings key undo

omit [Driver] in
theorem Underway.append {notes l : List Event} (h : Underway key notes) (hl : Undoings key l) :
    Underway key (notes ++ l) := by
  obtain ⟨pre, undo, v, rfl, hpre, hundo⟩ := h
  refine ⟨pre, undo ++ l, v, by rw [List.append_assoc], hpre, fun e he => ?_⟩
  rcases List.mem_append.mp he with he | he
  · exact hundo e he
  · exact hl e he

theorem Underway.story {notes : List Event} (h : Underway key notes) :
    Story key .compensatable (some (.effect_started, none)) notes 0 := by
  obtain ⟨pre, undo, v, rfl, hpre, hundo⟩ := h
  exact .started hpre hundo

/-- Its compensation, watched. -/
theorem compensate_spec (hk : tool.klass = .compensatable) (htask : task key = some (tool, args))
    {d : Db (R ⊕ String)} (hfree : Free held rs key d) (hreading : reading d key = some (.effect_started, none))
    (hsigned : signed key d = 0) :
    ((contract task held notes₀).toolRules d).Triple ()
      (fun s => (Kept task d s.2 ∧ Stuck held notes₀ d s.2 ∧ Underway key (notesOf key s.2)) ∧ True ∧ True)
      (tool.watch.compensate key args)
      (fun _ s => (∃ l, (Kept task d l ∧ Stuck held notes₀ d l ∧ Underway key (notesOf key l)) ∧
        s.2 = l ++ [.compensate key] ++ [.compensated key]) ∧ True ∧ True) fun _ _ => True := by
  -- as for an effect
  have hnote : ∀ {l : List Event} (m : List Event), Kept task d l → Stuck held notes₀ d l →
      Underway key (notesOf key l) → Undoings key m →
      May d l d (l ++ m) ∧ Kept task d (l ++ m) ∧ Stuck held notes₀ d (l ++ m) := by
    intro l m hkept hstuck hunderway hm
    refine note_step hkept hstuck hfree htask (fun e he => ?_) ?_
    · rcases hm e he with rfl | rfl <;> rfl
    · rw [hreading, hsigned, hk]
      exact (hunderway.append hm).story
  have hbegun : Undoings key [.compensate key] := by simp [Undoings]
  refine Contract.spied (A := fun l => Kept task d l ∧ Stuck held notes₀ d l ∧ Underway key (notesOf key l))
    (Serial.triple_any _) ?_ ?_ ?_
  · rintro x l ⟨hkept, hstuck, hunderway⟩ - -
    exact hnote [.compensate key] hkept hstuck hunderway hbegun
  · rintro x x' l ⟨hkept, hstuck, hunderway⟩ - -
    exact ⟨fun _ _ hrow _ => ⟨hrow, rfl, rfl⟩, (hnote [.compensate key] hkept hstuck hunderway hbegun).2⟩
  · rintro _ x l ⟨hkept, hstuck, hunderway⟩ - -
    obtain ⟨-, hkept', hstuck'⟩ := hnote [.compensate key, .compensated key] hkept hstuck hunderway (by
      intro e he
      simpa using he)
    rw [List.append_assoc]
    refine ⟨?_, hkept', hstuck'⟩
    rw [← List.append_assoc]
    exact (elsewhere_notes d _ (l := [.compensated key]) (by simp [Event.key])).may hfree.unsettled

section Stages

variable {d : Db (R ⊕ String)} {s : X × List Event} {row : KeyRow}

/-- The row that is there answers for the call. -/
theorem matching (hkept : Kept task d s.2) (htask : task key = some (tool, args))
    (hafp : args_fingerprint args = some afp) (hrow : d.gw_keys key = some row) :
    row.args_fp = some afp ∧ row.klass = tool.klass := by
  obtain ⟨hfp, hklass⟩ := hkept.row key tool args row htask hrow
  exact ⟨hfp.trans hafp, hklass⟩

/-- An intent that no effect followed for certain, of an action that can be taken back. -/
theorem undoing_of (hheld : Uncertain task held) (htask : task key = some (tool, args)) (hkept : Kept task d s.2)
    (hstuck : Stuck held notes₀ d s.2) (hans : AllAnswered rs d) (hrow : d.gw_keys key = some row)
    (hst : row.status = .effect_started) : (phases held key tool rs (X := X)).undoing d s := by
  have hstory := hkept.story key tool args htask
  rw [reading_some hrow, hst] at hstory
  refine ⟨free_of hheld hstuck hans hkept htask fun row' hrow' => ?_, ?_⟩
  · cases hrow.symm.trans hrow'
    exact Or.inl hst
  · rw [reading_some hrow, hst, hstory.of_started.2.2.1]

/-- An intent that no effect followed. -/
theorem ready_of (hheld : Uncertain task held) (htask : task key = some (tool, args)) (hkept : Kept task d s.2)
    (hstuck : Stuck held notes₀ d s.2) (hans : AllAnswered rs d) (hrow : d.gw_keys key = some row)
    (hst : row.status = .prepared) (hcomp : tool.klass = .compensatable) (hres : row.result = none) :
    (phases held key tool rs (X := X)).ready d s := by
  refine ⟨free_of hheld hstuck hans hkept htask fun row' hrow' => ?_, Or.inr ⟨hcomp, ?_⟩⟩
  · cases hrow.symm.trans hrow'
    exact Or.inr ⟨hst, by simp [hcomp]⟩
  · rw [reading_some hrow, hst, hres]

/-- **The row that a call finds** is borne out by the story of its action: it is answered with, taken back, or there
    for the mechanism to go on from. -/
theorem found_of_row (hheld : Uncertain task held) (htask : task key = some (tool, args))
    (hafp : args_fingerprint args = some afp) (hkept : Kept task d s.2) (hstuck : Stuck held notes₀ d s.2)
    (hans : AllAnswered rs d) (hrow : d.gw_keys key = some row) :
    (phases held key tool rs (X := X)).found key tool.klass row d s := by
  have hklass := (matching hkept htask hafp hrow).2
  have hstory := hkept.story key tool args htask
  rw [reading_some hrow] at hstory
  unfold Contract.Phases.found
  cases hst : row.status with
  | committed => exact ⟨rfl, AllAnswered.add hans ⟨row, hrow, hklass, hst, rfl⟩⟩
  | compensated => exact ⟨rfl, AllAnswered.add hans ⟨row, hrow, hklass, hst⟩⟩
  | effect_started =>
    rw [hst] at hstory
    rw [hstory.of_started.1]
    exact undoing_of hheld htask hkept hstuck hans hrow hst
  | prepared =>
    rw [hst] at hstory
    rcases hstory.of_prepared with hirr | ⟨hcomp, -, -, hres⟩
    · rw [hirr]
      have hanswered : Answered d ⟨.uncertain, .null, key, .irreversible⟩ :=
        ⟨row, hrow, hklass.trans hirr, hst, hklass.trans hirr⟩
      exact ⟨rfl, AllAnswered.add hans hanswered⟩
    · rw [hcomp]
      exact ready_of hheld htask hkept hstuck hans hrow hst hcomp hres

/-- A call of a class that has no intents goes on without a row. -/
theorem unrecorded_of (hready : (phases held key tool rs (X := X)).ready d s) (hcomp : tool.klass ≠ .compensatable) :
    reading d key = none := by
  rcases hready.2 with hnone | ⟨hcomp', -⟩
  · exact hnone
  · exact absurd hcomp' hcomp

end Stages

/-- The compensation. -/
theorem compensate_outside {E : Exn → World (R ⊕ String) (X × List Event) → Prop} (hE : ∀ m w, E (.raised m) w)
    (hcomp : tool.klass = .compensatable) (htask : task key = some (tool, args)) :
    (contract task held notes₀ (X := X)).rules.Triple () (Contract.Settled (phases held key tool rs).undoing)
      (outside key (tool.watch.compensate key args)) (fun _ => Contract.Settled (phases held key tool rs).undone)
      E := by
  refine Contract.outside_alone (fun d => ?_) hE
  rintro ⟨x, notes⟩ ⟨hkept, hstuck⟩ ⟨hfree, hreading⟩
  have hstory := hkept.story key tool args htask
  rw [hreading] at hstory
  obtain ⟨-, hsigned, -, hunderway⟩ := hstory.of_started
  refine ((compensate_spec hcomp htask hfree hreading hsigned).conseq (fun _ _ h => h) ?_ fun _ _ _ h => h)
    (x, notes) ⟨hkept, hstuck⟩ ⟨⟨hkept, hstuck, hunderway⟩, trivial, trivial⟩
  rintro _ ⟨x, _⟩ - ⟨⟨l, ⟨-, -, pre, undo, v, hl, hpre, hundo⟩, rfl⟩, -⟩
  refine ⟨hfree, hsigned, pre, undo, v, hpre, hundo, ?_⟩
  rw [List.append_assoc, notesOf_append, hl]
  congr 1
  exact notesOf_self (by simp [Event.key])

/-- Its record. -/
theorem undo_moves (hcomp : tool.klass = .compensatable) (htask : task key = some (tool, args))
    (hafp : args_fingerprint args = some afp) :
    (contract task held notes₀ (X := X)).Moves (·.record key afp .compensated .compensatable none)
      (phases held key tool rs).undone
      ((phases held key tool rs).after ⟨.compensated, .null, key, .compensatable⟩) := by
  rintro d ⟨x, notes⟩ ⟨hkept, hstuck⟩ ⟨hfree, hsigned, pre, undo, v, hpre, hundo, hnotes⟩
  have hstory : Story key tool.klass (some (.compensated, none)) (notesOf key notes) (signed key d) := by
    rw [hnotes, hsigned, hcomp]
    exact .undone hpre hundo
  obtain ⟨hinv, hmay, -, hans⟩ := record_step hkept hstuck hfree htask hafp hstory
  obtain ⟨row, hrow, hklass, hst, -⟩ := recorded_row (hkept.row key tool args · htask) hafp .compensated none
  rw [← hcomp]
  exact ⟨hinv, hmay, rfl, AllAnswered.add hans ⟨row, hrow, hklass, hst⟩⟩

/-- What a transactional tool inserts is committed with its record. -/
theorem insert_moves (htx : tool.klass = .transactional) (htask : task key = some (tool, args))
    (hafp : args_fingerprint args = some afp) {d : Db (R ⊕ String)} {s : X × List Event} {v : Json}
    {stored : Option String} {rows : List (R ⊕ String)} (hinv : (contract task held notes₀).inv d s)
    (hready : (phases held key tool rs).ready d s) (hres : tool.watch.db_effect key args d.app = .ok (v, rows))
    (hstored : Driver.text v = some stored) :
    let d' := Db.record { d with app := d.app ++ rows } key afp .committed .transactional stored
    (contract task held notes₀).inv d' s ∧ (contract task held notes₀).may d s d' s ∧
      (phases held key tool rs).after ⟨.committed, v, key, .transactional⟩ d' s := by
  obtain ⟨hkept, hstuck⟩ := hinv
  have hfree := hready.1
  have hstory := hkept.story key tool args htask
  rw [unrecorded_of hready (by simp [htx]), htx] at hstory
  obtain ⟨hnotes, hsigned⟩ := hstory.of_apart
  have hrows := signs hres
  have hold : ∀ row, ({ d with app := d.app ++ rows } : Db (R ⊕ String)).gw_keys key = some row →
      row.args_fp = args_fingerprint args ∧ row.klass = tool.klass := fun row => hkept.row key tool args row htask
  -- the rows of the effect carry the key they are for, so the other actions do not see them
  have helse := elsewhere_insert hrows afp stored d s.2
  obtain ⟨row, hrow, hklass, hst, hresult⟩ := recorded_row hold hafp .committed stored
  rw [htx] at hrow
  have hans : Answered (Db.record { d with app := d.app ++ rows } key afp .committed .transactional stored)
      ⟨.committed, v, key, .transactional⟩ := ⟨row, hrow, hklass.trans htx, hst, hresult ▸ hstored⟩
  refine ⟨⟨hkept.step helse htask ?_ ?_, hstuck.step helse hfree.held⟩, helse.may hfree.unsettled, rfl,
    AllAnswered.add (hfree.answered.step helse hfree.others) hans⟩
  · rw [← htx]
    exact row_record hold hafp _ _
  · have hsigned' : signed key (Db.record { d with app := d.app ++ rows } key afp .committed .transactional
        stored) = 1 := by
      show signed key { d with app := d.app ++ rows } = 1
      rw [signed_insert hrows, hsigned, if_pos rfl]
    rw [reading_record, hnotes, hsigned', htx]
    -- row and effect in one transaction
    exact .together

/-- The intent of a compensatable action: the row may be there from an attempt before. -/
theorem prepare_moves (hcomp : tool.klass = .compensatable) (htask : task key = some (tool, args))
    (hafp : args_fingerprint args = some afp) :
    (contract task held notes₀ (X := X)).Moves (·.record key afp .prepared .compensatable none)
      (phases held key tool rs).ready (phases held key tool rs).prepared := by
  rintro d ⟨x, notes⟩ ⟨hkept, hstuck⟩ ⟨hfree, hready⟩
  obtain ⟨hnotes, hsigned⟩ : notesOf key notes = [] ∧ signed key d = 0 := by
    have hstory := hkept.story key tool args htask
    rw [hcomp] at hstory
    rcases hready with hnone | ⟨-, hprepared⟩
    · rw [hnone] at hstory
      obtain ⟨hopening, hsigned⟩ := hstory.opening nofun
      exact ⟨by simpa [Opening, RecordsAfter] using hopening, hsigned⟩
    · rw [hprepared] at hstory
      rcases hstory.of_prepared with hirr | ⟨-, hnotes, hsigned, -⟩
      · cases hirr
      · exact ⟨hnotes, hsigned⟩
  have hstory : Story key tool.klass (some (.prepared, none)) (notesOf key notes) (signed key d) := by
    rw [hnotes, hsigned, hcomp]
    exact .prepared
  obtain ⟨hinv, hmay, hfree', -⟩ := record_step hkept hstuck hfree htask hafp hstory
  rw [← hcomp]
  exact ⟨hinv, hmay, hfree' nofun nofun, hnotes, hsigned⟩

/-- The start of its effect. -/
theorem begin_moves (hcomp : tool.klass = .compensatable) (htask : task key = some (tool, args))
    (hafp : args_fingerprint args = some afp) :
    (contract task held notes₀ (X := X)).Moves (·.record key afp .effect_started .compensatable none)
      (phases held key tool rs).prepared (phases held key tool rs).starting := by
  rintro d ⟨x, notes⟩ ⟨hkept, hstuck⟩ ⟨hfree, hnotes, hsigned⟩
  have hopening : Opening key tool.klass (notesOf key notes) := by
    rw [hnotes, hcomp]
    simp [Opening, RecordsAfter]
  have hstory : Story key tool.klass (some (.effect_started, none)) (notesOf key notes) (signed key d) := by
    rw [hnotes, hsigned, hcomp]
    exact .started (v := .null) List.nil_prefix nofun
  obtain ⟨hinv, hmay, hfree', -⟩ := record_step hkept hstuck hfree htask hafp hstory
  rw [← hcomp]
  refine ⟨hinv, hmay, hfree' nofun nofun, ?_, hsigned, hopening⟩
  rw [reading_record, hcomp, intent]

/-- The intent of an irreversible action. -/
theorem intend_moves (hirr : tool.klass = .irreversible) (htask : task key = some (tool, args))
    (hafp : args_fingerprint args = some afp) :
    (contract task held notes₀ (X := X)).Moves (·.record key afp .prepared .irreversible none)
      (phases held key tool rs).ready (phases held key tool rs).starting := by
  rintro d ⟨x, notes⟩ ⟨hkept, hstuck⟩ hready
  have hfree := hready.1
  have hstory := hkept.story key tool args htask
  rw [unrecorded_of hready (by simp [hirr])] at hstory
  obtain ⟨hopening, hsigned⟩ := hstory.opening (by simp [hirr])
  have hstory' : Story key tool.klass (some (.prepared, none)) (notesOf key notes) (signed key d) := by
    have hnotes : notesOf key notes = [] := by simpa [Opening, RecordsAfter, hirr] using hopening
    rw [hnotes, hsigned, hirr]
    exact .uncertain (v := .null) List.nil_prefix
  obtain ⟨hinv, hmay, hfree', -⟩ := record_step hkept hstuck hfree htask hafp hstory'
  rw [← hirr]
  refine ⟨hinv, hmay, hfree' nofun nofun, ?_, hsigned, hopening⟩
  rw [reading_record, hirr, intent]

/-- The effect. -/
theorem effect_outside {E : Exn → World (R ⊕ String) (X × List Event) → Prop} (hE : ∀ m w, E (.raised m) w)
    (htx : tool.klass ≠ .transactional) (htask : task key = some (tool, args)) :
    (contract task held notes₀ (X := X)).rules.Triple () (Contract.Settled (phases held key tool rs).starting)
      (outside key (tool.watch.effect key args)) (fun v => Contract.Settled ((phases held key tool rs).effected v))
      E := by
  refine Contract.outside_alone (fun d => ?_) hE
  rintro ⟨x, notes⟩ ⟨hkept, hstuck⟩ ⟨hfree, hreading, hsigned, hopening⟩
  refine ((effect_spec htx htask hfree hreading hsigned).conseq (fun _ _ h => h) ?_ fun _ _ _ h => h)
    (x, notes) ⟨hkept, hstuck⟩ ⟨⟨hkept, hstuck, hopening⟩, trivial, trivial⟩
  rintro v ⟨x, _⟩ - ⟨⟨l, ⟨-, -, hopening⟩, rfl⟩, -⟩
  refine ⟨hfree, hsigned, notesOf key l, hopening, ?_⟩
  rw [List.append_assoc, notesOf_append]
  congr 1
  exact notesOf_self (by simp [Event.key])

/-- Its record. -/
theorem finish_moves (htx : tool.klass ≠ .transactional) (htask : task key = some (tool, args))
    (hafp : args_fingerprint args = some afp) {v : Json} {stored : Option String}
    (hstored : Driver.text v = some stored) :
    (contract task held notes₀ (X := X)).Moves (·.record key afp .committed tool.klass stored)
      ((phases held key tool rs).effected v)
      ((phases held key tool rs).after ⟨.committed, v, key, tool.klass⟩) := by
  rintro d ⟨x, notes⟩ ⟨hkept, hstuck⟩ ⟨hfree, hsigned, pre, hopening, hnotes⟩
  have hstory : Story key tool.klass (some (.committed, stored)) (notesOf key notes) (signed key d) := by
    rw [hnotes, hsigned]
    exact Story.finish htx hopening hstored
  obtain ⟨hinv, hmay, -, hans⟩ := record_step hkept hstuck hfree htask hafp hstory
  obtain ⟨row, hrow, hklass, hst, hresult⟩ :=
    recorded_row (hkept.row key tool args · htask) hafp .committed stored
  exact ⟨hinv, hmay, rfl, AllAnswered.add hans ⟨row, hrow, hklass, hst, hresult ▸ hstored⟩⟩

/-- **Every call keeps the stories**, whatever its class. -/
theorem callOk (hheld : Uncertain task held) (htask : task key = some (tool, args))
    (hafp : args_fingerprint args = some afp) :
    Contract.CallOk (contract task held notes₀ (X := X)) tool.watch key afp args (phases held key tool rs)
      fun e _ => e ≠ .ContentMismatch := by
  constructor
  case raises => exact fun e w he => he
  case mismatch =>
    rintro w row ⟨hkept, -⟩ - hrow hnot -
    exact hnot fun _ => (matching hkept htask hafp hrow).1
  case new =>
    rintro d s ⟨hkept, hstuck⟩ hans hnone
    refine ⟨free_of hheld hstuck hans hkept htask fun row hrow => ?_, Or.inl (reading_none hnone)⟩
    rw [hnone] at hrow
    cases hrow
  case found =>
    rintro d s row ⟨hkept, hstuck⟩ hans - hrow -
    exact found_of_row hheld htask hafp hkept hstuck hans hrow
  case compensate =>
    intro hcomp
    exact compensate_outside (fun _ _ => nofun) hcomp htask
  case undo =>
    intro hcomp
    exact undo_moves hcomp htask hafp
  case db_effect =>
    intro htx d s v rows stored hinv hready hres hstored
    replace htx : tool.klass = .transactional := htx
    exact insert_moves htx htask hafp hinv hready hres hstored
  case prepare =>
    intro hcomp
    exact prepare_moves hcomp htask hafp
  case begin =>
    intro hcomp
    exact begin_moves hcomp htask hafp
  case intend =>
    intro hirr
    exact intend_moves hirr htask hafp
  case direct =>
    rintro hcomp hirr htx d s ⟨hkept, -⟩ hready
    have hnone := unrecorded_of hready hcomp
    have hstory := hkept.story key tool args htask
    rw [hnone] at hstory
    obtain ⟨hopening, hsigned⟩ := hstory.opening htx
    refine ⟨hready.1, ?_, hsigned, hopening⟩
    rcases class_cases (k := tool.klass) htx with hafter | hbefore
    · rw [hnone, intent_of_after hafter]
    · exact (hbefore.elim hirr hcomp).elim
  case effect =>
    intro htx
    exact effect_outside (fun _ _ => nofun) htx htask
  case finish =>
    intro htx v stored hstored
    replace htx : tool.klass ≠ .transactional := htx
    exact finish_moves htx htask hafp hstored

end Call

/-! ## Turns

A turn is a loop over calls with WAL records between them, and the WAL says nothing of an action's row. `Registers` is
what the turns have to agree on: an id that occurs in two of them stands for the same action. -/

/-- A turn that the owner may be asked to run or to recover. -/
structure Job (R X : Type) where
  session : String
  turn : String
  plan : List (Tool R X × Json)

/-- Its plan, with the tools watched. -/
def Job.watched (job : Job R X) : List (Tool (R ⊕ String) (X × List Event) × Json) :=
  job.plan.map fun step => (step.1.watch, step.2)

/-- Attempts at turns, in any order, each with the tick at which its clock kills it. What an attempt leaves open
    is rolled back. -/
def turns [Driver] (jobs : κ → Job R X) :
    Serial (κ × Nat) Stmt (World (R ⊕ String) (X × List Event)) Exn (κ × List Result) where
  main k := do
    let results ← run_turn (jobs k.1).session (jobs k.1).turn (jobs k.1).watched
    pure (k.1, results)
  start k w := { w with clock := ⟨0, k.2⟩ }
  close w := { w with working := w.committed }

/-- `task` says which tool and which arguments an action id stands for, in whatever turn. -/
def Registers (jobs : κ → Job R X) (task : String → Option (Tool R X × Json)) : Prop :=
  ∀ k cid (o : Nat) tool args, commit_id_of (planJson (jobs k).plan) = some cid →
    (jobs k).plan[o]? = some (tool, args) →
    task (action_id (jobs k).session (jobs k).turn cid o) = some (tool, args)

section Turns

variable [Driver] {jobs : κ → Job R X} {task : String → Option (Tool R X × Json)} {held : Table String KeyRow}
  {notes₀ : List Event} {k : κ} {cid : String}

omit [Driver] in
theorem planJson_watched (job : Job R X) : planJson job.watched = planJson job.plan := by
  simp [planJson, Job.watched, Tool.watch]

/-- The ids of the first actions of a turn. -/
def Job.ids (job : Job R X) (n : Nat) : Option (List String) :=
  (commit_id_of (planJson job.plan)).map fun cid =>
    (List.range n).map fun (o : Nat) => action_id job.session job.turn cid (o : Int)

/-- The first actions of a turn have been answered. -/
def AnsweredTurn (job : Job R X) (o : Nat) (rs : List Result) (d : Db (R ⊕ String)) : Prop :=
  job.ids o = some (rs.map Result.key) ∧ AllAnswered rs d

omit [Driver] in
theorem ids_succ {job : Job R X} {o : Nat} {rs : List Result} {res : Result}
    (hcid : commit_id_of (planJson job.plan) = some cid) (h : job.ids o = some (rs.map Result.key))
    (hres : res.key = action_id job.session job.turn cid o) :
    job.ids (o + 1) = some ((rs ++ [res]).map Result.key) := by
  unfold Job.ids at h ⊢
  rw [hcid, Option.map_some] at h ⊢
  rw [List.range_succ, List.map_append, Option.some.inj h, List.map_singleton, ← hres, List.map_append,
    List.map_singleton]

/-- A record of the WAL changes nothing of this. -/
theorem wal_moves (F : Db (R ⊕ String) → Prop) (hF : ∀ d wal, F d → F { d with wal := wal }) (rec : WalRecord) :
    (contract task held notes₀ (X := X)).Moves (fun d => { d with wal := d.wal ++ [rec] }) (fun d _ => F d)
      fun d _ => F d := by
  rintro d ⟨x, notes⟩ ⟨hkept, hstuck⟩ hd
  exact ⟨⟨⟨hkept.row, hkept.story⟩, hstuck⟩, fun _ _ hrow _ => ⟨hrow, rfl, rfl⟩, hF d _ hd⟩

theorem turnOk (hheld : Uncertain task held) (htask : Registers jobs task)
    (hcid : commit_id_of (planJson (jobs k).plan) = some cid) :
    Contract.TurnOk (contract task held notes₀ (X := X)) (jobs k).session (jobs k).turn (jobs k).watched cid
      (fun _ _ => True) (fun o rs d _ => AnsweredTurn (jobs k) o rs d)
      (fun o rs res d _ => AnsweredTurn (jobs k) (o + 1) (rs ++ [res]) d)
      (fun rs d _ => AnsweredTurn (jobs k) (jobs k).plan.length rs d) fun e _ => e ≠ .ContentMismatch := by
  have hstart : ∀ d : Db (R ⊕ String), AnsweredTurn (jobs k) 0 [] d := by
    intro d
    unfold AnsweredTurn Job.ids
    rw [hcid]
    exact ⟨rfl, nofun⟩
  have hlen : (jobs k).watched.length = (jobs k).plan.length := by simp [Job.watched]
  have hwal : ∀ (o : Nat) (rs : List Result) (rec : WalRecord), (contract task held notes₀ (X := X)).Moves
      (fun d => { d with wal := d.wal ++ [rec] }) (fun d _ => AnsweredTurn (jobs k) o rs d)
      fun d _ => AnsweredTurn (jobs k) o rs d :=
    fun o rs => wal_moves _ fun d wal h => ⟨h.1, fun res hres => h.2 res hres⟩
  constructor
  case crash => exact fun _ => nofun
  case begun => exact fun d _ _ _ _ => hstart d
  case begin =>
    intro d s hinv _
    exact hwal 0 [] _ d s hinv (hstart d)
  case prepare =>
    intro o rs tool args _ d s hinv hat
    exact hwal o rs _ d s hinv hat.1
  case call =>
    intro o rs tool' args hget
    unfold Job.watched at hget
    -- the tool that is called is the one of the plan, watched
    rw [List.getElem?_map, Option.map_eq_some_iff] at hget
    obtain ⟨⟨tool, args'⟩, hplan, heq⟩ := hget
    cases heq
    have hkey : task (action_id (jobs k).session (jobs k).turn cid o) = some (tool, args') :=
      htask k cid o tool args' hcid hplan
    have hcall : (contract task held notes₀ (X := X)).rules.Triple () (Contract.Settled fun d _ => AllAnswered rs d)
        (call tool.watch args' (jobs k).session (jobs k).turn o cid)
        (fun res => Contract.Settled fun d _ => res.key = action_id (jobs k).session (jobs k).turn cid o ∧
          AllAnswered (rs ++ [res]) d) fun e _ => e ≠ .ContentMismatch :=
      Contract.call (fun afp hafp => callOk hheld hkey hafp) fun _ => nofun
    rintro w hw ⟨hidle, hids, hans⟩
    refine (hcall.conseq (fun _ _ h => h) ?_ fun _ _ _ h => h) w hw ⟨hidle, hans⟩
    rintro res w - ⟨hidle, hres, hans⟩
    exact ⟨hidle, ids_succ hcid hids hres, hans⟩
  case observe =>
    intro o rs res _ d s hinv hcalled
    exact hwal (o + 1) (rs ++ [res]) _ d s hinv hcalled.1
  case ended =>
    intro rs d _ _ hat _
    rw [hlen] at hat
    exact hat
  case end_ =>
    intro rs d s hinv hat
    rw [hlen] at hat
    exact hwal _ rs _ d s hinv hat.1

/-- Nothing was recorded or done for any of the actions. -/
structure Start (task : String → Option (Tool R X × Json)) (w : World (R ⊕ String) (X × List Event)) : Prop where
  idle : w.working = w.committed
  unrecorded : ∀ key, (task key).isSome → w.committed.gw_keys key = none
  silent : ∀ key, (task key).isSome → notesOf key w.ext.2 = []
  unsigned : ∀ key, (task key).isSome → signed key w.committed = 0

theorem Start.kept {w : World (R ⊕ String) (X × List Event)} (h : Start task w) : Kept task w.committed w.ext.2 := by
  refine ⟨fun key tool args row htask hrow => ?_, fun key tool args htask => ?_⟩
  · rw [h.unrecorded key (by simp [htask])] at hrow
    cases hrow
  · rw [reading_none (h.unrecorded key (by simp [htask])), h.silent key (by simp [htask]),
      h.unsigned key (by simp [htask])]
    by_cases hk : tool.klass = .transactional
    · rw [hk]
      exact .apart
    · rcases class_cases hk with hafter | hbefore
      · exact .tried hafter nofun
      · exact .unintended hbefore

/-- What an attempt returns: an answer for each action of the turn. -/
def Returned (jobs : κ → Job R X) (r : κ × List Result) (d : Db (R ⊕ String)) : Prop :=
  AnsweredTurn (jobs r.1) (jobs r.1).plan.length r.2 d

variable (held notes₀) in
theorem verified (hheld : Uncertain task held) (htask : Registers jobs task) :
    Serial.Verified (turns jobs) (contract task held notes₀ (X := X)).rules
      (Contract.Settled fun _ _ => True) (fun _ => Contract.Settled fun _ _ => True)
      (fun r => Contract.Settled fun d _ => Returned jobs r d) fun e _ => e ≠ .ContentMismatch where
  main k := by
    have hrun : (contract task held notes₀ (X := X)).rules.Triple () (Contract.Settled fun _ _ => True)
        (run_turn (jobs k.1).session (jobs k.1).turn (jobs k.1).watched)
        (fun rs => Contract.Settled fun d _ => Returned jobs (k.1, rs) d) fun e _ => e ≠ .ContentMismatch := by
      refine Contract.run_turn (fun _ => nofun) fun cid hcid => turnOk hheld htask ?_
      rw [← planJson_watched]
      exact hcid
    exact hrun.bind fun rs => fun _ _ h => h
  start _ _ hw hF := ⟨hw, hF.idle, trivial⟩
  close _ hw := ⟨hw, rfl, trivial⟩

/-! ## Theorems

The two differ in what is held. With no row held the contract says what every state is like; with the row of one
irreversible action held, that no later step touches it. -/

variable {c c' : Serial.State Stmt (World (R ⊕ String) (X × List Event)) Exn (κ × List Result)}

/-- No action is held. -/
def noneHeld : Table String KeyRow := fun _ => none

theorem init_start {w₀ : World (R ⊕ String) (X × List Event)} (h₀ : Start task w₀) :
    ∀ w, w = w₀ → (contract task noneHeld [] (X := X)).rules.Inv w ∧ Contract.Settled (fun _ _ => True) w := by
  rintro w rfl
  exact ⟨⟨h₀.kept, nofun⟩, h₀.idle, trivial⟩

/-- **What is settled stays.** No step, of whatever turn, touches the row, the notes or the signature of an action
    that is committed or compensated; and once the attempt that left an irreversible action with its intent alone
    is over, nothing touches that one either, and every later attempt answers `uncertain` for it. -/
theorem settled_stays (jobs : κ → Job R X) (task : String → Option (Tool R X × Json))
    (htask : Registers jobs task) (w₀ : World (R ⊕ String) (X × List Event)) (h₀ : Start task w₀)
    (c : Serial.State Stmt (World (R ⊕ String) (X × List Event)) Exn (κ × List Result))
    (hc : (turns jobs).Reachable (fun _ _ => True) (· = w₀) c) :
    (∀ l c', (turns jobs).step c l = some c' →
      May c.shared.committed c.shared.ext.2 c'.shared.committed c'.shared.ext.2) ∧
    (c.proc = none → ∀ key tool args row, task key = some (tool, args) → tool.klass = .irreversible →
      c.shared.committed.gw_keys key = some row → row.status = .prepared →
      ∀ c', (turns jobs).Reachable (fun _ _ => True) (· = c.shared) c' →
        c'.shared.committed.gw_keys key = some row ∧ notesOf key c'.shared.ext.2 = notesOf key c.shared.ext.2 ∧
        ∀ k rs, c'.proc = some (.ret (k, rs)) → ∀ res ∈ rs, res.key = key → res.status = .uncertain) := by
  have hverified := verified noneHeld [] nofun htask
  have hstate := hverified.stateOk (init_start h₀) hc
  refine ⟨fun l c' hstep => ?_, fun hrest key tool args row hkey hirr hrow hst c' hc' => ?_⟩
  · refine Serial.step_within (fun w w' => May w.committed w.ext.2 w'.committed w'.ext.2) ?_ (fun t hl => ?_) ?_ hstep
    · exact fun _ _ _ _ hrow _ => ⟨hrow, rfl, rfl⟩
    · exact (hverified.step hstate (by cases hl; trivial) hstep).2 t hl
    · exact fun _ _ _ hrow _ => ⟨hrow, rfl, rfl⟩
  · -- the same contract, with this action held
    let held : Table String KeyRow := Function.update noneHeld key (some row)
    have hheld : Uncertain task held := by
      intro k r hr
      by_cases hk : k = key
      · subst hk
        rw [show held k = some row from Function.update_self ..] at hr
        cases hr
        exact ⟨hst, tool, args, hkey, hirr⟩
      · rw [show held k = none from Function.update_of_ne hk ..] at hr
        cases hr
    have hinit : ∀ w, w = c.shared → (contract task held c.shared.ext.2 (X := X)).rules.Inv w ∧
        Contract.Settled (fun _ _ => True) w := by
      rintro w rfl
      have hidle := hstate.2
      rw [hrest] at hidle
      refine ⟨⟨hstate.1.1, fun k r hr => ?_⟩, hidle.idle, trivial⟩
      by_cases hk : k = key
      · subst hk
        rw [show held k = some row from Function.update_self ..] at hr
        cases hr
        exact ⟨hrow, rfl⟩
      · rw [show held k = none from Function.update_of_ne hk ..] at hr
        cases hr
    have hverified' := verified held c.shared.ext.2 hheld htask
    -- its row and its notes are as they were held
    obtain ⟨-, hstuck⟩ := (hverified'.stateOk hinit hc').1
    obtain ⟨hrow', hnotes⟩ := hstuck key row (Function.update_self ..)
    refine ⟨hrow', hnotes, fun k rs hret res hres heq => ?_⟩
    obtain ⟨r, hr, -, hanswer⟩ := (hverified'.post hinit hc' hret).fact.2 res hres
    rw [heq, hrow'] at hr
    cases hr
    -- an answer about it agrees with the row, and the row says `prepared`
    cases hanswered : res.status with
    | uncertain => rfl
    | committed | dedup_hit | compensated =>
      rw [hanswered, hst] at hanswer
      first | cases hanswer.1 | cases hanswer

end Turns

/-! A mail whose first attempt is killed between its intent and the effect. -/

local instance mailDriver : Driver := .sqlite

def mailer : Tool Unit Unit where
  name := "send_email"
  klass := .irreversible
  effect _ _ := pure (.str "sent")

def mailing (_ : Unit) : Job Unit Unit := ⟨"s", "t", [(mailer, .obj [])]⟩

def unsent : World (Unit ⊕ String) (Unit × List Event) := settled ⟨fun _ => none, [], []⟩ ((), []) ⟨0, 0⟩

/-- The mail is the only action. -/
def onlyMail (cid key : String) : Option (Tool Unit Unit × Json) :=
  if key = action_id "s" "t" cid (.int 0) then some (mailer, .obj []) else none

/-- The tables once the attempt is over. -/
def intended (afp cid : String) : Db (Unit ⊕ String) where
  gw_keys := Function.update (fun _ => none) (action_id "s" "t" cid (.int 0))
    (some ⟨some afp, .prepared, .irreversible, none⟩)
  wal := [⟨"s", "t", .BEGIN_TURN, ""⟩, ⟨"s", "t", .ACTION_PREPARED, "send_email"⟩]
  app := []

theorem intended_row (afp cid : String) : (intended afp cid).gw_keys (action_id "s" "t" cid (.int 0)) =
    some ⟨some afp, .prepared, .irreversible, none⟩ := by simp [intended]

theorem registers_mailing {cid : String} (hcid : commit_id_of (planJson (mailing ()).plan) = some cid) :
    Registers mailing (onlyMail cid) := by
  intro _ cid' o tool args hcid' hget
  cases hcid.symm.trans hcid'
  cases o with
  | zero =>
    cases hget
    exact if_pos rfl
  | succ o => cases hget

theorem start_unsent (cid : String) : Start (onlyMail cid) unsent :=
  ⟨rfl, fun _ _ => rfl, fun _ _ => rfl, fun _ _ => rfl⟩

/-- The attempt. -/
theorem killed_mailing {afp cid : String} (hcid : commit_id_of (planJson (mailing ()).plan) = some cid)
    (hafp : args_fingerprint (.obj []) = some afp) :
    (turns mailing).Reachable (fun _ _ => True) (· = unsent)
      ⟨settled (intended afp cid) ((), []) ⟨3, 3⟩, none⟩ := by
  have hrun : (run_turn (mailing ()).session (mailing ()).turn (mailing ()).watched).run
      (settled ⟨fun _ => none, [], []⟩ ((), []) ⟨0, 3⟩) =
      some (.error .Crash, settled (intended afp cid) ((), []) ⟨3, 3⟩) := by
    unfold run_turn
    rw [planJson_watched, hcid]
    simp [appendUnlessHas, run_tick, run_tick_crash, mailing, Job.watched, Tool.watch, runActions, call, hafp, mailer,
      perform, record_new, intended]
  have hstart : (turns mailing).Reachable (fun _ _ => True) (· = unsent) ⟨unsent, none⟩ :=
    Lts.Reachable.start ⟨rfl, rfl⟩
  have hmain : ((turns mailing).main ((), 3)).run (settled ⟨fun _ => none, [], []⟩ ((), []) ⟨0, 3⟩) =
      some (.error .Crash, settled (intended afp cid) ((), []) ⟨3, 3⟩) := by
    simp only [turns]
    rw [Prog.run_bind, hrun]
    rfl
  exact ((hstart.begin rfl ((), 3)).run rfl (Prog.guarded_of_forall (fun _ _ => trivial) _ _) hmain).halt rfl

theorem settled_stays_killed : ∃ cid,
    ∃ c : Serial.State Stmt (World (Unit ⊕ String) (Unit × List Event)) Exn (Unit × List Result),
      (turns mailing).Reachable (fun _ _ => True) (· = unsent) c ∧ c.proc = none ∧
      ∀ c', (turns mailing).Reachable (fun _ _ => True) (· = c.shared) c' →
        notesOf (action_id "s" "t" cid (.int 0)) c'.shared.ext.2 = [] ∧
        ∀ k rs, c'.proc = some (.ret (k, rs)) → ∀ res ∈ rs, res.key = action_id "s" "t" cid (.int 0) →
          res.status = .uncertain := by
  obtain ⟨cid, hcid⟩ : ∃ cid, commit_id_of (planJson (mailing ()).plan) = some cid := exists_commit_id rfl
  obtain ⟨afp, hafp⟩ : ∃ afp, args_fingerprint (.obj []) = some afp := exists_args_fingerprint rfl
  have hkilled := killed_mailing hcid hafp
  obtain ⟨-, hlater⟩ := settled_stays mailing (onlyMail cid) (registers_mailing hcid) unsent (start_unsent cid) _
    hkilled
  refine ⟨cid, _, hkilled, rfl, fun c' hc' => ?_⟩
  exact (hlater rfl (action_id "s" "t" cid (.int 0)) mailer (.obj []) _ (if_pos rfl) rfl (intended_row afp cid) rfl
    c' hc').2

end Taxonomy

end AgentTx.Gateway
