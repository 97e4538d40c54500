import Mathlib.Data.List.Basic
import Mathlib.Data.List.MinMax
import Mathlib.Logic.Function.Basic

/-!
# `Checker.Turn` — the model of one turn, with any number of crashes (`agenttx/protocol.py`)

The checker crashes a turn of one action after every prefix of its operations and recovers once. Here the
recoveries may crash too, any number of times. What makes a complete recovery end well is an invariant of the
log and of the number of times the effect has fired (`Inv`), which every operation of a recovery keeps
(`recoverOp_inv` and what follows).

Layout of the proof:
* **The invariant** — the log and the number of effects, as they can be between two operations; `Ready` is the same
  for a recovery, which also remembers what it has seen.
* **One operation** — a recovery passes over an operation that the log already tells of (`recoverOp_skip`) or applies
  it (`recoverOp_apply`); one lemma for each of the six.
* **A recovery** — in the order of the operations, up to any point (`recover_spec`).
* **The checks** — a `Finished` log passes `check_invariants`.

Main result: `recovered_exactly_once`.
-/

namespace AgentTx.Checker.Turn

inductive RecType where
  | BEGIN_TURN
  | MODEL_OUTPUT_PREPARED
  | ACTION_PREPARED
  | ACTION_COMMITTED
  | OBSERVATION_COMMITTED
  | TURN_COMMITTED
  | KV_SNAPSHOT_AVAILABLE
  deriving DecidableEq, Repr

structure Rec where
  lsn : Nat
  type : RecType
  turn : String
  key : String
  deriving DecidableEq, Repr

/-- The turn log, and how many times the effect of each key has fired. -/
structure World where
  wal : List Rec
  effects : String → Nat
  lsn : Nat

namespace World

def empty : World := ⟨[], fun _ => 0, 0⟩

def append (w : World) (type : RecType) (turn : String) (key : String) : World :=
  { w with lsn := w.lsn + 1, wal := w.wal ++ [⟨w.lsn + 1, type, turn, key⟩] }

/-- `self.effects[key] = self.effects.get(key, 0) + 1`. -/
def fire (w : World) (key : String) : World :=
  { w with effects := Function.update w.effects key (w.effects key + 1) }

def fire_effect (w : World) (key : String) (transactional : Bool) : World :=
  if transactional then (w.fire key).append .ACTION_COMMITTED "T" key else w.fire key

def committed_keys (w : World) : List String := (w.wal.filter (·.type = .ACTION_COMMITTED)).map (·.key)

def observed_keys (w : World) : List String := (w.wal.filter (·.type = .OBSERVATION_COMMITTED)).map (·.key)

end World

/-- The operations of a turn. -/
inductive Op where
  | begin
  | effect_commit
  | effect
  | commit
  | observe
  | turn_commit
  deriving DecidableEq, Repr

def turn_ops (transactional : Bool) : List Op :=
  [.begin] ++ (if transactional then [.effect_commit] else [.effect, .commit]) ++ [.observe, .turn_commit]

def apply_op (w : World) (op : Op) (key : String) (idempotent_effect : Bool) : World :=
  match op with
  | .begin => w.append .BEGIN_TURN "T" ""
  | .effect_commit => w.fire_effect key true
  | .effect => if idempotent_effect ∧ w.effects key ≥ 1 then w else w.fire key
  | .commit => w.append .ACTION_COMMITTED "T" key
  | .observe => w.append .OBSERVATION_COMMITTED "T" key
  | .turn_commit => w.append .TURN_COMMITTED "T" ""

/-- The operations that a recovery passes over. -/
def skips (w : World) (key : String) (committed : Bool) : Op → Bool
  | .effect_commit | .effect | .commit => committed
  | .observe => key ∈ w.observed_keys
  | .turn_commit => w.wal.any (·.type = .TURN_COMMITTED)
  | .begin => false

/-- The body of the loop in `recover_and_finish`; `committed` is its local variable. -/
def recoverOp (key : String) (idempotent_effect : Bool) (s : Bool × World) (op : Op) : Bool × World :=
  if skips s.2 key s.1 op then s
  else (s.1 || op = .effect_commit || op = .commit, apply_op s.2 op key idempotent_effect)

def recover_and_finish (w : World) (ops : List Op) (key : String) (idempotent_effect : Bool) : World :=
  (ops.foldl (recoverOp key idempotent_effect) (decide (key ∈ w.committed_keys), w)).2

/-- `max(…, default=-1)`. -/
def last_commit (w : World) (key : String) : Int :=
  (((w.wal.filter fun r => r.type = .ACTION_COMMITTED ∧ r.key = key).map fun r => (r.lsn : Int)).max?).getD (-1)

/-- `min(…, default=-1)`. -/
def first_obs (w : World) (key : String) : Int :=
  (((w.wal.filter fun r => r.type = .OBSERVATION_COMMITTED ∧ r.key = key).map fun r => (r.lsn : Int)).min?).getD (-1)

def check_invariants (w : World) (key : String) : List String :=
  (if w.effects key > 1 then ["I1 action-uniqueness: effect fired " ++ toString (w.effects key) ++ "x"] else []) ++
  (if first_obs w key ≠ -1 ∧ (last_commit w key = -1 ∨ last_commit w key > first_obs w key) then
    ["I2 ghost-observation: observed before/without commit"] else []) ++
  (if key ∈ w.committed_keys ∧ key ∉ w.observed_keys then
    ["I3 lost-effect: committed but never observed after recovery"] else []) ++
  (if ¬ w.wal.any (·.type = .TURN_COMMITTED) then
    ["I5 prefix-recovery: turn did not reach TURN_COMMITTED"] else [])

/-! ## Histories -/

/-- What a turn and its recoveries lead to, each cut off after any number of operations. -/
inductive Reached (transactional idempotent_effect : Bool) (key : String) : World → Prop
  | run (n : Nat) : Reached transactional idempotent_effect key
      (((turn_ops transactional).take n).foldl (fun w op => apply_op w op key idempotent_effect) .empty)
  | recover {w : World} (n : Nat) (h : Reached transactional idempotent_effect key w) :
      Reached transactional idempotent_effect key
        (recover_and_finish w ((turn_ops transactional).take n) key idempotent_effect)

/-! ## The invariant

Nothing of it is about the crash: it holds between any two operations. -/

variable {transactional idempotent_effect : Bool} {key : String} {w : World}

theorem mem_committed_keys :
    key ∈ w.committed_keys ↔ ∃ r ∈ w.wal, r.type = .ACTION_COMMITTED ∧ r.key = key := by
  simp [World.committed_keys, and_assoc]

theorem mem_observed_keys :
    key ∈ w.observed_keys ↔ ∃ r ∈ w.wal, r.type = .OBSERVATION_COMMITTED ∧ r.key = key := by
  simp [World.observed_keys, and_assoc]

/-- The log and the effect agree. -/
structure Inv (transactional : Bool) (key : String) (w : World) : Prop where
  fired : w.effects key ≤ 1
  lsn : ∀ r ∈ w.wal, r.lsn ≤ w.lsn
  committed : key ∈ w.committed_keys → w.effects key = 1
  atomic : transactional = true → w.effects key = 1 → key ∈ w.committed_keys
  observed : key ∈ w.observed_keys → key ∈ w.committed_keys
  ordered : ∀ c ∈ w.wal, ∀ o ∈ w.wal, c.type = .ACTION_COMMITTED → c.key = key →
    o.type = .OBSERVATION_COMMITTED → o.key = key → c.lsn < o.lsn

theorem inv_empty (transactional : Bool) (key : String) : Inv transactional key .empty :=
  ⟨Nat.zero_le _, nofun, nofun, nofun, nofun, nofun⟩

theorem mem_append {type : RecType} {turn k : String} {r : Rec} :
    r ∈ (w.append type turn k).wal ↔ r ∈ w.wal ∨ r = ⟨w.lsn + 1, type, turn, k⟩ := by
  simp [World.append]

theorem committed_append {type : RecType} {turn k : String} :
    key ∈ (w.append type turn k).committed_keys ↔
      key ∈ w.committed_keys ∨ type = .ACTION_COMMITTED ∧ k = key := by
  simp only [mem_committed_keys, mem_append, or_and_right, exists_or, exists_eq_left]

theorem observed_append {type : RecType} {turn k : String} :
    key ∈ (w.append type turn k).observed_keys ↔
      key ∈ w.observed_keys ∨ type = .OBSERVATION_COMMITTED ∧ k = key := by
  simp only [mem_observed_keys, mem_append, or_and_right, exists_or, exists_eq_left]

theorem lsn_append (h : ∀ r ∈ w.wal, r.lsn ≤ w.lsn) (type : RecType) (turn k : String) :
    ∀ r ∈ (w.append type turn k).wal, r.lsn ≤ (w.append type turn k).lsn := by
  intro r hr
  rcases mem_append.mp hr with hr | rfl
  · exact Nat.le_succ_of_le (h r hr)
  · exact Nat.le_refl _

/-- A record that is neither a commit nor an observation changes nothing. -/
theorem Inv.append_other (h : Inv transactional key w) {type : RecType} (turn k : String)
    (hc : type ≠ .ACTION_COMMITTED) (ho : type ≠ .OBSERVATION_COMMITTED) :
    Inv transactional key (w.append type turn k) := by
  constructor
  case fired => exact h.fired
  case lsn => exact lsn_append h.lsn _ _ _
  case committed => exact fun hk => h.committed ((committed_append.mp hk).resolve_right fun hk => hc hk.1)
  case atomic => exact fun ht he => committed_append.mpr (Or.inl (h.atomic ht he))
  case observed =>
    intro hk
    exact committed_append.mpr (Or.inl (h.observed ((observed_append.mp hk).resolve_right fun hk => ho hk.1)))
  -- the new record is neither of the two kinds that are ordered
  case ordered =>
    intro c hcm o hom hct hck hot hok
    rcases mem_append.mp hcm with hcm | rfl
    · rcases mem_append.mp hom with hom | rfl
      · exact h.ordered c hcm o hom hct hck hot hok
      · exact absurd hot ho
    · exact absurd hct hc

/-- The action is committed, when its effect has fired. -/
theorem Inv.commit (h : Inv transactional key w) (hnot : key ∉ w.committed_keys) (hfired : w.effects key = 1) :
    Inv transactional key (w.append .ACTION_COMMITTED "T" key) := by
  have hunobserved : key ∉ w.observed_keys := fun hk => hnot (h.observed hk)
  have hcommitted : key ∈ (w.append .ACTION_COMMITTED "T" key).committed_keys :=
    committed_append.mpr (Or.inr ⟨rfl, rfl⟩)
  constructor
  case fired => exact h.fired
  case lsn => exact lsn_append h.lsn _ _ _
  case committed => exact fun _ => hfired
  case atomic => exact fun _ _ => hcommitted
  case observed => exact fun _ => hcommitted
  case ordered =>
    intro c hcm o hom hct hck hot hok
    -- there is no observation yet
    rcases mem_append.mp hom with hom | rfl
    · exact absurd (mem_observed_keys.mpr ⟨o, hom, hot, hok⟩) hunobserved
    · cases hot

/-- A committed action is observed. -/
theorem Inv.observe (h : Inv transactional key w) (hcommitted : key ∈ w.committed_keys) :
    Inv transactional key (w.append .OBSERVATION_COMMITTED "T" key) := by
  constructor
  case fired => exact h.fired
  case lsn => exact lsn_append h.lsn _ _ _
  case committed => exact fun _ => h.committed hcommitted
  case atomic => exact fun _ _ => committed_append.mpr (Or.inl hcommitted)
  case observed => exact fun _ => committed_append.mpr (Or.inl hcommitted)
  case ordered =>
    intro c hcm o hom hct hck hot hok
    rcases mem_append.mp hcm with hcm | rfl
    · rcases mem_append.mp hom with hom | rfl
      · exact h.ordered c hcm o hom hct hck hot hok
      · exact Nat.lt_succ_of_le (h.lsn c hcm)
    · cases hct

theorem fire_self : (w.fire key).effects key = w.effects key + 1 := Function.update_self ..

/-- The effect fires for the first time, outside a transaction. -/
theorem Inv.fire (h : Inv false key w) (hfresh : w.effects key = 0) :
    Inv false key (w.fire key) := by
  have hone : (w.fire key).effects key = 1 := by rw [fire_self, hfresh]
  exact ⟨Nat.le_of_eq hone, h.lsn, fun _ => hone, nofun, h.observed, h.ordered⟩

/-- The effect fires and is committed at once. -/
theorem Inv.fire_commit (h : Inv true key w) (hnot : key ∉ w.committed_keys) :
    Inv true key (w.fire_effect key true) := by
  have hfresh : w.effects key = 0 := by
    have hle := h.fired
    have hne : w.effects key ≠ 1 := fun hone => hnot (h.atomic rfl hone)
    omega
  have hone : (w.fire key).effects key = 1 := by rw [fire_self, hfresh]
  have hcommitted : key ∈ ((w.fire key).append .ACTION_COMMITTED "T" key).committed_keys :=
    committed_append.mpr (Or.inr ⟨rfl, rfl⟩)
  constructor
  case fired => exact Nat.le_of_eq hone
  case lsn => exact lsn_append h.lsn _ _ _
  case committed => exact fun _ => hone
  case atomic => exact fun _ _ => hcommitted
  case observed => exact fun _ => hcommitted
  -- an observation would have been of a committed key
  case ordered =>
    intro c hcm o hom hct hck hot hok
    rcases mem_append.mp hom with hom | rfl
    · exact absurd (h.observed (mem_observed_keys.mpr ⟨o, hom, hot, hok⟩)) hnot
    · cases hot

/-! ## One operation of a recovery

A recovery either passes over an operation or applies it. Each lemma is about both. -/

/-- A recovery between two operations. -/
structure Ready (transactional : Bool) (key : String) (s : Bool × World) : Prop where
  inv : Inv transactional key s.2
  local_ : s.1 = true ↔ key ∈ s.2.committed_keys

variable {s : Bool × World}

theorem ready_start (h : Inv transactional key w) : Ready transactional key (decide (key ∈ w.committed_keys), w) :=
  ⟨h, decide_eq_true_iff⟩

theorem recoverOp_skip {op : Op} (h : skips s.2 key s.1 op = true) : recoverOp key idempotent_effect s op = s :=
  if_pos h

theorem recoverOp_apply {op : Op} (h : skips s.2 key s.1 op = false) :
    recoverOp key idempotent_effect s op =
      (s.1 || op = .effect_commit || op = .commit, apply_op s.2 op key idempotent_effect) :=
  if_neg (Bool.eq_false_iff.mp h)

theorem Ready.begin (h : Ready transactional key s) :
    Ready transactional key (recoverOp key idempotent_effect s .begin) := by
  have happly : recoverOp key idempotent_effect s .begin = (s.1, s.2.append .BEGIN_TURN "T" "") := by
    rw [recoverOp_apply rfl]
    simp [apply_op]
  rw [happly]
  refine ⟨h.inv.append_other _ _ nofun nofun, h.local_.trans ?_⟩
  exact ⟨fun hk => committed_append.mpr (Or.inl hk), fun hk => (committed_append.mp hk).resolve_right nofun⟩

/-- The effect and its commit, in one. -/
theorem Ready.effect_commit (idempotent_effect : Bool) (h : Ready true key s) :
    Ready true key (recoverOp key idempotent_effect s .effect_commit) ∧
      (recoverOp key idempotent_effect s .effect_commit).1 = true := by
  cases hc : s.1 with
  | true =>
    rw [recoverOp_skip (by simp only [skips, hc])]
    exact ⟨h, hc⟩
  | false =>
    have hnot : key ∉ s.2.committed_keys := fun hk => by
      rw [h.local_.mpr hk] at hc
      cases hc
    have happly : recoverOp key idempotent_effect s .effect_commit = (true, s.2.fire_effect key true) := by
      rw [recoverOp_apply (by simp only [skips, hc])]
      simp [apply_op]
    rw [happly]
    exact ⟨⟨h.inv.fire_commit hnot, iff_of_true rfl (committed_append.mpr (Or.inr ⟨rfl, rfl⟩))⟩, rfl⟩

/-- An idempotent effect fires, unless it has. -/
theorem Ready.effect (h : Ready false key s) :
    Ready false key (recoverOp key true s .effect) ∧ (recoverOp key true s .effect).2.effects key = 1 := by
  cases hc : s.1 with
  | true =>
    rw [recoverOp_skip (by simp only [skips, hc])]
    exact ⟨h, h.inv.committed (h.local_.mp hc)⟩
  | false =>
    have happly : recoverOp key true s .effect = (s.1, apply_op s.2 .effect key true) := by
      rw [recoverOp_apply (by simp only [skips, hc])]
      simp
    rw [happly]
    by_cases hfired : s.2.effects key ≥ 1
    · -- an idempotent effect that has fired does not fire again
      have hsame : apply_op s.2 .effect key true = s.2 := if_pos ⟨rfl, hfired⟩
      rw [hsame]
      exact ⟨h, Nat.le_antisymm h.inv.fired hfired⟩
    · have hfire : apply_op s.2 .effect key true = s.2.fire key := if_neg fun hf => hfired hf.2
      have hfresh : s.2.effects key = 0 := by omega
      rw [hfire]
      exact ⟨⟨h.inv.fire hfresh, h.local_⟩, by rw [fire_self, hfresh]⟩

/-- The commit of an effect that has fired. -/
theorem Ready.commit (idempotent_effect : Bool) (h : Ready transactional key s) (hfired : s.2.effects key = 1) :
    Ready transactional key (recoverOp key idempotent_effect s .commit) ∧
      (recoverOp key idempotent_effect s .commit).1 = true := by
  cases hc : s.1 with
  | true =>
    rw [recoverOp_skip (by simp only [skips, hc])]
    exact ⟨h, hc⟩
  | false =>
    have hnot : key ∉ s.2.committed_keys := fun hk => by
      rw [h.local_.mpr hk] at hc
      cases hc
    have happly : recoverOp key idempotent_effect s .commit = (true, s.2.append .ACTION_COMMITTED "T" key) := by
      rw [recoverOp_apply (by simp only [skips, hc])]
      simp [apply_op]
    rw [happly]
    exact ⟨⟨h.inv.commit hnot hfired, iff_of_true rfl (committed_append.mpr (Or.inr ⟨rfl, rfl⟩))⟩, rfl⟩

theorem Ready.observe (idempotent_effect : Bool) (h : Ready transactional key s) (hc : s.1 = true) :
    Ready transactional key (recoverOp key idempotent_effect s .observe) ∧
      (recoverOp key idempotent_effect s .observe).1 = true ∧
      key ∈ (recoverOp key idempotent_effect s .observe).2.observed_keys := by
  by_cases hobs : key ∈ s.2.observed_keys
  · have hskip : skips s.2 key s.1 .observe = true := decide_eq_true hobs
    rw [recoverOp_skip hskip]
    exact ⟨h, hc, hobs⟩
  · have hcommitted := h.local_.mp hc
    have happly : recoverOp key idempotent_effect s .observe =
        (true, s.2.append .OBSERVATION_COMMITTED "T" key) := by
      have hskip : skips s.2 key s.1 .observe = false := decide_eq_false hobs
      rw [recoverOp_apply hskip]
      simp [apply_op, hc]
    rw [happly]
    refine ⟨⟨h.inv.observe hcommitted, ?_⟩, rfl, observed_append.mpr (Or.inr ⟨rfl, rfl⟩)⟩
    exact iff_of_true rfl (committed_append.mpr (Or.inl hcommitted))

/-- What a complete recovery ends with. -/
structure Finished (transactional : Bool) (key : String) (w : World) : Prop where
  inv : Inv transactional key w
  committed : key ∈ w.committed_keys
  observed : key ∈ w.observed_keys
  ended : w.wal.any (·.type = .TURN_COMMITTED) = true

theorem Ready.turn_commit (idempotent_effect : Bool) (h : Ready transactional key s) (hc : s.1 = true)
    (hobs : key ∈ s.2.observed_keys) :
    Finished transactional key (recoverOp key idempotent_effect s .turn_commit).2 ∧
      Ready transactional key (recoverOp key idempotent_effect s .turn_commit) := by
  have hcommitted := h.local_.mp hc
  cases hend : s.2.wal.any (·.type = .TURN_COMMITTED) with
  | true =>
    -- the turn was ended before the crash
    have hskip : skips s.2 key s.1 .turn_commit = true := hend
    rw [recoverOp_skip hskip]
    exact ⟨⟨h.inv, hcommitted, hobs, hend⟩, h⟩
  | false =>
    have happly : recoverOp key idempotent_effect s .turn_commit = (true, s.2.append .TURN_COMMITTED "T" "") := by
      have hskip : skips s.2 key s.1 .turn_commit = false := hend
      rw [recoverOp_apply hskip]
      simp [apply_op, hc]
    have hinv : Inv transactional key (s.2.append .TURN_COMMITTED "T" "") := h.inv.append_other _ _ nofun nofun
    have hcommitted' : key ∈ (s.2.append .TURN_COMMITTED "T" "").committed_keys :=
      committed_append.mpr (Or.inl hcommitted)
    rw [happly]
    refine ⟨⟨hinv, hcommitted', observed_append.mpr (Or.inl hobs), ?_⟩, hinv, iff_of_true rfl hcommitted'⟩
    simp [World.append]

/-! ## A recovery

It may crash as well, after any of its operations. -/

/-- **A recovery keeps the invariant up to any point, and comes to its end.** -/
theorem recover_spec (h : transactional = true ∨ idempotent_effect = true) (hs : Ready transactional key s) :
    (∀ n, Ready transactional key (((turn_ops transactional).take n).foldl (recoverOp key idempotent_effect) s)) ∧
      Finished transactional key ((turn_ops transactional).foldl (recoverOp key idempotent_effect) s).2 := by
  have hbegin : Ready transactional key (recoverOp key idempotent_effect s .begin) := hs.begin
  cases transactional with
  | true =>
    -- four operations: the effect and its commit are one
    obtain ⟨heffect, hc⟩ := hbegin.effect_commit idempotent_effect
    obtain ⟨hobserve, hc', hobs⟩ := heffect.observe idempotent_effect hc
    obtain ⟨hfinished, hend⟩ := hobserve.turn_commit idempotent_effect hc' hobs
    refine ⟨fun n => ?_, hfinished⟩
    match n with
    | 0 => exact hs
    | 1 => exact hbegin
    | 2 => exact heffect
    | 3 => exact hobserve
    | n + 4 =>
      rw [List.take_of_length_le (by simp [turn_ops])]
      exact hend
  | false =>
    -- five operations: the effect may have been done before the crash, and is done again
    obtain rfl : idempotent_effect = true := h.resolve_left nofun
    obtain ⟨heffect, hfired⟩ := hbegin.effect
    obtain ⟨hcommit, hc⟩ := heffect.commit true hfired
    obtain ⟨hobserve, hc', hobs⟩ := hcommit.observe true hc
    obtain ⟨hfinished, hend⟩ := hobserve.turn_commit true hc' hobs
    refine ⟨fun n => ?_, hfinished⟩
    match n with
    | 0 => exact hs
    | 1 => exact hbegin
    | 2 => exact heffect
    | 3 => exact hcommit
    | 4 => exact hobserve
    | n + 5 =>
      rw [List.take_of_length_le (by simp [turn_ops])]
      exact hend

/-- On an empty world nothing is passed over, so the first run is a recovery too. -/
theorem run_eq_recover (n : Nat) :
    ((turn_ops transactional).take n).foldl (fun w op => apply_op w op key idempotent_effect) .empty =
      recover_and_finish .empty ((turn_ops transactional).take n) key idempotent_effect := by
  cases transactional with
  | true =>
    match n with
    | 0 => rfl
    | 1 => rfl
    | 2 => rfl
    | 3 => simp [turn_ops, recover_and_finish, recoverOp, skips, apply_op, World.fire_effect, World.fire,
        World.append, World.empty, World.committed_keys, World.observed_keys]
    | n + 4 => simp [turn_ops, recover_and_finish, recoverOp, skips, apply_op, World.fire_effect, World.fire,
        World.append, World.empty, World.committed_keys, World.observed_keys]
  | false =>
    match n with
    | 0 => rfl
    | 1 => rfl
    | 2 => rfl
    | 3 => rfl
    | 4 => simp [turn_ops, recover_and_finish, recoverOp, skips, apply_op, World.fire_effect, World.fire,
        World.append, World.empty, World.committed_keys, World.observed_keys]
    | n + 5 => simp [turn_ops, recover_and_finish, recoverOp, skips, apply_op, World.fire_effect, World.fire,
        World.append, World.empty, World.committed_keys, World.observed_keys]

/-- **Every history keeps the invariant.** -/
theorem inv_of_reached (h : transactional = true ∨ idempotent_effect = true)
    (hw : Reached transactional idempotent_effect key w) : Inv transactional key w := by
  induction hw with
  | run n =>
    rw [run_eq_recover]
    exact ((recover_spec h (ready_start (inv_empty transactional key))).1 n).inv
  | recover n _ ih => exact ((recover_spec h (ready_start ih)).1 n).inv

/-! ## The checks

What `check_invariants` looks for cannot be in a finished log. -/

theorem last_commit_mem (h : key ∈ w.committed_keys) :
    ∃ c ∈ w.wal, c.type = .ACTION_COMMITTED ∧ c.key = key ∧ last_commit w key = c.lsn := by
  obtain ⟨r, hr, htype, hkey⟩ := mem_committed_keys.mp h
  let lsns := (w.wal.filter fun r => r.type = .ACTION_COMMITTED ∧ r.key = key).map fun r => (r.lsn : Int)
  have hmem : (r.lsn : Int) ∈ lsns := List.mem_map_of_mem (List.mem_filter.mpr ⟨hr, by simp [htype, hkey]⟩)
  obtain ⟨m, hm⟩ := Option.isSome_iff_exists.mp (List.isSome_max?_of_mem hmem)
  obtain ⟨c, hc, hlsn⟩ := List.mem_map.mp (List.max?_mem hm)
  obtain ⟨hcm, hcond⟩ := List.mem_filter.mp hc
  obtain ⟨hct, hck⟩ := of_decide_eq_true hcond
  refine ⟨c, hcm, hct, hck, ?_⟩
  show lsns.max?.getD (-1) = c.lsn
  rw [hm, Option.getD_some, hlsn]

theorem first_obs_mem (h : key ∈ w.observed_keys) :
    ∃ o ∈ w.wal, o.type = .OBSERVATION_COMMITTED ∧ o.key = key ∧ first_obs w key = o.lsn := by
  obtain ⟨r, hr, htype, hkey⟩ := mem_observed_keys.mp h
  let lsns := (w.wal.filter fun r => r.type = .OBSERVATION_COMMITTED ∧ r.key = key).map fun r => (r.lsn : Int)
  have hmem : (r.lsn : Int) ∈ lsns := List.mem_map_of_mem (List.mem_filter.mpr ⟨hr, by simp [htype, hkey]⟩)
  obtain ⟨m, hm⟩ := Option.isSome_iff_exists.mp (List.isSome_min?_of_mem hmem)
  obtain ⟨o, ho, hlsn⟩ := List.mem_map.mp (List.min?_mem hm)
  obtain ⟨hom, hcond⟩ := List.mem_filter.mp ho
  obtain ⟨hot, hok⟩ := of_decide_eq_true hcond
  refine ⟨o, hom, hot, hok, ?_⟩
  show lsns.min?.getD (-1) = o.lsn
  rw [hm, Option.getD_some, hlsn]

/-- A finished turn has no errors. -/
theorem Finished.check (h : Finished transactional key w) : check_invariants w key = [] := by
  have hfired : ¬ w.effects key > 1 := Nat.not_lt.mpr h.inv.fired
  have hordered : ¬ (first_obs w key ≠ -1 ∧ (last_commit w key = -1 ∨ last_commit w key > first_obs w key)) := by
    obtain ⟨c, hcm, hct, hck, hlast⟩ := last_commit_mem h.committed
    obtain ⟨o, hom, hot, hok, hfirst⟩ := first_obs_mem h.observed
    have hlt := h.inv.ordered c hcm o hom hct hck hot hok
    rw [hlast, hfirst]
    omega
  have hobserved : ¬ (key ∈ w.committed_keys ∧ key ∉ w.observed_keys) := fun hlost => hlost.2 h.observed
  have hended : ¬ ¬ w.wal.any (·.type = .TURN_COMMITTED) = true := not_not_intro h.ended
  unfold check_invariants
  rw [if_neg hfired, if_neg hordered, if_neg hobserved, if_neg hended]
  rfl

/-- **Exactly once, however often it crashes.** A turn with a transactional or an idempotent effect, run up to
    any point and recovered any number of times up to any point, has fired its effect at most once; one
    complete recovery more, and it has fired once and the checker finds no error. -/
theorem recovered_exactly_once (transactional idempotent_effect : Bool)
    (h : transactional = true ∨ idempotent_effect = true) (key : String) (w : World)
    (hw : Reached transactional idempotent_effect key w) :
    w.effects key ≤ 1 ∧
      (recover_and_finish w (turn_ops transactional) key idempotent_effect).effects key = 1 ∧
      check_invariants (recover_and_finish w (turn_ops transactional) key idempotent_effect) key = [] := by
  have hinv := inv_of_reached h hw
  have hfinished : Finished transactional key (recover_and_finish w (turn_ops transactional) key idempotent_effect) :=
    (recover_spec h (ready_start hinv)).2
  exact ⟨hinv.fired, hfinished.inv.committed hfinished.committed, hfinished.check⟩

/-- The effect has fired, and the first recovery crashes after `BEGIN_TURN`. -/
def crashedTwice : World :=
  recover_and_finish (((turn_ops false).take 2).foldl (fun w op => apply_op w op "a1" true) .empty)
    ((turn_ops false).take 1) "a1" true

theorem recovered_exactly_once_crashedTwice :
    crashedTwice.effects "a1" ≤ 1 ∧
      (recover_and_finish crashedTwice (turn_ops false) "a1" true).effects "a1" = 1 ∧
      check_invariants (recover_and_finish crashedTwice (turn_ops false) "a1" true) "a1" = [] :=
  recovered_exactly_once false true (Or.inr rfl) "a1" crashedTwice (.recover 1 (.run 2))

end AgentTx.Checker.Turn
