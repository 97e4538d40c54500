import AgentTx.Checker.Turn

/-!
# `Checker.Cutoff` — one crash is enough (`exhaustive_check` and `main` of `agenttx/protocol.py`)

The checker of the turn crashes it once, at each of its operations, and recovers it once, to the end. A turn in use
crashes any number of times, in its recoveries too. What a recovery passes over is decided by the log, never by the
effects: an unsafe turn writes the log of a safe one (`SameLog`), and only how often its effect fires is its own
(`firings`). So the checker misses nothing: it finds an error of one crash just when there is one of many
(`one_crash_decides`).

Layout of the proof:
* **Histories** — a list of the points at which attempts crashed; `history` runs the turn through it.
* **Logs** — a recovery looks at the log only (`skips_congr`), so that the logs of a safe and of an unsafe turn stay
  equal over a history (`sameLog_foldl`), and the checks of the log cannot tell them apart (`check_of_sameLog`).
* **Effects** — how often the effect fires, as a sum over the history (`firings`, `history_effects`).

Main results: `unsafe_fires_exactly` and `one_crash_decides`.
-/

namespace AgentTx.Checker.Turn

/-! ## `exhaustive_check` -/

/-- The first run of the turn, up to the crash. -/
def crashed (transactional idempotent_effect : Bool) (key : String) (crash_after : Nat) : World :=
  ((turn_ops transactional).take crash_after).foldl (fun w op => apply_op w op key idempotent_effect) .empty

def exhaustive_check (transactional idempotent_effect : Bool) (key : String) : List (Nat × List String × Nat) :=
  (List.range ((turn_ops transactional).length + 1)).filterMap fun crash_after =>
    let world := recover_and_finish (crashed transactional idempotent_effect key crash_after)
      (turn_ops transactional) key idempotent_effect
    let errs := check_invariants world key
    if errs = [] then none else some (crash_after, errs, world.effects key)

/-- `main`: `transactional` and `idempotent_effect` of each of the three configurations, and what is found. -/
def configs : List (Bool × Bool) := [(true, true), (false, true), (false, false)]

/-- The exit code: the third configuration is there to fail. -/
def main : Nat :=
  let summary := configs.map fun c => (exhaustive_check c.1 c.2 "a1").isEmpty
  if summary.take 2 = [true, true] then 0 else 1

/-! ## Histories

A history says at which operation each attempt crashed; the last one runs to its end. -/

/-- One attempt at the turn after the first, cut off after `n` operations. -/
def attempt (transactional idempotent_effect : Bool) (key : String) (w : World) (n : Nat) : World :=
  recover_and_finish w ((turn_ops transactional).take n) key idempotent_effect

/-- A turn whose first run and whose recoveries are cut off, each after so many operations. -/
def history (transactional idempotent_effect : Bool) (key : String) : List Nat → World
  | [] => .empty
  | first :: crashes =>
    crashes.foldl (attempt transactional idempotent_effect key) (crashed transactional idempotent_effect key first)

/-- The turn is recovered to its end. -/
def recovered (transactional idempotent_effect : Bool) (key : String) (w : World) : World :=
  recover_and_finish w (turn_ops transactional) key idempotent_effect

/-- The effect has fired once, and the checker finds no error. -/
def ExactlyOnce (key : String) (w : World) : Prop := w.effects key = 1 ∧ check_invariants w key = []

/-- How often an unsafe effect fires: in every attempt that comes to it, up to the first that commits it. -/
def firings : List Nat → Nat
  | [] => 0
  | n :: crashes => if 3 ≤ n then 1 else (if n = 2 then 1 else 0) + firings crashes

variable {transactional idempotent_effect : Bool} {key : String} {w w' : World} {s s' : Bool × World}

/-- The first run is an attempt too, on an empty world. -/
theorem history_eq (crashes : List Nat) : history transactional idempotent_effect key crashes =
    crashes.foldl (attempt transactional idempotent_effect key) .empty := by
  cases crashes with
  | nil => rfl
  | cons first crashes =>
    simp only [history, crashed, run_eq_recover, List.foldl_cons]
    rfl

theorem recovered_eq_attempt (w : World) : recovered transactional idempotent_effect key w =
    attempt transactional idempotent_effect key w 5 := by
  unfold recovered attempt
  cases transactional <;> rfl

theorem reached_history (transactional idempotent_effect : Bool) (key : String) (crashes : List Nat) :
    Reached transactional idempotent_effect key (history transactional idempotent_effect key crashes) := by
  have hfold : ∀ (crashes : List Nat) (w : World), Reached transactional idempotent_effect key w →
      Reached transactional idempotent_effect key
        (crashes.foldl (attempt transactional idempotent_effect key) w) := by
    intro crashes
    induction crashes with
    | nil => exact fun w hw => hw
    | cons n crashes ih => exact fun w hw => ih _ (.recover n hw)
  cases crashes with
  | nil => exact .run 0
  | cons first crashes => exact hfold crashes _ (.run first)

/-! ## The log of an unsafe turn is the log of a safe one

Two runs side by side, with the same crashes. -/

/-- Two recoveries that have written the same. -/
structure SameLog (s s' : Bool × World) : Prop where
  local_ : s.1 = s'.1
  wal : s.2.wal = s'.2.wal
  lsn : s.2.lsn = s'.2.lsn

theorem skips_congr (key : String) (hlocal : s.1 = s'.1) (hwal : s.2.wal = s'.2.wal) (op : Op) :
    skips s.2 key s.1 op = skips s'.2 key s'.1 op := by
  obtain ⟨committed, ⟨wal, effects, lsn⟩⟩ := s
  obtain ⟨committed', ⟨wal', effects', lsn'⟩⟩ := s'
  cases hlocal
  cases hwal
  cases op <;> rfl

theorem apply_op_log (key : String) (hwal : w.wal = w'.wal) (hlsn : w.lsn = w'.lsn) (op : Op) (b b' : Bool) :
    (apply_op w op key b).wal = (apply_op w' op key b').wal ∧
      (apply_op w op key b).lsn = (apply_op w' op key b').lsn := by
  cases op with
  | effect =>
    -- fired or not, nothing is written
    unfold apply_op
    split_ifs <;> simp [World.fire, hwal, hlsn]
  | _ => simp [apply_op, World.fire_effect, World.fire, World.append, hwal, hlsn]

theorem SameLog.recoverOp (h : SameLog s s') (op : Op) (b b' : Bool) :
    SameLog (recoverOp key b s op) (recoverOp key b' s' op) := by
  have hskips := skips_congr key h.local_ h.wal op
  cases hskip : skips s.2 key s.1 op with
  | true =>
    rw [recoverOp_skip hskip, recoverOp_skip (hskips ▸ hskip)]
    exact h
  | false =>
    rw [recoverOp_apply hskip, recoverOp_apply (hskips ▸ hskip)]
    have hlog := apply_op_log key h.wal h.lsn op b b'
    exact ⟨by simp only [h.local_], hlog.1, hlog.2⟩

theorem SameLog.foldl (h : SameLog s s') (key : String) (ops : List Op) (b b' : Bool) :
    SameLog (ops.foldl (Turn.recoverOp key b) s) (ops.foldl (Turn.recoverOp key b') s') := by
  induction ops generalizing s s' with
  | nil => exact h
  | cons op ops ih => exact ih (h.recoverOp op b b')

/-- The two histories write the same, whatever becomes of the effect. -/
theorem sameLog_foldl (crashes : List Nat) (b b' : Bool) (hwal : w.wal = w'.wal) (hlsn : w.lsn = w'.lsn) :
    (crashes.foldl (attempt transactional b key) w).wal = (crashes.foldl (attempt transactional b' key) w').wal ∧
      (crashes.foldl (attempt transactional b key) w).lsn = (crashes.foldl (attempt transactional b' key) w').lsn := by
  induction crashes generalizing w w' with
  | nil => exact ⟨hwal, hlsn⟩
  | cons n crashes ih =>
    have hkeys : w.committed_keys = w'.committed_keys := by simp only [World.committed_keys, hwal]
    have hstart : SameLog (decide (key ∈ w.committed_keys), w) (decide (key ∈ w'.committed_keys), w') :=
      ⟨decide_eq_decide.mpr (by rw [hkeys]), hwal, hlsn⟩
    have hnext := hstart.foldl key ((turn_ops transactional).take n) b b'
    exact ih hnext.wal hnext.lsn

/-- What the checker finds in a log without errors depends on the effects alone. -/
theorem check_of_sameLog (hwal : w.wal = w'.wal) (hclean : check_invariants w' key = []) :
    check_invariants w key =
      if w.effects key ≤ 1 then [] else ["I1 action-uniqueness: effect fired " ++ toString (w.effects key) ++ "x"] := by
  obtain ⟨wal, effects, lsn⟩ := w
  obtain ⟨wal', effects', lsn'⟩ := w'
  cases hwal
  unfold check_invariants at hclean ⊢
  simp only [List.append_eq_nil_iff] at hclean
  obtain ⟨⟨⟨-, h2⟩, h3⟩, h5⟩ := hclean
  -- I2, I3 and I5 look at the log
  have hlog : check_invariants ⟨wal, effects, lsn⟩ key =
      (if effects key > 1 then ["I1 action-uniqueness: effect fired " ++ toString (effects key) ++ "x"] else []) ++
        [] ++ [] ++ [] := congrArg₂ _ (congrArg₂ _ (congrArg₂ _ rfl h2) h3) h5
  rw [check_invariants] at hlog
  rw [hlog, List.append_nil, List.append_nil, List.append_nil]
  rcases Nat.lt_or_ge 1 (effects key) with hmany | honce
  · exact (if_pos hmany).trans (if_neg (Nat.not_le.mpr hmany)).symm
  · exact (if_neg (Nat.not_lt.mpr honce)).trans (if_pos honce).symm

/-! ## How often the effect fires

The effect fires in each attempt that gets to it, until one of them records it. -/

/-- The local variable of a recovery says whether the action is committed. -/
def Agrees (key : String) (s : Bool × World) : Prop := s.1 = true ↔ key ∈ s.2.committed_keys

theorem recoverOp_local (b : Bool) (op : Op) :
    (recoverOp key b s op).1 = (s.1 || op = .effect_commit || op = .commit) := by
  cases hskip : skips s.2 key s.1 op with
  | false => rw [recoverOp_apply hskip]
  | true =>
    rw [recoverOp_skip hskip]
    cases op with
    | effect_commit | commit =>
      have hlocal : s.1 = true := hskip
      simp [hlocal]
    | _ => simp

theorem Agrees.recoverOp (h : Agrees key s) (b : Bool) (op : Op) : Agrees key (recoverOp key b s op) := by
  cases hskip : skips s.2 key s.1 op with
  | true =>
    rw [recoverOp_skip hskip]
    exact h
  | false =>
    rw [recoverOp_apply hskip]
    unfold Agrees at h ⊢
    cases op with
    | effect =>
      have heffect : (apply_op s.2 .effect key b).committed_keys = s.2.committed_keys := by
        unfold apply_op
        split_ifs <;> rfl
      simp [heffect, h]
    | effect_commit =>
      have hfire : (apply_op s.2 .effect_commit key b) = (s.2.fire key).append .ACTION_COMMITTED "T" key := rfl
      simp [hfire, committed_append]
    | begin | commit | observe | turn_commit => simp [apply_op, committed_append, h]

/-- One operation of an unsafe turn: the effect fires, when the action is not committed. -/
theorem recoverOp_effects {op : Op} (hop : op ≠ .effect_commit) :
    (recoverOp key false s op).2.effects key =
      s.2.effects key + if op = .effect ∧ s.1 = false then 1 else 0 := by
  cases hskip : skips s.2 key s.1 op with
  | true =>
    have hnot : ¬ (op = .effect ∧ s.1 = false) := by
      rintro ⟨rfl, hfalse⟩
      exact absurd (hskip.symm.trans hfalse) nofun
    rw [recoverOp_skip hskip, if_neg hnot, Nat.add_zero]
  | false =>
    rw [recoverOp_apply hskip]
    cases op with
    | effect_commit => exact absurd rfl hop
    | effect =>
      have hlocal : s.1 = false := hskip
      have happly : apply_op s.2 .effect key false = s.2.fire key := by simp [apply_op]
      simp [happly, fire_self, hlocal]
    | _ => simp [apply_op, World.append]

/-- One attempt at an unsafe turn. It fires the effect if it comes to it and finds no commit, and commits it if it
    comes past the next operation. -/
theorem attempt_effects (key : String) (w : World) (n : Nat) :
    (attempt false false key w n).effects key =
        w.effects key + (if key ∉ w.committed_keys ∧ 2 ≤ n then 1 else 0) ∧
      (key ∈ (attempt false false key w n).committed_keys ↔ key ∈ w.committed_keys ∨ 3 ≤ n) := by
  let s : Bool × World := (decide (key ∈ w.committed_keys), w)
  let after (ops : List Op) : Bool × World := ops.foldl (Turn.recoverOp key false) s
  have hagrees : ∀ ops, Agrees key (after ops) := by
    intro ops
    refine List.foldlRecOn ops (motive := Agrees key) (Turn.recoverOp key false) (b := s) ?_ ?_
    · exact decide_eq_true_iff
    · exact fun _ h op _ => h.recoverOp false op
  have hcommitted : ∀ ops, key ∈ (after ops).2.committed_keys ↔ (after ops).1 = true := fun ops => (hagrees ops).symm
  have htake : (attempt false false key w n) = (after ((turn_ops false).take n)).2 := rfl
  rw [htake, hcommitted]
  -- the effect is the second operation, the commit the third
  match n with
  | 0 => simp [after, s]
  | 1 => simp [after, s, turn_ops, recoverOp_local, recoverOp_effects]
  | 2 => simp [after, s, turn_ops, recoverOp_local, recoverOp_effects]
  | 3 => simp [after, s, turn_ops, recoverOp_local, recoverOp_effects]
  | 4 => simp [after, s, turn_ops, recoverOp_local, recoverOp_effects]
  | n + 5 => simp [after, s, turn_ops, recoverOp_local, recoverOp_effects]

theorem foldl_effects (crashes : List Nat) (w : World) :
    (crashes.foldl (attempt false false key) w).effects key =
      w.effects key + if key ∈ w.committed_keys then 0 else firings crashes := by
  induction crashes generalizing w with
  | nil => simp [firings]
  | cons n crashes ih =>
    obtain ⟨heffects, hcommitted⟩ := attempt_effects key w n
    rw [List.foldl_cons, ih, heffects, firings]
    by_cases hc : key ∈ w.committed_keys
    · simp [hcommitted, hc]
    · by_cases h3 : 3 ≤ n
      · have h2 : 2 ≤ n := by omega
        simp [hcommitted, hc, h3, h2]
      · have h2 : n = 2 ↔ 2 ≤ n := by omega
        simp only [hcommitted, hc, h3, or_self, if_false, not_false_eq_true, true_and, h2]
        omega

theorem history_effects (crashes : List Nat) : (history false false key crashes).effects key = firings crashes := by
  rw [history_eq, foldl_effects]
  simp [World.empty, World.committed_keys]

theorem recovered_history (transactional idempotent_effect : Bool) (key : String) (crashes : List Nat) :
    recovered transactional idempotent_effect key (history transactional idempotent_effect key crashes) =
      history transactional idempotent_effect key (crashes ++ [5]) := by
  rw [recovered_eq_attempt, history_eq, history_eq, List.foldl_append]
  rfl

/-! ## The results

One direction is a history of one crash; for the other the log is that of a safe turn, and the effects are counted. -/

theorem recovered_of_safe (h : transactional = true ∨ idempotent_effect = true) (crashes : List Nat) :
    ExactlyOnce key (recovered transactional idempotent_effect key
      (history transactional idempotent_effect key crashes)) := by
  have hinv := inv_of_reached h (reached_history transactional idempotent_effect key crashes)
  have hfinished := (recover_spec h (ready_start hinv)).2
  exact ⟨hfinished.inv.committed hfinished.committed, hfinished.check⟩

/-- **The damage of an unsafe effect, exactly.** Over any history of crashes it fires once for every attempt that
    comes to it, up to the first that commits it; and when the turn is recovered at last, that number is all that
    the checker has to find: the log has no error. -/
theorem unsafe_fires_exactly (key : String) (crashes : List Nat) :
    let w := recovered false false key (history false false key crashes)
    (history false false key crashes).effects key = firings crashes ∧
      w.effects key = firings (crashes ++ [5]) ∧
      check_invariants w key = if firings (crashes ++ [5]) ≤ 1 then [] else
        ["I1 action-uniqueness: effect fired " ++ toString (firings (crashes ++ [5])) ++ "x"] := by
  intro w
  have hw : w = history false false key (crashes ++ [5]) := recovered_history false false key crashes
  have heffects : w.effects key = firings (crashes ++ [5]) := by rw [hw, history_effects]
  have htwin : recovered false true key (history false true key crashes) = history false true key (crashes ++ [5]) :=
    recovered_history false true key crashes
  have hwal : w.wal = (recovered false true key (history false true key crashes)).wal := by
    rw [hw, htwin, history_eq, history_eq]
    exact (sameLog_foldl (crashes ++ [5]) false true rfl rfl).1
  refine ⟨history_effects crashes, heffects, ?_⟩
  rw [check_of_sameLog hwal (recovered_of_safe (Or.inr rfl) crashes).2, heffects]

theorem mem_exhaustive_check {crash_after : Nat} {errs : List String} {n : Nat} :
    (crash_after, errs, n) ∈ exhaustive_check transactional idempotent_effect key ↔
      crash_after ≤ (turn_ops transactional).length ∧ errs ≠ [] ∧
        errs = check_invariants (recovered transactional idempotent_effect key
          (history transactional idempotent_effect key [crash_after])) key ∧
        n = (recovered transactional idempotent_effect key
          (history transactional idempotent_effect key [crash_after])).effects key := by
  unfold exhaustive_check recovered
  simp only [List.mem_filterMap, List.mem_range, Option.ite_none_left_eq_some, Option.some.injEq, Prod.mk.injEq]
  constructor
  · rintro ⟨c, hc, hne, rfl, rfl, rfl⟩
    exact ⟨by omega, hne, rfl, rfl⟩
  · rintro ⟨hc, hne, rfl, rfl⟩
    exact ⟨crash_after, by omega, hne, rfl, rfl, rfl⟩

/-- **One crash is enough.** For each configuration, the checker that crashes the turn once and recovers it once
    reports nothing just when the turn is exactly-once over every history, of any number of crashes in its first
    run and in its recoveries. -/
theorem one_crash_decides (transactional idempotent_effect : Bool) (key : String) :
    exhaustive_check transactional idempotent_effect key = [] ↔
      ∀ crashes, ExactlyOnce key (recovered transactional idempotent_effect key
        (history transactional idempotent_effect key crashes)) := by
  constructor
  · intro hclean crashes
    by_cases h : transactional = true ∨ idempotent_effect = true
    · exact recovered_of_safe h crashes
    · -- neither: the crash between the effect and its commit is found
      simp only [not_or, Bool.not_eq_true] at h
      obtain ⟨rfl, rfl⟩ := h
      have hfires : (recovered false false key (history false false key [2])).effects key = 2 := by
        rw [recovered_history, history_effects]
        rfl
      have herrs : check_invariants (recovered false false key (history false false key [2])) key ≠ [] := by
        unfold check_invariants
        rw [if_pos (by omega)]
        simp
      have hmem := mem_exhaustive_check.mpr ⟨by decide, herrs, rfl, rfl⟩
      rw [hclean] at hmem
      exact absurd hmem List.not_mem_nil
  · intro h
    rw [List.eq_nil_iff_forall_not_mem]
    rintro ⟨crash_after, errs, n⟩ hmem
    obtain ⟨-, hne, herrs, -⟩ := mem_exhaustive_check.mp hmem
    exact hne (herrs.trans (h [crash_after]).2)

/-- The two classes that are guaranteed pass. -/
example : main = 0 := by decide

end AgentTx.Checker.Turn
