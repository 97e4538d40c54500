import Mathlib.Logic.Function.Basic
import Mathlib.Tactic.SplitIfs

/-!
# `Lib.TxServer` — a transactional database server with row locks

Connections `ι` write through transactions: a write takes the lock of the row it changes, stays pending
until the connection commits or rolls back, and is seen meanwhile by its own connection only. A lock has
one holder (`locks` is a function), a connection that wants a lock somebody else holds waits (`none`).

`Covered` — whoever has a pending write holds its lock — is the invariant; under it a step of one
connection leaves untouched all that another one holds (`Frame`).
-/

/-- What the rows are: how a write changes the data, which lock it needs, and when two databases agree on
    what a lock protects. -/
structure TxScheme (L W D : Type) where
  apply : W → D → D
  lockOf : W → L
  Same : L → D → D → Prop
  same_refl : ∀ l d, Same l d d
  same_trans : ∀ l d d' d'', Same l d d' → Same l d' d'' → Same l d d''
  same_apply : ∀ l w d, lockOf w ≠ l → Same l d (apply w d)

/-- The server: committed data, locks, and the pending writes of each connection, oldest first. -/
structure TxServer (ι L W D : Type) where
  db : D
  locks : L → Option ι
  pending : ι → List W

namespace TxServer

variable {ι L W D : Type}

/-- The data with some writes applied. -/
def applyAll (X : TxScheme L W D) (ws : List W) (d : D) : D := ws.foldl (fun d w => X.apply w d) d

/-- What connection `i` reads: the committed data under its own pending writes. -/
def view (X : TxScheme L W D) (s : TxServer ι L W D) (i : ι) : D := applyAll X (s.pending i) s.db

/-- No transaction of `i` is open. -/
structure Idle (s : TxServer ι L W D) (i : ι) : Prop where
  pending : s.pending i = []
  locks : ∀ l, s.locks l ≠ some i

/-- Whoever has a pending write holds its lock. -/
def Covered (X : TxScheme L W D) (s : TxServer ι L W D) : Prop :=
  ∀ i, ∀ w ∈ s.pending i, s.locks (X.lockOf w) = some i

/-- What holds of `s` to `s'` when others than `j` took a step. -/
structure Frame (X : TxScheme L W D) (j : ι) (s s' : TxServer ι L W D) : Prop where
  pending : s'.pending j = s.pending j
  locks : ∀ l, s'.locks l = some j ↔ s.locks l = some j
  rows : ∀ l, s.locks l = some j → X.Same l s.db s'.db

variable {X : TxScheme L W D} {s s' : TxServer ι L W D} {i j : ι}

theorem Frame.refl : Frame X j s s := ⟨rfl, fun _ => Iff.rfl, fun l _ => X.same_refl l s.db⟩

theorem Frame.trans {s'' : TxServer ι L W D} (h : Frame X j s s') (h' : Frame X j s' s'') :
    Frame X j s s'' :=
  ⟨h'.pending.trans h.pending, fun l => (h'.locks l).trans (h.locks l), fun l hl =>
    X.same_trans l _ _ _ (h.rows l hl) (h'.rows l ((h.locks l).mpr hl))⟩

theorem Frame.idle (h : Frame X j s s') (hi : s.Idle j) : s'.Idle j :=
  ⟨h.pending.trans hi.pending, fun l hl => hi.locks l ((h.locks l).mp hl)⟩

/-- With no pending writes a connection reads the committed data. -/
theorem view_of_pending_nil (h : s.pending i = []) : s.view X i = s.db := by
  rw [view, h]
  rfl

theorem applyAll_same {ws : List W} {l : L} (h : ∀ w ∈ ws, X.lockOf w ≠ l) (d : D) :
    X.Same l d (applyAll X ws d) := by
  induction ws generalizing d with
  | nil => exact X.same_refl l d
  | cons w ws ih =>
    have hw := X.same_apply l w d (h w List.mem_cons_self)
    exact X.same_trans l _ _ _ hw (ih (fun v hv => h v (List.mem_cons_of_mem _ hv)) _)

/-! ## Writing -/

section Statements

variable [DecidableEq ι]

/-- Add a write to the transaction of `i`. -/
def write (s : TxServer ι L W D) (i : ι) (w : W) : TxServer ι L W D :=
  { s with pending := Function.update s.pending i (s.pending i ++ [w]) }

/-- Forget the transaction of `i` and its locks. -/
def release (s : TxServer ι L W D) (i : ι) : TxServer ι L W D :=
  { s with
    locks := fun l => if s.locks l = some i then none else s.locks l
    pending := Function.update s.pending i [] }

/-- `COMMIT`: the pending writes become the data. -/
def commit (X : TxScheme L W D) (s : TxServer ι L W D) (i : ι) : TxServer ι L W D :=
  { s.release i with db := s.view X i }

/-- `ROLLBACK`, also what a lost connection amounts to. -/
def rollback (s : TxServer ι L W D) (i : ι) : TxServer ι L W D := s.release i

@[simp] theorem write_db (w : W) : (s.write i w).db = s.db := rfl

@[simp] theorem write_locks (w : W) : (s.write i w).locks = s.locks := rfl

@[simp] theorem write_pending (w : W) : (s.write i w).pending i = s.pending i ++ [w] :=
  Function.update_self ..

theorem write_frame {w : W} (hij : i ≠ j) : Frame X j s (s.write i w) :=
  ⟨Function.update_of_ne (Ne.symm hij) .., fun _ => Iff.rfl, fun l _ => X.same_refl l s.db⟩

theorem write_covered {w : W} (hc : Covered X s) (hw : s.locks (X.lockOf w) = some i) :
    Covered X (s.write i w) := by
  intro k w' hw'
  by_cases hki : k = i
  · subst hki
    rw [write_pending, List.mem_append, List.mem_singleton] at hw'
    rcases hw' with hw' | rfl
    · exact hc k w' hw'
    · exact hw
  · have : w' ∈ s.pending k := by
      have hp : (s.write i w).pending k = s.pending k := Function.update_of_ne hki ..
      rwa [hp] at hw'
    exact hc k w' this

/-! ## Ending a transaction -/

theorem release_idle : (s.release i).Idle i := by
  refine ⟨Function.update_self .., fun l => ?_⟩
  show (if s.locks l = some i then none else s.locks l) ≠ some i
  split_ifs with h
  · exact nofun
  · exact h

theorem release_locks (hij : i ≠ j) (l : L) : (s.release i).locks l = some j ↔ s.locks l = some j := by
  show (if s.locks l = some i then none else s.locks l) = some j ↔ _
  split_ifs with h
  · rw [h]
    exact ⟨nofun, fun hj => absurd (Option.some.inj hj) hij⟩
  · exact Iff.rfl

theorem release_pending (hij : i ≠ j) : (s.release i).pending j = s.pending j :=
  Function.update_of_ne (Ne.symm hij) ..

theorem release_covered (hc : Covered X s) : Covered X (s.release i) := by
  intro k w hw
  by_cases hki : k = i
  · subst hki
    rw [release_idle.pending] at hw
    cases hw
  · rw [release_pending (Ne.symm hki)] at hw
    exact (release_locks (Ne.symm hki) _).mpr (hc k w hw)

@[simp] theorem commit_db : (s.commit X i).db = s.view X i := rfl

@[simp] theorem rollback_db : (s.rollback i).db = s.db := rfl

theorem commit_idle : (s.commit X i).Idle i := ⟨release_idle.pending, release_idle.locks⟩

theorem commit_covered (hc : Covered X s) : Covered X (s.commit X i) := release_covered (X := X) hc

/-- **A commit touches only what it has locked.** -/
theorem commit_frame (hc : Covered X s) (hij : i ≠ j) : Frame X j s (s.commit X i) := by
  refine ⟨release_pending hij, release_locks hij, fun l hl => ?_⟩
  refine applyAll_same (fun w hw hwl => ?_) s.db
  have hi := hc i w hw
  rw [hwl, hl] at hi
  exact hij (Option.some.inj hi).symm

theorem rollback_frame (hij : i ≠ j) : Frame X j s (s.rollback i) :=
  ⟨release_pending hij, release_locks hij, fun l _ => X.same_refl l s.db⟩

/-! ## Taking a lock -/

variable [DecidableEq L]

/-- Take a lock, or wait for it. -/
def lock (s : TxServer ι L W D) (i : ι) (l : L) : Option (TxServer ι L W D) :=
  if s.locks l = none ∨ s.locks l = some i then
    some { s with locks := Function.update s.locks l (some i) }
  else none

/-- **Inversion.** A lock that is granted was free, or already one's own. -/
theorem lock_eq_some {l : L} (h : s.lock i l = some s') :
    (s.locks l = none ∨ s.locks l = some i) ∧
      s' = { s with locks := Function.update s.locks l (some i) } := by
  unfold lock at h
  split_ifs at h with hl
  exact ⟨hl, (Option.some.inj h).symm⟩

theorem lock_db {l : L} (h : s.lock i l = some s') : s'.db = s.db := by
  rw [(lock_eq_some h).2]

theorem lock_pending {l : L} (h : s.lock i l = some s') : s'.pending = s.pending := by
  rw [(lock_eq_some h).2]

theorem lock_self {l : L} (h : s.lock i l = some s') : s'.locks l = some i := by
  rw [(lock_eq_some h).2]
  exact Function.update_self ..

/-- A lock, once held, stays when another is taken. -/
theorem lock_keeps {l l' : L} (h : s.lock i l = some s') (hl' : s.locks l' = some i) :
    s'.locks l' = some i := by
  rw [(lock_eq_some h).2]
  show Function.update s.locks l (some i) l' = some i
  by_cases hll : l' = l
  · rw [hll, Function.update_self]
  · rw [Function.update_of_ne hll, hl']

theorem lock_frame {l : L} (hij : i ≠ j) (h : s.lock i l = some s') : Frame X j s s' := by
  obtain ⟨hl, rfl⟩ := lock_eq_some h
  refine ⟨rfl, fun l' => ?_, fun l' _ => X.same_refl l' s.db⟩
  show Function.update s.locks l (some i) l' = some j ↔ s.locks l' = some j
  by_cases hll : l' = l
  · -- the lock was not `j`'s before and is not after
    subst hll
    rw [Function.update_self]
    constructor
    · intro hi
      exact absurd (Option.some.inj hi) hij
    · intro hj
      rcases hl with hl | hl
      · rw [hl] at hj
        cases hj
      · rw [hl] at hj
        exact absurd (Option.some.inj hj) hij
  · rw [Function.update_of_ne hll]

theorem lock_covered {l : L} (hc : Covered X s) (h : s.lock i l = some s') : Covered X s' := by
  intro k w hw
  rw [lock_pending h] at hw
  have hk := hc k w hw
  by_cases hki : k = i
  · subst hki
    exact lock_keeps h hk
  · exact ((lock_frame (X := X) (Ne.symm hki) h).locks _).mpr hk

end Statements

end TxServer
