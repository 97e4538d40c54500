import Mathlib.Data.List.Sort
import Mathlib.Logic.Function.Basic

/-!
# `Lib.Table` — SQL tables

Two views of a table, each with the statements that are run on it:

* `Table κ ρ` — a table read and written by its primary key: a partial map from keys to rows;
* `KeyedRows key` — a table that is also scanned in order: the list of its rows, which carries the proof
  that its primary key `key` holds, with `INSERT OR IGNORE`, `DELETE` and `SELECT … ORDER BY`.
-/

/-- A table accessed through its primary key. -/
abbrev Table (κ ρ : Type*) := κ → Option ρ

namespace Table

variable {κ ρ : Type*} [DecidableEq κ]

/-- `INSERT … ON CONFLICT(key) DO UPDATE`: `new` sees the row already there, if any. -/
def upsert (t : Table κ ρ) (k : κ) (new : Option ρ → ρ) : Table κ ρ :=
  Function.update t k (some (new (t k)))

/-- `UPDATE … WHERE key = k`. -/
def update (t : Table κ ρ) (k : κ) (f : ρ → ρ) : Table κ ρ :=
  Function.update t k ((t k).map f)

@[simp] theorem upsert_self (t : Table κ ρ) (k : κ) (new : Option ρ → ρ) :
    t.upsert k new k = some (new (t k)) := by
  simp [upsert]

@[simp] theorem upsert_of_ne (t : Table κ ρ) {k k' : κ} (h : k' ≠ k) (new : Option ρ → ρ) :
    t.upsert k new k' = t k' := by
  simp [upsert, h]

@[simp] theorem update_self (t : Table κ ρ) (k : κ) (f : ρ → ρ) : t.update k f k = (t k).map f := by
  simp [update]

@[simp] theorem update_of_ne (t : Table κ ρ) {k k' : κ} (h : k' ≠ k) (f : ρ → ρ) :
    t.update k f k' = t k' := by
  simp [update, h]

end Table

/-- A table that is also scanned: its rows, no two of which share their primary key. -/
structure KeyedRows {ρ κ : Type*} (key : ρ → κ) where
  rows : List ρ
  keyed : (rows.map key).Nodup

namespace KeyedRows

variable {ρ κ : Type*} {key : ρ → κ}

instance : Membership ρ (KeyedRows key) := ⟨fun t r => r ∈ t.rows⟩

/-- The empty table. -/
def empty : KeyedRows key := ⟨[], List.nodup_nil⟩

/-- `DELETE … WHERE p`. -/
def delete (t : KeyedRows key) (p : ρ → Bool) : KeyedRows key :=
  ⟨t.rows.filter fun r => !p r, t.keyed.sublist (List.filter_sublist.map key)⟩

/-- `SELECT COUNT(*) … WHERE p`. -/
def count (t : KeyedRows key) (p : ρ → Bool) : Nat := (t.rows.filter p).length

/-- `SELECT … WHERE p ORDER BY seq`. -/
def select (t : KeyedRows key) (p : ρ → Bool) (seq : ρ → Nat) : List ρ :=
  (t.rows.filter p).insertionSort fun a b => seq a ≤ seq b

theorem mem_delete {t : KeyedRows key} {p : ρ → Bool} {r : ρ} : r ∈ t.delete p ↔ r ∈ t ∧ p r = false := by
  show r ∈ List.filter _ _ ↔ r ∈ t.rows ∧ _
  simp [List.mem_filter]

theorem mem_select {t : KeyedRows key} {p : ρ → Bool} {seq : ρ → Nat} {r : ρ} :
    r ∈ t.select p seq ↔ r ∈ t ∧ p r = true := by
  show r ∈ List.insertionSort _ _ ↔ r ∈ t.rows ∧ _
  rw [List.mem_insertionSort, List.mem_filter]

/-- A scan is strictly increasing in its column when the column determines the key of the rows scanned. -/
theorem pairwise_select {t : KeyedRows key} {p : ρ → Bool} {seq : ρ → Nat}
    (h : ∀ a b, p a = true → p b = true → seq a = seq b → key a = key b) :
    (t.select p seq).Pairwise fun a b => seq a < seq b := by
  have hle : (t.select p seq).Pairwise fun a b => seq a ≤ seq b := by
    have : Std.Total (fun a b : ρ => seq a ≤ seq b) := ⟨fun a b => Nat.le_total _ _⟩
    have : IsTrans ρ (fun a b => seq a ≤ seq b) := ⟨fun _ _ _ h₁ h₂ => Nat.le_trans h₁ h₂⟩
    exact List.pairwise_insertionSort _ _
  have hkey : (t.select p seq).Pairwise fun a b => key a ≠ key b := by
    have hsub : ((t.rows.filter p).map key).Nodup := t.keyed.sublist (List.filter_sublist.map key)
    have hperm := (List.perm_insertionSort (fun a b => seq a ≤ seq b) (t.rows.filter p)).map key
    exact List.pairwise_map.mp (hperm.nodup_iff.mpr hsub)
  -- rows of the scan with one sequence number would share their key
  refine (hle.and hkey).imp_of_mem fun {a b} ha hb hab => ?_
  rcases Nat.lt_or_eq_of_le hab.1 with hlt | heq
  · exact hlt
  · exact absurd (h a b (mem_select.mp ha).2 (mem_select.mp hb).2 heq) hab.2

variable [DecidableEq κ]

/-- `INSERT OR IGNORE`: a row whose key is taken is dropped. -/
def insertOrIgnore (t : KeyedRows key) (row : ρ) : KeyedRows key :=
  if h : ∃ r ∈ t.rows, key r = key row then t
  else ⟨t.rows ++ [row], by
    rw [List.map_append, List.nodup_append]
    refine ⟨t.keyed, List.nodup_singleton _, ?_⟩
    intro a ha b hb hab
    obtain ⟨x, hx, rfl⟩ := List.mem_map.mp ha
    exact h ⟨x, hx, hab.trans (List.mem_singleton.mp hb)⟩⟩

theorem mem_insertOrIgnore {t : KeyedRows key} {row r : ρ} :
    r ∈ t.insertOrIgnore row ↔ r ∈ t ∨ (r = row ∧ ∀ x ∈ t, key x ≠ key row) := by
  unfold insertOrIgnore
  split
  · rename_i h
    obtain ⟨x, hx, hk⟩ := h
    exact ⟨Or.inl, fun hr => hr.resolve_right fun hn => hn.2 x hx hk⟩
  · rename_i h
    show r ∈ t.rows ++ [row] ↔ r ∈ t.rows ∨ _
    rw [List.mem_append, List.mem_singleton]
    exact or_congr_right ⟨fun he => ⟨he, fun x hx hk => h ⟨x, hx, hk⟩⟩, And.left⟩

/-- A row whose key is taken. -/
theorem insertOrIgnore_of_key {t : KeyedRows key} {row r : ρ} (h : r ∈ t) (hk : key r = key row) :
    t.insertOrIgnore row = t :=
  dif_pos ⟨r, h, hk⟩

theorem mem_insertOrIgnore_of_mem {t : KeyedRows key} {row r : ρ} (h : r ∈ t) :
    r ∈ t.insertOrIgnore row :=
  mem_insertOrIgnore.mpr (Or.inl h)

/-- After the statement there is a row with the inserted key: the new one, or the one in its way. -/
theorem exists_key_insertOrIgnore (t : KeyedRows key) (row : ρ) :
    ∃ x ∈ t.insertOrIgnore row, key x = key row := by
  by_cases h : ∃ x ∈ t, key x = key row
  · obtain ⟨x, hx, hk⟩ := h
    exact ⟨x, mem_insertOrIgnore_of_mem hx, hk⟩
  · exact ⟨row, mem_insertOrIgnore.mpr (Or.inr ⟨rfl, fun x hx hk => h ⟨x, hx, hk⟩⟩), rfl⟩

end KeyedRows
