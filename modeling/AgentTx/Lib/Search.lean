import Mathlib.Algebra.BigOperators.Group.Finset.Basic
import Mathlib.Algebra.Order.BigOperators.Group.Finset
import Mathlib.Data.Set.Finite.Basic
import Mathlib.Logic.Relation

/-!
# `Lib.Search` — exhaustive search of a graph, with a stack and a set of keys

The loop of an explicit-state checker: pop a state, pass over it when its key has been seen, and otherwise
visit it and push those of its successors whose keys have not been seen. The states are told apart by their
keys alone, and the visits are an accumulator.

* `loop_spec` — what has been visited when the loop ends: every reachable state, once;
* `loop_ends` — with finitely many reachable states it ends (`fuelFor`);
* `search_exact` — both, for the search from one state.
-/

namespace Search

variable {σ κ β : Type*}

/-- What is reachable from `s₀` by `succ`. -/
def Reach (succ : σ → List σ) (s₀ : σ) : σ → Prop := Relation.ReflTransGen (fun s t => t ∈ succ s) s₀

variable {key : σ → κ} {succ : σ → List σ} {s₀ s : σ} {stack visited : List σ} {seen : List κ}

/-! ## The invariant -/

/-- **The invariant of the loop.** What has been visited is reachable, was visited once, and has its successors
    visited or on the stack. -/
structure Inv (key : σ → κ) (succ : σ → List σ) (s₀ : σ) (stack : List σ) (seen : List κ) (visited : List σ) :
    Prop where
  keys : ∀ k, k ∈ seen ↔ ∃ s ∈ visited, key s = k
  nodup : visited.Nodup
  reached : ∀ s ∈ visited, Reach succ s₀ s
  pending : ∀ s ∈ stack, Reach succ s₀ s
  root : s₀ ∈ visited ∨ s₀ ∈ stack
  closed : ∀ s ∈ visited, ∀ t ∈ succ s, key t ∈ seen ∨ t ∈ stack

theorem inv_start : Inv key succ s₀ [s₀] [] [] where
  keys := by simp
  nodup := List.nodup_nil
  reached := nofun
  pending s hs := by
    rw [List.mem_singleton.mp hs]
    exact .refl
  root := Or.inr List.mem_cons_self
  closed := nofun

/-- A state whose key has been seen has been visited. -/
theorem Inv.of_seen (h : Inv key succ s₀ stack seen visited) (hkey : Set.InjOn key {s | Reach succ s₀ s})
    (hs : Reach succ s₀ s) (hseen : key s ∈ seen) : s ∈ visited := by
  obtain ⟨t, ht, hk⟩ := (h.keys _).mp hseen
  rw [← hkey (h.reached t ht) hs hk]
  exact ht

theorem Inv.pass (h : Inv key succ s₀ (s :: stack) seen visited) (hkey : Set.InjOn key {s | Reach succ s₀ s})
    (hseen : key s ∈ seen) : Inv key succ s₀ stack seen visited where
  keys := h.keys
  nodup := h.nodup
  reached := h.reached
  pending t ht := h.pending t (List.mem_cons_of_mem _ ht)
  -- what was popped has its key in `seen` already
  root := by
    rcases h.root with hroot | hroot
    · exact Or.inl hroot
    · rcases List.mem_cons.mp hroot with rfl | hroot
      · exact Or.inl (h.of_seen hkey .refl hseen)
      · exact Or.inr hroot
  closed u hu t ht := by
    rcases h.closed u hu t ht with hk | hmem
    · exact Or.inl hk
    · rcases List.mem_cons.mp hmem with rfl | hmem
      · exact Or.inl hseen
      · exact Or.inr hmem

/-- With the stack empty, everything reachable has been visited. -/
theorem Inv.complete (h : Inv key succ s₀ [] seen visited) (hkey : Set.InjOn key {s | Reach succ s₀ s})
    (hs : Reach succ s₀ s) : s ∈ visited := by
  induction hs with
  | refl =>
    rcases h.root with hroot | hroot
    · exact hroot
    · cases hroot
  | tail hu ht ih =>
    rcases h.closed _ ih _ ht with hseen | hmem
    · exact h.of_seen hkey (hu.tail ht) hseen
    · cases hmem

/-! ## The loop -/

variable [DecidableEq κ] (key succ) (visit : β → σ → β)

/-- The states to push after a visit: the successors whose keys are new, the last of them on top. -/
def pushed (seen : List κ) (s : σ) : List σ := ((succ s).filter fun t => key t ∉ seen).reverse

/-- The loop, on a stack with its top first; `none` is that the fuel has run out. -/
def loop : Nat → List σ → List κ → β → Option β
  | _, [], _, acc => some acc
  | 0, _ :: _, _, _ => none
  | fuel + 1, s :: stack, seen, acc =>
      if key s ∈ seen then loop fuel stack seen acc
      else loop fuel (pushed key succ (key s :: seen) s ++ stack) (key s :: seen) (visit acc s)

/-- The search from one state. -/
def search (fuel : Nat) (s₀ : σ) (acc : β) : Option β := loop key succ visit fuel [s₀] [] acc

variable {key succ visit} {acc : β} {fuel : Nat}

theorem loop_seen (h : key s ∈ seen) :
    loop key succ visit (fuel + 1) (s :: stack) seen acc = loop key succ visit fuel stack seen acc := by
  rw [loop, if_pos h]

theorem loop_new (h : key s ∉ seen) :
    loop key succ visit (fuel + 1) (s :: stack) seen acc =
      loop key succ visit fuel (pushed key succ (key s :: seen) s ++ stack) (key s :: seen) (visit acc s) := by
  rw [loop, if_neg h]

theorem mem_pushed {t : σ} : t ∈ pushed key succ seen s ↔ t ∈ succ s ∧ key t ∉ seen := by
  simp [pushed]

/-- More fuel changes nothing. -/
theorem loop_mono {fuel' : Nat} {r : β} (hle : fuel ≤ fuel') (h : loop key succ visit fuel stack seen acc = some r) :
    loop key succ visit fuel' stack seen acc = some r := by
  induction fuel generalizing fuel' stack seen acc with
  | zero =>
    cases stack with
    | nil =>
      cases h
      cases fuel' <;> rfl
    | cons s stack => cases h
  | succ fuel ih =>
    obtain ⟨fuel', rfl⟩ : ∃ m, fuel' = m + 1 := ⟨fuel' - 1, by omega⟩
    have hle' : fuel ≤ fuel' := Nat.le_of_succ_le_succ hle
    cases stack with
    | nil => exact h
    | cons s stack =>
      -- either way both loops do the same
      by_cases hs : key s ∈ seen
      · rw [loop_seen hs] at h ⊢
        exact ih hle' h
      · rw [loop_new hs] at h ⊢
        exact ih hle' h

theorem Inv.push (h : Inv key succ s₀ (s :: stack) seen visited) (hnew : key s ∉ seen) :
    Inv key succ s₀ (pushed key succ (key s :: seen) s ++ stack) (key s :: seen) (visited ++ [s]) := by
  have hs : Reach succ s₀ s := h.pending s List.mem_cons_self
  have hfresh : s ∉ visited := fun hmem => hnew ((h.keys _).mpr ⟨s, hmem, rfl⟩)
  constructor
  case keys =>
    intro k
    simp only [List.mem_cons, h.keys, List.mem_append, List.not_mem_nil, or_false, or_and_right, exists_or,
      exists_eq_left]
    rw [or_comm, eq_comm]
  case nodup =>
    refine List.nodup_append.mpr ⟨h.nodup, List.nodup_singleton s, fun t ht u hu => ?_⟩
    rintro rfl
    rw [List.mem_singleton.mp hu] at ht
    exact hfresh ht
  case reached =>
    intro t ht
    rcases List.mem_append.mp ht with ht | ht
    · exact h.reached t ht
    · rw [List.mem_singleton.mp ht]
      exact hs
  case pending =>
    intro t ht
    rcases List.mem_append.mp ht with ht | ht
    · exact hs.tail (mem_pushed.mp ht).1
    · exact h.pending t (List.mem_cons_of_mem _ ht)
  case root =>
    rcases h.root with hroot | hroot
    · exact Or.inl (List.mem_append_left _ hroot)
    · rcases List.mem_cons.mp hroot with rfl | hroot
      · exact Or.inl (List.mem_append_right _ List.mem_cons_self)
      · exact Or.inr (List.mem_append_right _ hroot)
  -- a successor of the new state has a key that was seen, or is pushed now
  case closed =>
    intro u hu t ht
    by_cases hk : key t ∈ key s :: seen
    · exact Or.inl hk
    · refine Or.inr ?_
      rcases List.mem_append.mp hu with hu | hu
      · rcases h.closed u hu t ht with hseen | hmem
        · exact absurd (List.mem_cons_of_mem _ hseen) hk
        · rcases List.mem_cons.mp hmem with rfl | hmem
          · exact absurd List.mem_cons_self hk
          · exact List.mem_append_right _ hmem
      · rw [List.mem_singleton.mp hu] at ht
        exact List.mem_append_left _ (mem_pushed.mpr ⟨ht, hk⟩)

/-- **Run.** What the loop has accumulated when it ends: one visit to each state that is reachable and had not
    been visited. -/
theorem loop_spec {r : β} (hkey : Set.InjOn key {s | Reach succ s₀ s}) (h : Inv key succ s₀ stack seen visited)
    (hr : loop key succ visit fuel stack seen acc = some r) :
    ∃ new, r = new.foldl visit acc ∧ (visited ++ new).Nodup ∧ ∀ s, s ∈ visited ++ new ↔ Reach succ s₀ s := by
  induction fuel generalizing stack seen acc visited with
  | zero =>
    cases stack with
    | nil =>
      cases hr
      refine ⟨[], rfl, ?_⟩
      rw [List.append_nil]
      exact ⟨h.nodup, fun s => ⟨h.reached s, h.complete hkey⟩⟩
    | cons s stack => cases hr
  | succ fuel ih =>
    cases stack with
    | nil =>
      cases hr
      refine ⟨[], rfl, ?_⟩
      rw [List.append_nil]
      exact ⟨h.nodup, fun s => ⟨h.reached s, h.complete hkey⟩⟩
    | cons s stack =>
      by_cases hs : key s ∈ seen
      · rw [loop_seen hs] at hr
        exact ih (h.pass hkey hs) hr
      · rw [loop_new hs] at hr
        -- this state first, then those that the rest of the loop visits
        obtain ⟨new, hacc, hnodup, hmem⟩ := ih (h.push hs) hr
        rw [List.append_assoc] at hnodup hmem
        exact ⟨s :: new, hacc, hnodup, hmem⟩

/-! ## Termination -/

open Classical in
/-- Fuel for the rest of the loop, when `U` holds the states: the stack, and what the states that have not been
    seen may still push. -/
noncomputable def fuelFor (key : σ → κ) (succ : σ → List σ) (U : Finset σ) (stack : List σ) (seen : List κ) : Nat :=
  stack.length + ∑ s ∈ U.filter (fun s => key s ∉ seen), (succ s).length

/-- A visit uses up what it pushes. -/
theorem fuelFor_visit (succ : σ → List σ) {U : Finset σ} (stack : List σ) (hs : s ∈ U) (hnew : key s ∉ seen) :
    fuelFor key succ U (pushed key succ (key s :: seen) s ++ stack) (key s :: seen) <
      fuelFor key succ U (s :: stack) seen := by
  classical
  have hpushed : (pushed key succ (key s :: seen) s).length ≤ (succ s).length := by
    rw [pushed, List.length_reverse]
    exact List.length_filter_le _ _
  have hmem : s ∈ U.filter (fun s => key s ∉ seen) := Finset.mem_filter.mpr ⟨hs, hnew⟩
  -- this state counts no longer, and its successors are on the stack instead
  have hsub : U.filter (fun t => key t ∉ key s :: seen) ⊆ (U.filter (fun t => key t ∉ seen)).erase s := by
    intro t ht
    obtain ⟨htU, htk⟩ := Finset.mem_filter.mp ht
    refine Finset.mem_erase.mpr ⟨?_, Finset.mem_filter.mpr ⟨htU, fun hk => htk (List.mem_cons_of_mem _ hk)⟩⟩
    rintro rfl
    exact htk List.mem_cons_self
  have hsum := Finset.sum_le_sum_of_subset (f := fun t => (succ t).length) hsub
  have herase := Finset.add_sum_erase _ (fun t => (succ t).length) hmem
  unfold fuelFor
  rw [List.length_append, List.length_cons]
  omega

theorem fuelFor_pass (key : σ → κ) (succ : σ → List σ) (U : Finset σ) (s : σ) (stack : List σ) (seen : List κ) :
    fuelFor key succ U stack seen < fuelFor key succ U (s :: stack) seen := by
  unfold fuelFor
  rw [List.length_cons]
  omega

/-- **Run.** With that much fuel the loop ends. -/
theorem loop_ends {U : Finset σ} (hU : ∀ s, Reach succ s₀ s → s ∈ U) (hstack : ∀ s ∈ stack, Reach succ s₀ s)
    (hfuel : fuelFor key succ U stack seen ≤ fuel) : ∃ r, loop key succ visit fuel stack seen acc = some r := by
  induction fuel generalizing stack seen acc with
  | zero =>
    cases stack with
    | nil => exact ⟨acc, rfl⟩
    | cons s stack =>
      have hlt := Nat.lt_of_lt_of_le (fuelFor_pass key succ U s stack seen) hfuel
      exact absurd hlt (Nat.not_lt_zero _)
  | succ fuel ih =>
    cases stack with
    | nil => exact ⟨acc, rfl⟩
    | cons s stack =>
      have hs : Reach succ s₀ s := hstack s List.mem_cons_self
      have hrest : ∀ t ∈ stack, Reach succ s₀ t := fun t ht => hstack t (List.mem_cons_of_mem _ ht)
      by_cases hk : key s ∈ seen
      · rw [loop_seen hk]
        -- a state that was seen costs one unit of fuel
        have hlt := fuelFor_pass key succ U s stack seen
        exact ih hrest (by omega)
      · rw [loop_new hk]
        -- a new one costs as much as is kept for it and its successors
        have hlt := fuelFor_visit succ stack (hU s hs) hk
        refine ih (fun t ht => ?_) (by omega)
        rcases List.mem_append.mp ht with ht | ht
        · exact hs.tail (mem_pushed.mp ht).1
        · exact hrest t ht

/-- **The search is exhaustive and exact.** With finitely many reachable states, told apart by their keys, it
    ends, and what it accumulates is one visit to each of them. -/
theorem search_exact (visit : β → σ → β) (acc : β) (hkey : Set.InjOn key {s | Reach succ s₀ s})
    (hfin : {s | Reach succ s₀ s}.Finite) :
    ∃ visited : List σ, visited.Nodup ∧ (∀ s, s ∈ visited ↔ Reach succ s₀ s) ∧
      ∃ n, ∀ fuel, n ≤ fuel → search key succ visit fuel s₀ acc = some (visited.foldl visit acc) := by
  have hU : ∀ s, Reach succ s₀ s → s ∈ hfin.toFinset := fun s hs => hfin.mem_toFinset.mpr hs
  have hinv : Inv key succ s₀ [s₀] [] [] := inv_start
  obtain ⟨r, hr⟩ : ∃ r, loop key succ visit (fuelFor key succ hfin.toFinset [s₀] []) [s₀] [] acc = some r :=
    loop_ends hU hinv.pending (Nat.le_refl _)
  obtain ⟨visited, rfl, hnodup, hmem⟩ := loop_spec hkey hinv hr
  rw [List.nil_append] at hnodup
  refine ⟨visited, hnodup, fun s => ?_, _, fun fuel hfuel => loop_mono hfuel hr⟩
  rw [← hmem s, List.nil_append]

end Search
