import Mathlib.Data.Fintype.Option
import Mathlib.Data.Fintype.Pi
import Mathlib.Data.Fintype.Prod
import Mathlib.Data.Set.Card
import Mathlib.Data.Set.Finite.Range
import AgentTx.Checker.Distributed
import AgentTx.Identity
import AgentTx.Lib.Search

/-!
# `Checker.Exhaustive` — the search itself (`check` and `main` of `agenttx/dmodel.py`)

The checker of the distributed protocol searches the states of two coordinators with a stack, tells states apart
by their JSON text, and counts what violates an invariant. That it is exhaustive is not a property of the model
but of the search: the text is a faithful name of a state (`key_injective`), the states under a bounded lease
space are finite (`finite_reachable`), and then the loop visits each of them once (`check_exact`).

Layout of the proof:
* **The text** — canonical JSON of a state, with sorted keys; what `json.dumps` does to the keys is undone field by
  field.
* **Finitely many states** — epochs are bounded by `MAX_EPOCH` in every reachable state (`epoch_le`), and everything
  else in a state is.
* **The search** — `Lib.Search` has the loop: with an injective key and finitely many states it ends, having visited
  each state once. What it reports is then a fold over them (`foldl_visit`).

Main results: `check_exact` and `main_passes`.
-/

namespace AgentTx.Checker.Distributed

/-! ## `check` -/

/-- The value that `c` holds as the program counter. -/
def Pc.text : Pc → String
  | .start => "start"
  | .acquired => "acquired"
  | .claimed => "claimed"
  | .effecting => "effecting"
  | .done => "done"
  | .stale => "stale"
  | .uncertain => "uncertain"

def coordinatorJson (c : Option Nat × Pc) : Json :=
  .arr [c.1.elim .null fun e => .int e, .str c.2.text]

/-- The state, as `json.dumps` takes it: `c` is a tuple of tuples. -/
def State.json (s : State (Fin 2)) : Json :=
  .obj [(.str "owner_epoch", .int s.owner_epoch), (.str "claimed_by", .int s.claimed_by),
    (.str "effect_started", .bool s.effect_started), (.str "committed", .bool s.committed),
    (.str "durable_effect", .int s.durable_effect), (.str "uncertain", .bool s.uncertain),
    (.str "c", .arr [coordinatorJson (s.c 0), coordinatorJson (s.c 1)])]

/-- `json.dumps({k: v for k, v in s.items()}, sort_keys=True, default=str)`. The keys are all strings, so that
    sorting does not fail (`dumpsSorted_json`). -/
def key (s : State (Fin 2)) : String := s.json.dumpsSorted.getD ""

/-- `successors`, of both coordinators. -/
def allSuccessors (MAX_EPOCH : Nat) (klass : Klass) (s : State (Fin 2)) : List (State (Fin 2)) :=
  successors (some MAX_EPOCH) klass s 0 ++ successors (some MAX_EPOCH) klass s 1

inductive Violation where
  | I1_double_effect
  | I3_irreversible_double
  | I4_committed_but_no_effect
  deriving DecidableEq, Repr

/-- What the loop reports of one state. -/
def violationsOf (klass : Klass) (s : State (Fin 2)) : List (Violation × State (Fin 2)) :=
  (if s.durable_effect > 1 then [(.I1_double_effect, s)] else []) ++
  (if klass = .irreversible ∧ s.durable_effect > 1 then [(.I3_irreversible_double, s)] else []) ++
  (if s.committed ∧ s.durable_effect = 0 then [(.I4_committed_but_no_effect, s)] else [])

/-- The result of `check`. -/
structure Report where
  states : Nat
  violations : List (Violation × State (Fin 2))
  n_violations : Nat

/-- `n`, and the list of violations. -/
def visit (klass : Klass) (acc : Nat × List (Violation × State (Fin 2))) (s : State (Fin 2)) :
    Nat × List (Violation × State (Fin 2)) :=
  (acc.1 + 1, acc.2 ++ violationsOf klass s)

/-- The search, with fuel for its loop. -/
def check (MAX_EPOCH : Nat) (klass : Klass) (fuel : Nat) : Option Report :=
  (Search.search key (allSuccessors MAX_EPOCH klass) (visit klass) fuel initial (0, [])).map fun acc =>
    ⟨acc.1, acc.2.take 5, acc.2.length⟩

/-- The classes that `main` checks, in order. -/
def classes : List Klass := [.transactional, .idempotent, .overlay, .irreversible]

/-- `main`: `states_explored` and `violations` of each class, and `MODEL_CHECK_PASS`. -/
def main (MAX_EPOCH fuel : Nat) : Option (List (Klass × Nat × Nat) × Bool) := do
  let res ← classes.mapM fun klass => (check MAX_EPOCH klass fuel).map fun r => (klass, r.states, r.n_violations)
  pure (res, res.all fun r => r.2.2 = 0)

/-! ## A state and its text -/

/-- The record with its keys in order. -/
def State.sorted (s : State (Fin 2)) : Json :=
  .obj [(.str "c", .arr [coordinatorJson (s.c 0), coordinatorJson (s.c 1)]), (.str "claimed_by", .int s.claimed_by),
    (.str "committed", .bool s.committed), (.str "durable_effect", .int s.durable_effect),
    (.str "effect_started", .bool s.effect_started), (.str "owner_epoch", .int s.owner_epoch),
    (.str "uncertain", .bool s.uncertain)]

theorem sortKeys_coordinatorJson (c : Option Nat × Pc) : (coordinatorJson c).sortKeys = some (coordinatorJson c) := by
  obtain ⟨ke, pc⟩ := c
  cases ke <;> rfl

theorem dumpsSorted_json (s : State (Fin 2)) : s.json.dumpsSorted = some s.sorted.dumps := by
  have hc : (Json.arr [coordinatorJson (s.c 0), coordinatorJson (s.c 1)]).sortKeys =
      some (.arr [coordinatorJson (s.c 0), coordinatorJson (s.c 1)]) := by
    simp only [Json.sortKeys, Json.sortItems, sortKeys_coordinatorJson, Option.bind_some, Option.map_some]
  have hsort : s.json.sortKeys = some s.sorted := by
    simp only [State.json, Json.sortKeys, Json.sortValues, Json.sortValue] at hc ⊢
    rw [hc]
    rfl
  rw [Json.dumpsSorted, hsort]
  rfl

theorem Pc.text_injective : Function.Injective Pc.text := by
  intro a b h
  cases a <;> cases b <;> first | rfl | (simp [Pc.text] at h)

theorem stringKeys_coordinatorJson (c : Option Nat × Pc) : (coordinatorJson c).stringKeys = coordinatorJson c := by
  obtain ⟨ke, pc⟩ := c
  cases ke <;> rfl

theorem coordinatorJson_injective : Function.Injective coordinatorJson := by
  rintro ⟨ke, pc⟩ ⟨ke', pc'⟩ h
  cases ke <;> cases ke' <;> simp [coordinatorJson] at h
  · rw [Pc.text_injective h]
  · rw [h.1, Pc.text_injective h.2]

/-- **The text of a state names it.** -/
theorem key_injective : Function.Injective key := by
  intro s t h
  rw [key, key, dumpsSorted_json, dumpsSorted_json] at h
  have hdoc : s.sorted.stringKeys = t.sorted.stringKeys := Json.stringKeys_eq_of_dumps_eq h
  simp only [State.sorted, Json.stringKeys, Json.stringKeysMembers, Json.stringKeysMember, Json.stringKeysItems,
    stringKeys_coordinatorJson, Json.obj.injEq, List.cons.injEq, Prod.mk.injEq, Json.arr.injEq, Json.int.injEq,
    Json.bool.injEq, Int.ofNat_inj, true_and, and_true] at hdoc
  obtain ⟨⟨h0, h1⟩, hclaimed, hcommitted, heffect, hstarted, hepoch, huncertain⟩ := hdoc
  have hc : s.c = t.c :=
    funext (Fin.forall_fin_two.mpr ⟨coordinatorJson_injective h0, coordinatorJson_injective h1⟩)
  cases s
  cases t
  simp_all

/-! ## The states are finite -/

section Finite

variable {MAX_EPOCH : Nat} {klass : Klass} {s s' : State (Fin 2)} {i : Fin 2}

theorem mem_allSuccessors : s' ∈ allSuccessors MAX_EPOCH klass s ↔ ∃ i, Step (some MAX_EPOCH) klass s i s' := by
  rw [allSuccessors, List.mem_append, Fin.exists_fin_two]
  rfl

theorem reach_iff : Search.Reach (allSuccessors MAX_EPOCH klass) initial s ↔ Reachable (some MAX_EPOCH) klass s := by
  constructor
  · intro h
    induction h with
    | refl => exact Lts.Reachable.start rfl
    | tail _ hstep ih =>
      obtain ⟨i, hi⟩ := mem_allSuccessors.mp hstep
      exact ih.step hi
  · rintro ⟨_, _, rfl, hrun⟩
    induction hrun with
    | refl => exact .refl
    | tail _ hstep ih => exact ih.tail (mem_allSuccessors.mpr ⟨_, hstep⟩)

/-- Only `acquire` gives a new epoch, and only below the bound. -/
theorem epoch_of_step (h : Step (some MAX_EPOCH) klass s i s') :
    s'.owner_epoch = s.owner_epoch ∨ s.owner_epoch < MAX_EPOCH ∧ s'.owner_epoch = s.owner_epoch + 1 := by
  unfold Step successors at h
  simp only [List.mem_append] at h
  rcases h with ((((h | h) | h) | h) | h) | h
  · obtain ⟨-, h⟩ := mem_ite h
    rw [List.mem_singleton.mp h]
    exact Or.inl rfl
  · obtain ⟨⟨-, hbelow⟩, h⟩ := mem_ite h
    rw [List.mem_singleton.mp h]
    exact Or.inr ⟨of_decide_eq_true hbelow, rfl⟩
  · obtain ⟨-, h⟩ := mem_ite h
    split_ifs at h
    all_goals
      rw [List.mem_singleton.mp h]
      exact Or.inl rfl
  · obtain ⟨-, h⟩ := mem_ite h
    rw [List.mem_singleton.mp h]
    exact Or.inl rfl
  · obtain ⟨-, h⟩ := mem_ite h
    rw [List.mem_singleton.mp h]
    exact Or.inl rfl
  · obtain ⟨-, h⟩ := mem_ite h
    rw [List.mem_singleton.mp h]
    exact Or.inl rfl

instance : Fintype Pc where
  elems := {.start, .acquired, .claimed, .effecting, .done, .stale, .uncertain}
  complete pc := by cases pc <;> decide

/-- The lease space bounds the epochs. -/
theorem epoch_le (h : Reachable (some MAX_EPOCH) klass s) : s.owner_epoch ≤ MAX_EPOCH := by
  refine Lts.Reachable.invariant (fun s => s.owner_epoch ≤ MAX_EPOCH) ?_ ?_ h
  · rintro _ rfl
    exact Nat.zero_le _
  · intro s i s' _ hle hstep
    rcases epoch_of_step hstep with hsame | ⟨hbelow, hnext⟩
    · rw [hsame]
      exact hle
    · rw [hnext]
      exact hbelow

/-- What two coordinators reach under the bound. -/
def reachable (MAX_EPOCH : Nat) (klass : Klass) : Set (State (Fin 2)) := {s | Reachable (some MAX_EPOCH) klass s}

/-- A state within the bound, field by field. -/
abbrev Shape (MAX_EPOCH : Nat) : Type :=
  (Fin (MAX_EPOCH + 1) × Fin (MAX_EPOCH + 1)) × (Bool × Bool × Bool) × Fin 2 ×
    (Fin 2 → Option (Fin (MAX_EPOCH + 1)) × Pc)

def Shape.state (x : Shape MAX_EPOCH) : State (Fin 2) where
  owner_epoch := x.1.1
  claimed_by := x.1.2
  effect_started := x.2.1.1
  committed := x.2.1.2.1
  durable_effect := x.2.2.1
  uncertain := x.2.1.2.2
  c i := ((x.2.2.2 i).1.map Fin.val, (x.2.2.2 i).2)

/-- **Finitely many states**, under a bounded lease space. -/
theorem finite_reachable (MAX_EPOCH : Nat) (klass : Klass) : (reachable MAX_EPOCH klass).Finite := by
  refine (Set.finite_range (@Shape.state MAX_EPOCH)).subset fun s hs => ?_
  have hinv := inv_of_reachable hs
  have hepoch := epoch_le hs
  have heffect : s.durable_effect < 2 := by
    rw [hinv.effect]
    split_ifs <;> omega
  have hknown : ∀ i, ((s.c i).1.map (Fin.ofNat (MAX_EPOCH + 1))).map Fin.val = (s.c i).1 := by
    intro i
    cases hke : (s.c i).1 with
    | none => rfl
    | some e =>
      have hle := ((hinv.local_ i).known e hke).2
      exact congrArg some (Nat.mod_eq_of_lt (by omega))
  refine ⟨((⟨s.owner_epoch, by omega⟩, ⟨s.claimed_by, by have := hinv.claimed; omega⟩),
    (s.effect_started, s.committed, s.uncertain), ⟨s.durable_effect, heffect⟩,
    fun i => ((s.c i).1.map (Fin.ofNat (MAX_EPOCH + 1)), (s.c i).2)), ?_⟩
  have hc : (fun i => (((s.c i).1.map (Fin.ofNat (MAX_EPOCH + 1))).map Fin.val, (s.c i).2)) = s.c :=
    funext fun i => by rw [hknown]
  rw [Shape.state]
  simp only [hc]

end Finite

/-! ## What the checker reports -/

theorem foldl_visit (klass : Klass) (visited : List (State (Fin 2)))
    (acc : Nat × List (Violation × State (Fin 2))) :
    visited.foldl (visit klass) acc = (acc.1 + visited.length, acc.2 ++ visited.flatMap (violationsOf klass)) := by
  induction visited generalizing acc with
  | nil => simp
  | cons s visited ih =>
    rw [List.foldl_cons, ih, visit, List.length_cons, List.flatMap_cons, List.append_assoc]
    simp only [Prod.mk.injEq, and_true]
    omega

/-- The invariants that the loop looks at: I1 and I4. -/
def Good (s : State (Fin 2)) : Prop := s.durable_effect ≤ 1 ∧ (s.committed = true → s.durable_effect ≠ 0)

theorem violationsOf_eq_nil {klass : Klass} {s : State (Fin 2)} : violationsOf klass s = [] ↔ Good s := by
  unfold violationsOf Good
  constructor
  · intro h
    simp only [List.append_eq_nil_iff, ite_eq_right_iff, List.cons_ne_nil, imp_false] at h
    obtain ⟨⟨h1, -⟩, h4⟩ := h
    exact ⟨by omega, fun hc hz => h4 ⟨hc, hz⟩⟩
  · rintro ⟨h1, h4⟩
    rw [if_neg (by omega), if_neg (by omega), if_neg (fun h => h4 h.1 h.2)]
    rfl

/-- **The checker is exhaustive and exact**, for any bound on the epochs. Given fuel enough its loop ends; it has
    then visited every reachable state, each of them once, and reported of each what violates an invariant; so that
    it reports nothing just when all of them are good. -/
theorem check_exact (MAX_EPOCH : Nat) (klass : Klass) : ∃ visited : List (State (Fin 2)), visited.Nodup ∧
    (∀ s, s ∈ visited ↔ Reachable (some MAX_EPOCH) klass s) ∧ ∃ r n,
      (∀ fuel, n ≤ fuel → check MAX_EPOCH klass fuel = some r) ∧ r.states = visited.length ∧
      r.n_violations = (visited.flatMap (violationsOf klass)).length ∧
      r.violations = (visited.flatMap (violationsOf klass)).take 5 ∧
      (r.n_violations = 0 ↔ ∀ s, Reachable (some MAX_EPOCH) klass s → Good s) := by
  have hfin : {s | Search.Reach (allSuccessors MAX_EPOCH klass) initial s}.Finite := by
    simp only [reach_iff]
    exact finite_reachable MAX_EPOCH klass
  obtain ⟨visited, hnodup, hmem, n, hrun⟩ :=
    Search.search_exact (visit klass) (0, []) key_injective.injOn hfin
  have hmem' : ∀ s, s ∈ visited ↔ Reachable (some MAX_EPOCH) klass s := fun s => (hmem s).trans reach_iff
  have hclean : (visited.flatMap (violationsOf klass)).length = 0 ↔
      ∀ s, Reachable (some MAX_EPOCH) klass s → Good s := by
    rw [List.length_eq_zero_iff, List.flatMap_eq_nil_iff]
    exact forall_congr' fun s => imp_congr (hmem' s) violationsOf_eq_nil
  refine ⟨visited, hnodup, hmem', ⟨visited.length, _, _⟩, n, fun fuel hfuel => ?_, rfl, rfl, rfl, hclean⟩
  rw [check, hrun fuel hfuel, foldl_visit, Nat.zero_add, List.nil_append]
  rfl

theorem good_of_reachable {MAX_EPOCH : Option Nat} {klass : Klass} {s : State (Fin 2)}
    (h : Reachable MAX_EPOCH klass s) : Good s := by
  have heffect := (inv_of_reachable h).effect
  constructor
  · rw [heffect]
    split_ifs <;> omega
  · intro hc
    rw [heffect, if_pos hc]
    exact Nat.one_ne_zero

theorem mapM_eq_some {α β : Type} {f : α → Option β} {g : α → β} (h : ∀ a, f a = some (g a)) (l : List α) :
    l.mapM f = some (l.map g) := by
  induction l with
  | nil => rfl
  | cons a l ih =>
    rw [List.mapM_cons, h, ih]
    rfl

/-- **`MODEL_CHECK_PASS`, whatever the bound.** For every value of `MAX_EPOCH` the four searches end, each has
    explored as many states as are reachable, and none reports a violation. -/
theorem main_passes (MAX_EPOCH : Nat) : ∃ n, ∀ fuel, n ≤ fuel → main MAX_EPOCH fuel =
    some (classes.map fun klass => (klass, (reachable MAX_EPOCH klass).ncard, 0), true) := by
  have hcheck : ∀ klass, ∃ n, ∀ fuel, n ≤ fuel → (check MAX_EPOCH klass fuel).map
      (fun r => (klass, r.states, r.n_violations)) =
        some (klass, (reachable MAX_EPOCH klass).ncard, 0) := by
    intro klass
    obtain ⟨visited, hnodup, hmem, r, n, hrun, hstates, -, -, hclean⟩ := check_exact MAX_EPOCH klass
    refine ⟨n, fun fuel hfuel => ?_⟩
    have hset : reachable MAX_EPOCH klass = {s | s ∈ visited} := Set.ext fun s => (hmem s).symm
    have hcard : Set.ncard {s | s ∈ visited} = visited.length := by
      classical
      rw [← List.coe_toFinset, Set.ncard_coe_finset, List.toFinset_card_of_nodup hnodup]
    rw [hrun fuel hfuel, hset, hcard, ← hstates]
    simp only [Option.map_some, hclean.mpr fun s hs => good_of_reachable hs]
  choose n hn using hcheck
  refine ⟨n .transactional + n .idempotent + n .overlay + n .irreversible, fun fuel hfuel => ?_⟩
  have hall : ∀ klass, n klass ≤ fuel := by
    intro klass
    cases klass <;> omega
  rw [main, mapM_eq_some (fun klass => hn klass fuel (hall klass))]
  rfl

end AgentTx.Checker.Distributed
