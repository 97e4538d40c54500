import AgentTx.Stream.Durable

/-!
# `Stream.Immutable` — what becomes of committed output when the turn is committed again

A coordinator that dies after `commit_output` may be followed by one that calls it again, with whatever it
generated. Rows that are there stay and rows that are not are added, so that a later list is laid under the
log: what is left of it is what it has beyond the end of the log (`commit_output_under`).
-/

namespace AgentTx.Stream

open DurableStream

/-- A call of `commit_output` on a turn. One that does not commit is rolled back. -/
structure Commit where
  tokens : List String
  commits : Bool
  deriving DecidableEq, Repr

def Commit.apply (session turn : String) (db : StreamDb) (c : Commit) : StreamDb :=
  if c.commits then commit_output db session turn c.tokens else db

/-- The calls, one after the other. -/
def commitAll (session turn : String) (db : StreamDb) (calls : List Commit) : StreamDb :=
  calls.foldl (Commit.apply session turn) db

/-- What the calls that completed were given. -/
def completed (calls : List Commit) : List (List String) := (calls.filter (·.commits)).map (·.tokens)

/-- The log of the turn is exactly `tokens`, and is reported so. -/
structure Reports (session turn : String) (tokens : List String) (db : StreamDb) : Prop where
  log : Holds session turn tokens db.output_log
  len : output_len db session turn = tokens.length
  read : ∀ seq, tokens_from db session turn seq = ((tokens.zipIdx 1).map Prod.swap).filter fun p => seq ≤ p.1

theorem Holds.reports {session turn : String} {tokens : List String} {db : StreamDb}
    (h : Holds session turn tokens db.output_log) : Reports session turn tokens db :=
  ⟨h, output_len_eq h, tokens_from_eq h⟩

/-- After the first call that completes, the log is that call's list, for ever. -/
def Immutable (session turn : String) (db : StreamDb) (calls : List Commit) : Prop :=
  ∀ n first rest, completed (calls.take n) = first :: rest →
    Reports session turn first (commitAll session turn db (calls.take n))

/-! ## A list under a log -/

/-- `tokens` laid under `log`. -/
def under (log tokens : List String) : List String := log ++ tokens.drop log.length

theorem length_under (log tokens : List String) : (under log tokens).length = max log.length tokens.length := by
  rw [under, List.length_append, List.length_drop]
  omega

theorem under_of_le {log tokens : List String} (h : tokens.length ≤ log.length) : under log tokens = log := by
  rw [under, List.drop_of_length_le h, List.append_nil]

/-- Lists that are no longer than the log leave it. -/
theorem foldl_under_of_le {log : List String} {later : List (List String)}
    (h : ∀ tokens ∈ later, tokens.length ≤ log.length) : later.foldl under log = log := by
  induction later with
  | nil => rfl
  | cons tokens later ih =>
    rw [List.foldl_cons, under_of_le (h tokens List.mem_cons_self)]
    exact ih fun t ht => h t (List.mem_cons_of_mem _ ht)

/-- The log is as long as the longest of them at least. -/
theorem le_length_foldl_under (log : List String) (later : List (List String)) :
    log.length ≤ (later.foldl under log).length ∧
      ∀ tokens ∈ later, tokens.length ≤ (later.foldl under log).length := by
  induction later generalizing log with
  | nil => exact ⟨Nat.le_refl _, nofun⟩
  | cons tokens later ih =>
    obtain ⟨hlog, hlater⟩ := ih (under log tokens)
    rw [length_under] at hlog
    refine ⟨by rw [List.foldl_cons]; omega, fun t ht => ?_⟩
    rcases List.mem_cons.mp ht with rfl | ht
    · rw [List.foldl_cons]
      omega
    · exact hlater t ht

/-! ## What a call does to the log -/

variable {session turn : String}

/-- **Loop.** The insert loop from `seq = k + 1` on, on a log that reaches beyond `k`. -/
theorem insertTokens_under : ∀ (tokens : List String) (k : Nat) (done : List String)
    (log : KeyedRows LogRow.key), Holds session turn done log → k ≤ done.length →
      Holds session turn (done ++ tokens.drop (done.length - k)) (insertTokens session turn (k + 1) tokens log) := by
  intro tokens
  induction tokens with
  | nil =>
    intro k done log h _
    rw [List.drop_nil, List.append_nil]
    exact h
  | cons tok tokens ih =>
    intro k done log h hk
    rcases Nat.lt_or_eq_of_le hk with hlt | rfl
    · -- the row `k + 1` is there
      have hthere : log.insertOrIgnore ⟨session, turn, k + 1, tok⟩ = log :=
        KeyedRows.insertOrIgnore_of_key (h.all k done[k] (List.getElem?_eq_getElem hlt)) rfl
      have hdrop : (tok :: tokens).drop (done.length - k) = tokens.drop (done.length - (k + 1)) := by
        have hsucc : done.length - k = done.length - (k + 1) + 1 := by omega
        rw [hsucc, List.drop_succ_cons]
      rw [insertTokens, hthere, hdrop]
      exact ih (k + 1) done log h hlt
    · rw [Nat.sub_self, List.drop_zero]
      exact holds_insertTokens (tok :: tokens) done log h

/-- **A call lays its list under the log.** -/
theorem commit_output_under {db : StreamDb} {done : List String} (h : Holds session turn done db.output_log)
    (tokens : List String) :
    Holds session turn (under done tokens) (commit_output db session turn tokens).output_log :=
  insertTokens_under tokens 0 done db.output_log h (Nat.zero_le _)

/-- **So do many.** -/
theorem commitAll_under (calls : List Commit) {db : StreamDb} {done : List String}
    (h : Holds session turn done db.output_log) :
    Holds session turn ((completed calls).foldl under done) (commitAll session turn db calls).output_log := by
  induction calls generalizing db done with
  | nil => exact h
  | cons c calls ih =>
    obtain ⟨tokens, commits⟩ := c
    cases commits with
    | true => exact ih (commit_output_under h tokens)
    | false => exact ih h

/-- **Committed output is immutable exactly as long as no later call brings a longer list.** -/
theorem immutable_iff {db : StreamDb} (hfresh : ∀ r ∈ db.output_log, ¬(r.session = session ∧ r.turn = turn))
    (calls : List Commit) :
    Immutable session turn db calls ↔
      ∀ first rest, completed calls = first :: rest → ∀ later ∈ rest, later.length ≤ first.length := by
  have hempty : Holds session turn [] db.output_log :=
    ⟨fun r hr hs ht => absurd ⟨hs, ht⟩ (hfresh r hr), by simp⟩
  have hlog (n : Nat) (first : List String) (rest : List (List String))
      (h : completed (calls.take n) = first :: rest) :
      Holds session turn (rest.foldl under first) (commitAll session turn db (calls.take n)).output_log := by
    have hall := commitAll_under (calls.take n) hempty
    rw [h] at hall
    exact hall
  constructor
  · intro himm first rest hcalls later hlater
    rw [← List.take_length (l := calls)] at hcalls
    have hlen := (himm calls.length first rest hcalls).len
    rw [output_len_eq (hlog calls.length first rest hcalls)] at hlen
    rw [← hlen]
    exact (le_length_foldl_under first rest).2 later hlater
  · intro hle n first rest hcalls
    -- the calls so far are a part of them all
    have hprefix : completed (calls.take n) <+: completed calls := by
      unfold completed
      exact ((List.take_prefix n calls).filter _).map _
    obtain ⟨more, hmore⟩ := hprefix
    rw [hcalls, List.cons_append] at hmore
    have hholds := hlog n first rest hcalls
    rw [foldl_under_of_le fun tokens ht => hle first _ hmore.symm tokens (List.mem_append_left _ ht)] at hholds
    exact hholds.reports

/-- Committed with two tokens and then with one, the output is immutable. Committed with one token and, after a call
    that is rolled back, with two, it is not. -/
theorem immutable_iff_regenerated :
    Immutable "s" "t" ⟨.empty, fun _ => none, .empty⟩ [⟨["a", "b"], true⟩, ⟨["c"], true⟩] ∧
      ¬ Immutable "s" "t" ⟨.empty, fun _ => none, .empty⟩ [⟨["a"], true⟩, ⟨["a"], false⟩, ⟨["b", "c"], true⟩] := by
  have hnone : ∀ r ∈ (⟨.empty, fun _ => none, .empty⟩ : StreamDb).output_log, ¬(r.session = "s" ∧ r.turn = "t") := nofun
  constructor
  · refine (immutable_iff hnone _).mpr fun first rest hcalls later hlater => ?_
    cases hcalls
    obtain rfl : later = ["c"] := List.mem_singleton.mp hlater
    decide
  · intro himm
    have hle := (immutable_iff hnone _).mp himm ["a"] [["b", "c"]] rfl ["b", "c"] List.mem_cons_self
    revert hle
    decide

/-- **A longer regenerated output is mixed in**: two tokens are logged after a list of one. -/
theorem not_immutable_longer :
    ¬ ∀ calls : List Commit, Immutable "s" "t" ⟨.empty, fun _ => none, .empty⟩ calls := by
  intro hall
  have hlen := (hall [⟨["a"], true⟩, ⟨["b", "c"], true⟩] 2 ["a"] [["b", "c"]] rfl).len
  revert hlen
  decide

end AgentTx.Stream
