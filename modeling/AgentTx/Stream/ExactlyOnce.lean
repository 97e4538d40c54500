import AgentTx.Stream.Workers

/-!
# `Stream.ExactlyOnce` — the client materializes the committed output exactly once

`durable_stream_exactly_once` is the result: over every interleaving of streaming workers, deaths, lost
ACKs and client restarts, the client shows a prefix of the log and never anything else, the server's ACK
never goes back, and a worker that starts after the last restart and finishes leaves the whole output.

The last part follows one worker through a restart-free run with the predicate `Covers`.

Layout of the proof:
* **Safety** — `Inv`, kept by every kind of step (`inv_step`): rows of the log, and nothing else, are received.
* **The watermark** — only the statement that records an ACK moves it, and only up (`server_ack_step`).
* **No token is lost** — `Covers`, kept by every step that is no restart (`covers_step`), and at the worker's end it
  says that everything has been received.
-/

namespace AgentTx.Stream

open DurableStream DurableClient

variable {ω : Type} [DecidableEq ω] {c : DurableClient} {tokens : List String}

/-- The tokens a worker has fetched and not yet delivered. -/
def Worker.todo : Worker → List (Nat × String)
  | .streaming todo | .delivered todo | .acking _ todo => todo
  | _ => []

/-- `p` is a row of the log of `tokens`. -/
def Logged (tokens : List String) (p : Nat × String) : Prop := 1 ≤ p.1 ∧ tokens[p.1 - 1]? = some p.2

/-- The system invariant: safe tables, and workers that only hold logged tokens. -/
structure Inv (c : DurableClient) (tokens : List String) (s : Sys ω) : Prop where
  safe : Safe c tokens s.db
  todo : ∀ i, ∀ p ∈ (s.workers i).todo, Logged tokens p

/-- A worker's own call only shortens its list, except for the fetch, which reads the log. -/
theorem next_todo_logged {db db' : StreamDb} {w w' : Worker} (hsafe : Safe c tokens db)
    (hw : ∀ p ∈ w.todo, Logged tokens p) (h : w.next c db = some (db', w')) :
    ∀ p ∈ w'.todo, Logged tokens p := by
  cases w with
  | start => cases h; intro p hp; cases hp
  | readAck c0 => cases h; intro p hp; cases hp
  | resume r =>
    cases h
    intro p hp
    obtain ⟨h1, -, htok⟩ := (mem_tokens_from hsafe.log).mp hp
    exact ⟨h1, htok⟩
  | streaming l =>
    cases l with
    | nil => cases h; intro p hp; cases hp
    | cons q todo => cases h; intro p hp; exact hw p (List.mem_cons_of_mem _ hp)
  | delivered todo => cases h; exact hw
  | acking a todo => cases h; exact hw
  | finished => cases h
  | dead => cases h

theorem inv_step {s t : Sys ω} {e : Event ω} (h : Inv c tokens s) (hs : Step c s e t) :
    Inv c tokens t := by
  refine ⟨?_, ?_⟩
  · rcases step_db_cases hs with heq | ⟨i, seq, tok, todo, -, hi, heq⟩ | ⟨a, heq⟩ | ⟨-, heq⟩
    · rw [heq]; exact h.safe
    · rw [heq]
      have hlog : Logged tokens (seq, tok) := h.todo i (seq, tok) (by rw [hi]; exact List.mem_cons_self)
      exact h.safe.deliver hlog.1 hlog.2
    · rw [heq]; exact h.safe.record_ack _ _ _ _
    · rw [heq]; exact h.safe.restart
  · intro j
    cases e with
    | next i =>
      obtain ⟨⟨db', w'⟩, hw, rfl⟩ := Option.map_eq_some_iff.mp hs
      by_cases hij : j = i
      · subst hij
        rw [Sys.put_self]
        exact next_todo_logged h.safe (h.todo j) hw
      · rw [Sys.put_of_ne s hij]; exact h.todo j
    | dropAck i =>
      simp only [Lts.ofFun, step] at hs
      split at hs
      · rename_i todo hi
        cases hs
        by_cases hij : j = i
        · subst hij
          rw [Sys.put_self]
          have := h.todo j
          rw [hi] at this
          exact this
        · rw [Sys.put_of_ne s hij]; exact h.todo j
      · cases hs
    | die i =>
      cases hs
      by_cases hij : j = i
      · subst hij
        rw [Sys.put_self]
        intro p hp; cases hp
      · rw [Sys.put_of_ne s hij]; exact h.todo j
    | restart => cases hs; exact h.todo j

/-! ## The server's watermark -/

theorem server_ack_step {s t : Sys ω} {e : Event ω} (hs : Step c s e t) :
    server_ack s.db c.session c.turn c.client_id ≤ server_ack t.db c.session c.turn c.client_id := by
  rcases step_db_cases hs with heq | ⟨i, seq, tok, todo, -, -, heq⟩ | ⟨a, heq⟩ | ⟨-, heq⟩
  · rw [heq]
  · rw [heq]; exact Nat.le_refl _
  · rw [heq]
    exact server_ack_record_ack s.db _ _ _ a
  · rw [heq]; exact Nat.le_refl _

/-! ## No token is lost -/

/-- Where worker `w` stands, every token it is not going to deliver has been received. -/
def Covers (c : DurableClient) (tokens : List String) (db : StreamDb) : Worker → Prop
  | .start | .dead => True
  | .readAck c0 => ∀ j, 1 ≤ j → j ≤ c0 → Received c db j
  | .resume r => ∀ j, 1 ≤ j → j < r → Received c db j
  | .streaming todo | .delivered todo | .acking _ todo =>
      ∀ j, 1 ≤ j → j ≤ tokens.length → Received c db j ∨ ∃ tok, (j, tok) ∈ todo
  | .finished => ∀ j, 1 ≤ j → j ≤ tokens.length → Received c db j

/-- Other steps only add received tokens, which keeps a worker covered. -/
theorem Covers.mono {db db' : StreamDb} (hmono : ∀ j, Received c db j → Received c db' j) {w : Worker}
    (h : Covers c tokens db w) : Covers c tokens db' w := by
  cases w with
  | start => trivial
  | dead => trivial
  | readAck c0 => exact fun j h1 hj => hmono j (h j h1 hj)
  | resume r => exact fun j h1 hj => hmono j (h j h1 hj)
  | finished => exact fun j h1 hj => hmono j (h j h1 hj)
  | streaming todo | delivered todo | acking a todo =>
    exact fun j h1 hj => (h j h1 hj).imp_left (hmono j)

/-- A worker's own call keeps it covered. -/
theorem Covers.next {db db' : StreamDb} {w w' : Worker} (hsafe : Safe c tokens db)
    (h : Covers c tokens db w) (hw : w.next c db = some (db', w')) : Covers c tokens db' w' := by
  cases w with
  | start =>
    cases hw
    exact fun j h1 hj => received_of_le_ack h1 hj
  | readAck c0 =>
    cases hw
    -- the resume point is at most one past the watermark that was read
    exact fun j h1 hj => h j h1 (by omega)
  | resume r =>
    cases hw
    intro j h1 hj
    by_cases hlt : j < r
    · exact Or.inl (h j h1 hlt)
    · right
      have hidx : tokens[j - 1]? = some tokens[j - 1] := List.getElem?_eq_getElem (by omega)
      exact ⟨_, (mem_tokens_from hsafe.log).mpr ⟨h1, Nat.le_of_not_lt hlt, hidx⟩⟩
  | streaming l =>
    cases l with
    | nil =>
      cases hw
      intro j h1 hj
      rcases h j h1 hj with hr | ⟨tok, hmem⟩
      · exact hr
      · cases hmem
    | cons p todo =>
      cases hw
      intro j h1 hj
      rcases h j h1 hj with ⟨tok, hmem⟩ | ⟨tok, hmem⟩
      · exact Or.inl ⟨tok, mem_rows.mpr (KeyedRows.mem_insertOrIgnore_of_mem (mem_rows.mp hmem))⟩
      · rcases List.mem_cons.mp hmem with heq | hmem
        · left
          have hj : j = p.1 := congrArg Prod.fst heq
          rw [hj]
          exact received_deliver p.1 p.2
        · exact Or.inr ⟨tok, hmem⟩
  | delivered todo => cases hw; exact h
  | acking a todo =>
    cases hw
    exact h
  | finished => cases hw
  | dead => cases hw

/-- **A restart-free step keeps a worker covered.** -/
theorem covers_step {s t : Sys ω} {e : Event ω} {i : ω} (hinv : Inv c tokens s)
    (h : Covers c tokens s.db (s.workers i)) (hs : Step c s e t) (hr : e ≠ .restart) :
    Covers c tokens t.db (t.workers i) := by
  -- what the client has stays, except over a restart
  have hmono : ∀ j, Received c s.db j → Received c t.db j := fun j hj => hj.step hs hr
  cases e with
  | next k =>
    by_cases hik : i = k
    · subst hik
      obtain ⟨⟨db', w'⟩, hw, rfl⟩ := Option.map_eq_some_iff.mp hs
      rw [Sys.put_self]
      exact h.next hinv.safe hw
    · obtain ⟨⟨db', w'⟩, hw, rfl⟩ := Option.map_eq_some_iff.mp hs
      rw [Sys.put_of_ne s hik]
      exact h.mono hmono
  | dropAck k =>
    simp only [Lts.ofFun, step] at hs
    split at hs
    · rename_i todo hk
      cases hs
      by_cases hik : i = k
      · subst hik
        rw [Sys.put_self]
        rw [hk] at h
        exact h
      · rw [Sys.put_of_ne s hik]
        exact h
    · cases hs
  | die k =>
    cases hs
    by_cases hik : i = k
    · subst hik
      rw [Sys.put_self]
      trivial
    · rw [Sys.put_of_ne s hik]
      exact h
  | restart => exact absurd rfl hr

/-- The run lemma: over a run without a restart the worker stays covered. -/
theorem covers_exec {s t : Sys ω} {es : List (Event ω)} {i : ω} (hrun : Lts.Exec (Step c) s es t)
    (hno : .restart ∉ es) (hinv : Inv c tokens s) (h : Covers c tokens s.db (s.workers i)) :
    Inv c tokens t ∧ Covers c tokens t.db (t.workers i) := by
  induction hrun with
  | refl => exact ⟨hinv, h⟩
  | tail hpre hs ih =>
    rename_i e
    have hne : e ≠ .restart := fun he => hno (by rw [he]; simp)
    obtain ⟨hinv', hcov⟩ := ih fun hm => hno (List.mem_append_left _ hm)
    exact ⟨inv_step hinv' hs, covers_step hinv' hcov hs hne⟩

/-! ## The result -/

/-- The output was committed by one `commit_output` on a turn without any, the client has received
    nothing, and no worker has started. -/
def Start (c : DurableClient) (tokens : List String) (s : Sys ω) : Prop :=
  (∃ db, (∀ r ∈ db.output_log, ¬(r.session = c.session ∧ r.turn = c.turn)) ∧
    (∀ r ∈ db.client_recv, ¬c.Owns r) ∧ s.db = commit_output db c.session c.turn tokens) ∧
  ∀ i, s.workers i = .start

omit [DecidableEq ω] in
theorem inv_start {s : Sys ω} (h : Start c tokens s) : Inv c tokens s := by
  obtain ⟨⟨db, hlog, hrecv, heq⟩, hw⟩ := h
  refine ⟨⟨?_, ?_⟩, ?_⟩
  · rw [heq]; exact commit_output_holds tokens hlog
  · rw [heq]; exact fun r hr ho => absurd ho (hrecv r hr)
  · intro i p hp
    rw [hw i] at hp; cases hp

theorem inv_reachable {s : Sys ω} (h : Lts.Reachable (Step c) (Start c tokens) s) : Inv c tokens s :=
  h.invariant (Inv c tokens) (fun _ => inv_start) fun _ _ _ _ => inv_step

/-- **Durable output streaming is exactly-once.** In every reachable state the received rows are rows of
    the log and the client shows the first `ack()` tokens of it; no step takes the server's ACK back; and
    a worker that starts after the last restart and finishes leaves the client with the whole output. -/
theorem durable_stream_exactly_once (c : DurableClient) (tokens : List String) :
    (∀ s : Sys ω, Lts.Reachable (Step c) (Start c tokens) s →
      (∀ r ∈ s.db.client_recv, c.Owns r → ⟨r.session, r.turn, r.seq, r.token⟩ ∈ s.db.output_log) ∧
      (tokens_from s.db c.session c.turn 1).map Prod.snd = tokens ∧
      c.materialized s.db =
        ((tokens_from s.db c.session c.turn 1).map Prod.snd).take (c.ack s.db)) ∧
    (∀ (s t : Sys ω) (e : Event ω), Lts.Reachable (Step c) (Start c tokens) s → Step c s e t →
      server_ack s.db c.session c.turn c.client_id ≤ server_ack t.db c.session c.turn c.client_id) ∧
    (∀ (s t : Sys ω) (es : List (Event ω)) (i : ω), Lts.Reachable (Step c) (Start c tokens) s →
      s.workers i = .start → Lts.Exec (Step c) s es t → .restart ∉ es → t.workers i = .finished →
      c.materialized t.db = tokens) := by
  refine ⟨?_, ?_, ?_⟩
  · intro s hreach
    have hinv := inv_reachable hreach
    refine ⟨hinv.safe.recv, tokens_from_one hinv.safe.log, ?_⟩
    rw [tokens_from_one hinv.safe.log]
    exact hinv.safe.materialized_eq
  · intro s t e _ hs
    exact server_ack_step hs
  · intro s t es i hreach hstart hrun hno hfin
    have hcov : Covers c tokens s.db (s.workers i) := by rw [hstart]; trivial
    obtain ⟨hinv, hcov'⟩ := covers_exec hrun hno (inv_reachable hreach) hcov
    rw [hfin] at hcov'
    exact hinv.safe.materialized_all hcov'

/-! ### A run

The first worker delivers a token, records its ACK and dies; the client restarts, and what it has received is gone;
the second worker starts from the beginning, loses an ACK, and comes to its end. -/

def client : DurableClient := ⟨"s", "t", "c"⟩

/-- Two workers on an output of two tokens. -/
def committed : Sys Bool := ⟨commit_output ⟨.empty, fun _ => none, .empty⟩ "s" "t" ["a", "b"], fun _ => .start⟩

theorem start_committed : Start client ["a", "b"] committed :=
  ⟨⟨⟨.empty, fun _ => none, .empty⟩, nofun, nofun, rfl⟩, fun _ => rfl⟩

theorem durable_stream_exactly_once_restarted : ∃ (r s t : Sys Bool) (es : List (Event Bool)),
    Lts.Reachable (Step client) (Start client ["a", "b"]) r ∧ r.workers false = .dead ∧
      client.materialized r.db = ["a"] ∧ Step client r .restart s ∧ client.materialized s.db = [] ∧
      Lts.Exec (Step client) s es t ∧ .dropAck true ∈ es ∧ t.workers true = .finished ∧
      client.materialized t.db = ["a", "b"] := by
  let read (i : Bool) : List (Event Bool) := [.next i, .next i, .next i]
  let deliver (i : Bool) : List (Event Bool) := [.next i, .next i, .next i]
  let first := read false ++ deliver false ++ [.die false]
  -- the token delivered, and its ACK dropped
  let second := read true ++ [.next true, .dropAck true] ++ deliver true ++ [.next true]
  obtain ⟨r, s, t, hfirst, hrestart, hsecond, hdead, htoken, hgone, hstart, hfin⟩ : ∃ r s t,
      Lts.runAll (step client) committed first = some r ∧ step client r .restart = some s ∧
      Lts.runAll (step client) s second = some t ∧ r.workers false = .dead ∧
      client.materialized r.db = ["a"] ∧ client.materialized s.db = [] ∧ s.workers true = .start ∧
      t.workers true = .finished := ⟨_, _, _, rfl, rfl, rfl, rfl, rfl, rfl, rfl, rfl⟩
  have hr : Lts.Reachable (Step client) (Start client ["a", "b"]) r :=
    ⟨_, _, start_committed, Lts.runAll_exec hfirst⟩
  have hs : Lts.Reachable (Step client) (Start client ["a", "b"]) s := hr.step hrestart
  have hrun : Lts.Exec (Step client) s second t := Lts.runAll_exec hsecond
  have hno : .restart ∉ second := by simp [second, read, deliver]
  have hall : client.materialized t.db = ["a", "b"] :=
    (durable_stream_exactly_once client ["a", "b"]).2.2 s t second true hs hstart hrun hno hfin
  exact ⟨r, s, t, second, hr, hdead, htoken, hrestart, hgone, hrun, by simp [second], hfin, hall⟩

end AgentTx.Stream
