import AgentTx.Lib.Table

/-!
# `Stream.Durable` — the durable output log and its client (`agenttx/durable_stream.py`)

Three tables: `output_log` (the committed tokens, written before anything is sent), `stream_ack` (the ACK
watermark the server knows) and `client_recv` (what a client has durably received). `DurableStream` is
the server side, `DurableClient` the client side; both are functions on the tables, each ending in its
own `commit`, so one call is one durable step.
-/

namespace AgentTx.Stream

/-- A row of `output_log(session, turn, seq, token)`. -/
structure LogRow where
  session : String
  turn : String
  seq : Nat
  token : String
  deriving DecidableEq, Repr

/-- A row of `client_recv(session, turn, client_id, seq, token)`. -/
structure RecvRow where
  session : String
  turn : String
  client_id : String
  seq : Nat
  token : String
  deriving DecidableEq, Repr

def LogRow.key (r : LogRow) : String × String × Nat := (r.session, r.turn, r.seq)
def RecvRow.key (r : RecvRow) : String × String × String × Nat := (r.session, r.turn, r.client_id, r.seq)

/-- The database of the output plane. -/
structure StreamDb where
  output_log : KeyedRows LogRow.key
  stream_ack : Table (String × String × String) Nat
  client_recv : KeyedRows RecvRow.key

/-! ## `DurableStream` — the server side -/

namespace DurableStream

/-- The loop of `commit_output` over `enumerate(tokens, 1)`, from sequence number `seq`. -/
def insertTokens (session turn : String) :
    Nat → List String → KeyedRows LogRow.key → KeyedRows LogRow.key
  | _, [], log => log
  | seq, tok :: toks, log =>
      insertTokens session turn (seq + 1) toks (log.insertOrIgnore ⟨session, turn, seq, tok⟩)

/-- Persist the turn's output tokens before any worker may send them. -/
def commit_output (db : StreamDb) (session turn : String) (tokens : List String) : StreamDb :=
  { db with output_log := insertTokens session turn 1 tokens db.output_log }

/-- How many tokens are logged. -/
def output_len (db : StreamDb) (session turn : String) : Nat :=
  db.output_log.count fun r => r.session = session ∧ r.turn = turn

/-- The logged `(seq, token)` pairs from `seq` on, in order. -/
def tokens_from (db : StreamDb) (session turn : String) (seq : Nat) : List (Nat × String) :=
  (db.output_log.select (fun r => r.session = session ∧ r.turn = turn ∧ seq ≤ r.seq) LogRow.seq).map
    fun r => (r.seq, r.token)

def server_ack (db : StreamDb) (session turn client_id : String) : Nat :=
  (db.stream_ack (session, turn, client_id)).getD 0

/-- Persist the server's knowledge of the client's ACK; `MAX` keeps it from going back. -/
def record_ack (db : StreamDb) (session turn client_id : String) (ack_seq : Nat) : StreamDb :=
  { db with
    stream_ack := db.stream_ack.upsert (session, turn, client_id) fun old =>
      match old with
      | none => ack_seq
      | some cur => max cur ack_seq }

end DurableStream

/-! ## `DurableClient` — the client side -/

/-- A client is its key columns; what it has received is in the database. -/
structure DurableClient where
  session : String
  turn : String
  client_id : String
  deriving DecidableEq, Repr

namespace DurableClient

/-- The client's rows, by sequence number. -/
def rows (c : DurableClient) (db : StreamDb) : List (Nat × String) :=
  (db.client_recv.select
      (fun r => r.session = c.session ∧ r.turn = c.turn ∧ r.client_id = c.client_id) RecvRow.seq).map
    fun r => (r.seq, r.token)

/-- The loop of `ack`, with `ack` the watermark so far: a gap ends it. -/
def ackLoop : Nat → List (Nat × String) → Nat
  | ack, [] => ack
  | ack, (seq, _) :: rows =>
      if seq = ack + 1 then ackLoop seq rows
      else if seq > ack + 1 then ack
      else ackLoop ack rows

/-- Highest contiguous sequence number durably received. -/
def ack (c : DurableClient) (db : StreamDb) : Nat := ackLoop 0 (c.rows db)

/-- Materialize a delivered token; a re-send is ignored by the primary key. -/
def deliver (c : DurableClient) (db : StreamDb) (seq : Nat) (token : String) : StreamDb :=
  { db with
    client_recv := db.client_recv.insertOrIgnore ⟨c.session, c.turn, c.client_id, seq, token⟩ }

/-- The loop of `materialized`. -/
def materializedLoop : Nat → List (Nat × String) → List String
  | _, [] => []
  | ack, (seq, tok) :: rows =>
      if seq = ack + 1 then tok :: materializedLoop seq rows
      else if seq > ack + 1 then []
      else materializedLoop ack rows

/-- The in-order tokens of the contiguous prefix. -/
def materialized (c : DurableClient) (db : StreamDb) : List String := materializedLoop 0 (c.rows db)

/-- A client restart loses what was received. -/
def restart (c : DurableClient) (db : StreamDb) : StreamDb :=
  { db with
    client_recv := db.client_recv.delete fun r =>
      r.session = c.session ∧ r.turn = c.turn ∧ r.client_id = c.client_id }

end DurableClient

/-! ## What the log holds after `commit_output` -/

open DurableStream DurableClient

/-- `log` holds exactly `tokens`, numbered from 1, for the turn. -/
structure Holds (session turn : String) (tokens : List String) (log : KeyedRows LogRow.key) : Prop where
  only : ∀ r ∈ log, r.session = session → r.turn = turn →
    1 ≤ r.seq ∧ tokens[r.seq - 1]? = some r.token
  all : ∀ i tok, tokens[i]? = some tok → ⟨session, turn, i + 1, tok⟩ ∈ log

/-- The insert loop, started at `seq = done.length + 1` on a log that holds `done`. -/
theorem holds_insertTokens {session turn : String} :
    ∀ (toks done : List String) (log : KeyedRows LogRow.key), Holds session turn done log →
      Holds session turn (done ++ toks) (insertTokens session turn (done.length + 1) toks log) := by
  intro toks
  induction toks with
  | nil => intro done log h; simpa [insertTokens] using h
  | cons tok toks ih =>
    intro done log h
    -- the next sequence number is free, so that `INSERT OR IGNORE` inserts
    have hnew : ∀ x ∈ log, x.key ≠ LogRow.key ⟨session, turn, done.length + 1, tok⟩ := by
      intro x hx hk
      simp only [LogRow.key, Prod.mk.injEq] at hk
      have hlt := (List.getElem?_eq_some_iff.mp (h.only x hx hk.1 hk.2.1).2).1
      omega
    have hstep : Holds session turn (done ++ [tok])
        (log.insertOrIgnore ⟨session, turn, done.length + 1, tok⟩) := by
      refine ⟨?_, ?_⟩
      · intro r hr hs ht
        rcases KeyedRows.mem_insertOrIgnore.mp hr with hold | ⟨rfl, _⟩
        · obtain ⟨h1, h2⟩ := h.only r hold hs ht
          refine ⟨h1, ?_⟩
          rw [List.getElem?_append_left (List.getElem?_eq_some_iff.mp h2).1]
          exact h2
        · simp
      · intro i tok' hi
        rw [KeyedRows.mem_insertOrIgnore]
        by_cases hlt : i < done.length
        · left
          rw [List.getElem?_append_left hlt] at hi
          exact h.all i tok' hi
        · right
          rw [List.getElem?_append_right (by omega), List.getElem?_singleton] at hi
          split at hi
          · rename_i hz
            have hid : i = done.length := by omega
            cases hi; subst hid
            exact ⟨rfl, hnew⟩
          · cases hi
    have := ih (done ++ [tok]) _ hstep
    simpa [insertTokens, List.append_assoc] using this

/-- **`commit_output` fills the log of a fresh turn with its tokens.** -/
theorem commit_output_holds {db : StreamDb} {session turn : String} (tokens : List String)
    (hfresh : ∀ r ∈ db.output_log, ¬(r.session = session ∧ r.turn = turn)) :
    Holds session turn tokens (commit_output db session turn tokens).output_log := by
  have h₀ : Holds session turn [] db.output_log :=
    ⟨fun r hr hs ht => absurd ⟨hs, ht⟩ (hfresh r hr), by simp⟩
  simpa [commit_output] using holds_insertTokens tokens [] _ h₀

/-- On a log that holds `tokens`, `tokens_from` lists logged tokens only. -/
theorem mem_tokens_from {db : StreamDb} {session turn : String} {tokens : List String}
    (h : Holds session turn tokens db.output_log) {r : Nat} {p : Nat × String} :
    p ∈ tokens_from db session turn r ↔ 1 ≤ p.1 ∧ r ≤ p.1 ∧ tokens[p.1 - 1]? = some p.2 := by
  obtain ⟨seq, tok⟩ := p
  simp only [tokens_from, List.mem_map, KeyedRows.mem_select, decide_eq_true_eq]
  constructor
  · rintro ⟨row, ⟨hrow, hs, ht, hr⟩, heq⟩
    cases heq
    obtain ⟨h1, h2⟩ := h.only row hrow hs ht
    exact ⟨h1, hr, h2⟩
  · rintro ⟨h1, hr, htok⟩
    have hmem := h.all (seq - 1) tok htok
    rw [Nat.sub_add_cancel h1] at hmem
    exact ⟨_, ⟨hmem, rfl, rfl, hr⟩, rfl⟩

/-- The tokens come in strictly increasing sequence numbers. -/
theorem pairwise_tokens_from (db : StreamDb) (session turn : String) (seq : Nat) :
    (tokens_from db session turn seq).Pairwise fun p q => p.1 < q.1 := by
  unfold tokens_from
  rw [List.pairwise_map]
  refine KeyedRows.pairwise_select fun a b ha hb hab => ?_
  simp only [decide_eq_true_eq] at ha hb
  have hseq : a.seq = b.seq := hab
  simp only [LogRow.key]
  rw [ha.1, ha.2.1, hb.1, hb.2.1, hseq]

/-- **The log reads back as the committed tokens, numbered and in order.** -/
theorem tokens_from_eq {db : StreamDb} {session turn : String} {tokens : List String}
    (h : Holds session turn tokens db.output_log) (seq : Nat) :
    tokens_from db session turn seq = ((tokens.zipIdx 1).map Prod.swap).filter fun p => seq ≤ p.1 := by
  have hlog := pairwise_tokens_from db session turn seq
  have htok : ((tokens.zipIdx 1).map Prod.swap).Pairwise fun p q => p.1 < q.1 := by
    rw [List.pairwise_map]
    have hrange : (List.range' 1 tokens.length).Pairwise (· < ·) := List.pairwise_lt_range' 1
    rw [← List.zipIdx_map_snd 1 tokens, List.pairwise_map] at hrange
    exact hrange
  have : Std.Antisymm fun p q : Nat × String => p.1 < q.1 :=
    ⟨fun p q h₁ h₂ => absurd h₂ (Nat.lt_asymm h₁)⟩
  have : Std.Irrefl fun p q : Nat × String => p.1 < q.1 := ⟨fun p => Nat.lt_irrefl _⟩
  -- both lists are increasing, so that it is enough that they have the same members
  refine List.Pairwise.eq_of_mem_iff hlog (htok.filter _) fun p => ?_
  rw [mem_tokens_from h, List.mem_filter, List.mem_map, decide_eq_true_eq]
  constructor
  · rintro ⟨h1, hseq, htok⟩
    exact ⟨⟨(p.2, p.1), List.mem_zipIdx_iff_le_and_getElem?_sub.mpr ⟨h1, htok⟩, rfl⟩, hseq⟩
  · rintro ⟨⟨q, hq, rfl⟩, hseq⟩
    obtain ⟨h1, htok⟩ := List.mem_zipIdx_iff_le_and_getElem?_sub.mp hq
    exact ⟨h1, hseq, htok⟩

theorem tokens_from_one {db : StreamDb} {session turn : String} {tokens : List String}
    (h : Holds session turn tokens db.output_log) :
    (tokens_from db session turn 1).map Prod.snd = tokens := by
  have hall : ((tokens.zipIdx 1).map Prod.swap).filter (fun p => 1 ≤ p.1) = (tokens.zipIdx 1).map Prod.swap := by
    rw [List.filter_eq_self]
    intro p hp
    obtain ⟨q, hq, rfl⟩ := List.mem_map.mp hp
    exact decide_eq_true (List.mem_zipIdx_iff_le_and_getElem?_sub.mp hq).1
  rw [tokens_from_eq h, hall, List.map_map]
  exact List.zipIdx_map_fst 1 tokens

theorem output_len_eq {db : StreamDb} {session turn : String} {tokens : List String}
    (h : Holds session turn tokens db.output_log) : output_len db session turn = tokens.length := by
  have hscan : output_len db session turn = (tokens_from db session turn 0).length := by
    simp [output_len, tokens_from, KeyedRows.count, KeyedRows.select]
  rw [hscan, tokens_from_eq h]
  simp

/-- Recording an ACK never takes the server's watermark back. -/
theorem server_ack_record_ack (db : StreamDb) (session turn client_id : String) (a : Nat) :
    server_ack db session turn client_id ≤
      server_ack (record_ack db session turn client_id a) session turn client_id := by
  unfold server_ack
  simp only [record_ack, Table.upsert_self, Option.getD_some]
  cases db.stream_ack (session, turn, client_id) with
  | none => exact Nat.zero_le _
  | some cur => exact Nat.le_max_left cur a

/-! ## The watermark and the materialized prefix of a strictly increasing scan -/

/-- The watermark: everything up to it is there, its successor is not. -/
theorem ackLoop_spec : ∀ (a : Nat) (l : List (Nat × String)), l.Pairwise (·.1 < ·.1) →
    a ≤ ackLoop a l ∧ (∀ j, a < j → j ≤ ackLoop a l → ∃ tok, (j, tok) ∈ l) ∧
      ∀ tok, (ackLoop a l + 1, tok) ∉ l := by
  intro a l
  induction l generalizing a with
  | nil => intro _; simp [ackLoop]
  | cons p l ih =>
    obtain ⟨seq, tok⟩ := p
    intro hp
    obtain ⟨hhead, htail⟩ := List.pairwise_cons.mp hp
    unfold ackLoop
    split
    · rename_i hseq
      -- the number that was due: it counts, and the loop goes on from it
      obtain ⟨hle, hall, hnot⟩ := ih seq htail
      refine ⟨by omega, ?_, ?_⟩
      · intro j hj hjle
        by_cases hjs : j = seq
        · exact ⟨tok, by simp [hjs]⟩
        · obtain ⟨tok', hmem⟩ := hall j (by omega) hjle
          exact ⟨tok', List.mem_cons_of_mem _ hmem⟩
      · intro tok' hmem
        rcases List.mem_cons.mp hmem with heq | hmem
        · have := congrArg Prod.fst heq; simp only at this; omega
        · exact hnot tok' hmem
    · split
      · -- a gap: the loop stops, and the list is sorted, so the number due does not come
        rename_i _ hgap
        refine ⟨Nat.le_refl a, fun j h₁ h₂ => by omega, ?_⟩
        intro tok' hmem
        rcases List.mem_cons.mp hmem with heq | hmem
        · have := congrArg Prod.fst heq; simp only at this; omega
        · have := hhead _ hmem; simp only at this; omega
      · -- a number that was acknowledged already
        rename_i hne hng
        obtain ⟨hle, hall, hnot⟩ := ih a htail
        refine ⟨hle, ?_, ?_⟩
        · intro j hj hjle
          obtain ⟨tok', hmem⟩ := hall j hj hjle
          exact ⟨tok', List.mem_cons_of_mem _ hmem⟩
        · intro tok' hmem
          rcases List.mem_cons.mp hmem with heq | hmem
          · have := congrArg Prod.fst heq; simp only at this; omega
          · exact hnot tok' hmem

/-- The materialized tokens are the log's, from the watermark the loop started at to the one it ends at. -/
theorem materializedLoop_eq (tokens : List String) : ∀ (a : Nat) (l : List (Nat × String)),
    (∀ p ∈ l, tokens[p.1 - 1]? = some p.2) →
      materializedLoop a l = (tokens.drop a).take (ackLoop a l - a) ∧ a ≤ ackLoop a l := by
  intro a l
  induction l generalizing a with
  | nil => intro _; simp [materializedLoop, ackLoop]
  | cons p l ih =>
    obtain ⟨seq, tok⟩ := p
    intro hl
    have hrest : ∀ p ∈ l, tokens[p.1 - 1]? = some p.2 := fun p hp => hl p (List.mem_cons_of_mem _ hp)
    unfold materializedLoop ackLoop
    split
    · rename_i hseq
      subst hseq
      obtain ⟨heq, hle⟩ := ih (a + 1) hrest
      have htok : tokens[a]? = some tok := by simpa using hl _ List.mem_cons_self
      obtain ⟨hlt, hget⟩ := List.getElem?_eq_some_iff.mp htok
      refine ⟨?_, by omega⟩
      rw [heq, List.drop_eq_getElem_cons hlt, hget,
        show ackLoop (a + 1) l - a = (ackLoop (a + 1) l - (a + 1)) + 1 by omega, List.take_succ_cons]
    · split
      · simp
      · exact ih a hrest

end AgentTx.Stream
