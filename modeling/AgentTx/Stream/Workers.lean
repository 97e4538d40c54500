import AgentTx.Lib.Lts
import AgentTx.Stream.Durable

/-!
# `Stream.Workers` — racing streaming workers over one durable log (`phase9/durable_stream_gate.py`)

Any number of workers stream one turn's log to one client. Each database call of a worker is a step of
its own, so other workers, a lost ACK, a worker death or a client restart can fall between any two of
them. The workers are indexed by an arbitrary type `ω`; their common state is the database.

The invariant is about the tables alone (`Safe`): every received row is a logged one. Loss-freedom of a
worker is a second, per-worker predicate (`Covers`): what is neither received nor still on its list lies
below the resume point it computed.
-/

namespace AgentTx.Stream

open DurableStream DurableClient

/-- Where a worker is in its loop. -/
inductive Worker where
  /-- before `c0 = client.ack()` -/
  | start
  /-- `c0` is read; before `stream.server_ack(…)` -/
  | readAck (c0 : Nat)
  /-- the resume point is computed; before `stream.tokens_from(…)` -/
  | resume (r : Nat)
  /-- at the head of the loop, `todo` still to be delivered -/
  | streaming (todo : List (Nat × String))
  /-- a token is delivered; next is `client.ack()` for the ACK, or nothing if the ACK is dropped -/
  | delivered (todo : List (Nat × String))
  /-- the client's ACK is read; before `stream.record_ack(…)` -/
  | acking (ack : Nat) (todo : List (Nat × String))
  | finished
  | dead
  deriving DecidableEq

/-- What the scheduler picks: a worker's next call, a dropped ACK, a worker's death, a client restart. -/
inductive Event (ω : Type) where
  | next (i : ω)
  | dropAck (i : ω)
  | die (i : ω)
  | restart

/-- The database and the workers. -/
structure Sys (ω : Type) where
  db : StreamDb
  workers : ω → Worker

/-- The next call of a worker: the tables it leaves and where the worker is afterwards. -/
def Worker.next (c : DurableClient) (db : StreamDb) : Worker → Option (StreamDb × Worker)
  | .start => some (db, .readAck (c.ack db))
  | .readAck c0 => some (db, .resume (min (server_ack db c.session c.turn c.client_id) c0 + 1))
  | .resume r => some (db, .streaming (tokens_from db c.session c.turn r))
  | .streaming [] => some (db, .finished)
  | .streaming ((seq, tok) :: todo) => some (c.deliver db seq tok, .delivered todo)
  | .delivered todo => some (db, .acking (c.ack db) todo)
  | .acking a todo => some (record_ack db c.session c.turn c.client_id a, .streaming todo)
  | .finished => none
  | .dead => none

variable {ω : Type} [DecidableEq ω]

/-- Worker `i` moves to `w` and leaves the tables `db`. -/
def Sys.put (s : Sys ω) (i : ω) (db : StreamDb) (w : Worker) : Sys ω :=
  ⟨db, Function.update s.workers i w⟩

@[simp] theorem Sys.put_db (s : Sys ω) (i : ω) (db : StreamDb) (w : Worker) : (s.put i db w).db = db := rfl

@[simp] theorem Sys.put_self (s : Sys ω) (i : ω) (db : StreamDb) (w : Worker) :
    (s.put i db w).workers i = w :=
  Function.update_self ..

theorem Sys.put_of_ne (s : Sys ω) {i j : ω} (h : j ≠ i) (db : StreamDb) (w : Worker) :
    (s.put i db w).workers j = s.workers j :=
  Function.update_of_ne h ..

/-- One step of the system streaming to client `c`. -/
def step (c : DurableClient) (s : Sys ω) : Event ω → Option (Sys ω)
  | .next i => ((s.workers i).next c s.db).map fun r => s.put i r.1 r.2
  | .dropAck i =>
      match s.workers i with
      | .delivered todo => some (s.put i s.db (.streaming todo))
      | _ => none
  | .die i => some (s.put i s.db .dead)
  | .restart => some { s with db := c.restart s.db }

abbrev Step (c : DurableClient) : Sys ω → Event ω → Sys ω → Prop := Lts.ofFun (step c)

/-- **What a step can do to the tables:** nothing, deliver one token of a worker's list, record an ACK,
    or clear the client. -/
theorem step_db_cases {c : DurableClient} {s t : Sys ω} {e : Event ω} (h : Step c s e t) :
    t.db = s.db ∨
    (∃ i seq tok todo, e = .next i ∧ s.workers i = .streaming ((seq, tok) :: todo) ∧
      t.db = c.deliver s.db seq tok) ∨
    (∃ a, t.db = record_ack s.db c.session c.turn c.client_id a) ∨
    (e = .restart ∧ t.db = c.restart s.db) := by
  cases e with
  | next i =>
    obtain ⟨⟨db', w'⟩, hw, rfl⟩ := Option.map_eq_some_iff.mp h
    cases hi : s.workers i with
    | streaming l =>
      rw [hi] at hw
      cases l with
      | nil => cases hw; exact .inl rfl
      | cons p todo => cases hw; exact .inr (.inl ⟨i, p.1, p.2, todo, rfl, hi, rfl⟩)
    | acking a todo => rw [hi] at hw; cases hw; exact .inr (.inr (.inl ⟨a, rfl⟩))
    | finished => rw [hi] at hw; cases hw
    | dead => rw [hi] at hw; cases hw
    | start | readAck _ | resume _ | delivered _ => rw [hi] at hw; cases hw; exact .inl rfl
  | dropAck i =>
    simp only [Lts.ofFun, step] at h
    split at h
    · cases h; exact .inl rfl
    · cases h
  | die i => cases h; exact .inl rfl
  | restart => cases h; exact .inr (.inr (.inr ⟨rfl, rfl⟩))

/-! ## The table invariant -/

/-- `r` is a row of the client `c`. -/
def DurableClient.Owns (c : DurableClient) (r : RecvRow) : Prop :=
  r.session = c.session ∧ r.turn = c.turn ∧ r.client_id = c.client_id

/-- The tables are those of a turn that committed `tokens`: the log holds them, and whatever the client
    has received is in the log. -/
structure Safe (c : DurableClient) (tokens : List String) (db : StreamDb) : Prop where
  log : Holds c.session c.turn tokens db.output_log
  recv : ∀ r ∈ db.client_recv, c.Owns r → ⟨r.session, r.turn, r.seq, r.token⟩ ∈ db.output_log

variable {c : DurableClient} {tokens : List String} {db : StreamDb}

theorem mem_rows {p : Nat × String} :
    p ∈ c.rows db ↔ ⟨c.session, c.turn, c.client_id, p.1, p.2⟩ ∈ db.client_recv := by
  simp only [DurableClient.rows, List.mem_map, KeyedRows.mem_select, decide_eq_true_eq]
  constructor
  · rintro ⟨⟨s, t, i, seq, tok⟩, ⟨hr, rfl, rfl, rfl⟩, rfl⟩
    exact hr
  · intro h
    exact ⟨_, ⟨h, rfl, rfl, rfl⟩, rfl⟩

/-- The client's rows come in strictly increasing sequence numbers. -/
theorem pairwise_rows (c : DurableClient) (db : StreamDb) : (c.rows db).Pairwise (·.1 < ·.1) := by
  unfold DurableClient.rows
  rw [List.pairwise_map]
  refine KeyedRows.pairwise_select fun a b ha hb hab => ?_
  simp only [decide_eq_true_eq] at ha hb
  have hseq : a.seq = b.seq := hab
  simp only [RecvRow.key]
  rw [ha.1, ha.2.1, ha.2.2, hb.1, hb.2.1, hb.2.2, hseq]

/-- Sequence number `seq` has been received. -/
def Received (c : DurableClient) (db : StreamDb) (seq : Nat) : Prop := ∃ tok, (seq, tok) ∈ c.rows db

theorem Safe.row_logged (h : Safe c tokens db) {p : Nat × String} (hp : p ∈ c.rows db) :
    1 ≤ p.1 ∧ tokens[p.1 - 1]? = some p.2 := by
  have hlog := h.recv _ (mem_rows.mp hp) ⟨rfl, rfl, rfl⟩
  exact h.log.only _ hlog rfl rfl

/-- Everything up to the ACK has been received. -/
theorem received_of_le_ack {j : Nat} (hj : 1 ≤ j) (hle : j ≤ c.ack db) : Received c db j :=
  (ackLoop_spec 0 (c.rows db) (pairwise_rows c db)).2.1 j hj hle

theorem Safe.materialized_eq (h : Safe c tokens db) : c.materialized db = tokens.take (c.ack db) := by
  have := (materializedLoop_eq tokens 0 (c.rows db) fun p hp => (h.row_logged hp).2).1
  simpa [DurableClient.materialized, DurableClient.ack] using this

/-- Once every token has been received, the client shows them all. -/
theorem Safe.materialized_all (h : Safe c tokens db)
    (hall : ∀ j, 1 ≤ j → j ≤ tokens.length → Received c db j) : c.materialized db = tokens := by
  rw [h.materialized_eq]
  apply List.take_of_length_le
  by_contra hlt
  obtain ⟨tok, htok⟩ := hall (c.ack db + 1) (by omega) (by omega)
  exact (ackLoop_spec 0 (c.rows db) (pairwise_rows c db)).2.2 tok htok

/-! ### Preservation, one lemma per kind of step -/

theorem Safe.record_ack (h : Safe c tokens db) (s t i : String) (a : Nat) :
    Safe c tokens (DurableStream.record_ack db s t i a) :=
  ⟨h.log, h.recv⟩

theorem Safe.restart (h : Safe c tokens db) : Safe c tokens (c.restart db) :=
  ⟨h.log, fun r hr ho => h.recv r (KeyedRows.mem_delete.mp hr).1 ho⟩

theorem Safe.deliver (h : Safe c tokens db) {seq : Nat} {tok : String} (h1 : 1 ≤ seq)
    (htok : tokens[seq - 1]? = some tok) : Safe c tokens (c.deliver db seq tok) := by
  refine ⟨h.log, fun r hr ho => ?_⟩
  rcases KeyedRows.mem_insertOrIgnore.mp hr with hold | ⟨rfl, _⟩
  · exact h.recv r hold ho
  · have hlog := h.log.all (seq - 1) tok htok
    rw [Nat.sub_add_cancel h1] at hlog
    exact hlog

/-- A delivered sequence number is received: by this row, or by the one that was there. -/
theorem received_deliver (seq : Nat) (tok : String) : Received c (c.deliver db seq tok) seq := by
  obtain ⟨x, hx, hk⟩ := db.client_recv.exists_key_insertOrIgnore ⟨c.session, c.turn, c.client_id, seq, tok⟩
  obtain ⟨s, t, i, seq', tok'⟩ := x
  simp only [RecvRow.key, Prod.mk.injEq] at hk
  obtain ⟨rfl, rfl, rfl, rfl⟩ := hk
  exact ⟨tok', mem_rows.mpr hx⟩

/-- Nothing but a restart takes a received token away. -/
theorem Received.step {s t : Sys ω} {e : Event ω} (hs : Step c s e t) (hr : e ≠ .restart) {seq : Nat}
    (h : Received c s.db seq) : Received c t.db seq := by
  obtain ⟨tok, htok⟩ := h
  have hmem := mem_rows.mp htok
  refine ⟨tok, mem_rows.mpr ?_⟩
  rcases step_db_cases hs with heq | ⟨i, seq', tok', todo, -, -, heq⟩ | ⟨a, heq⟩ | ⟨he, -⟩
  · rw [heq]; exact hmem
  · rw [heq]; exact KeyedRows.mem_insertOrIgnore_of_mem hmem
  · rw [heq]; exact hmem
  · exact absurd he hr

end AgentTx.Stream
