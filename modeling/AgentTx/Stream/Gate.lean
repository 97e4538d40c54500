import AgentTx.Lib.Json.Loads
import AgentTx.Stream.Workers

/-!
# `Stream.Gate` — the durable streaming gate (`phase9/durable_stream_gate.py`)

`audit` commits the tokens of a turn and starts workers until the client has them all, sixty at most; each may die
before some token that is still to come, may drop its ACKs, and the client may restart in between. `PHASE9_PASS` holds
exactly when each turn has a worker that does not die (`gate_passes_iff`).

Layout of the proof:
* **A worker** — `sent_spec` for one token and `stream_spec` for its loop, by induction on the tokens to come: what it
  has delivered when it dies are those before the token of its death.
* **The workers of a turn** — `iteration_spec`, `iterations_spec`. Since a worker dies before a token that is still to
  come, the last token is received by one that does not die, or by none.
* **The turns** — `auditTurn_spec`: the client shows the turn whole (`shown_whole`) or stops short of its end
  (`shown_short`), and the four counts of the verdict follow.

Main result: `gate_passes_iff`, with the exact counts.
-/

namespace AgentTx.Stream.Gate

open DurableStream DurableClient

/-! ## The gate -/

def SESSION : String := "p9"

def CLIENT : String := "c0"

/-- The tables, `stream_stats` included. -/
structure GateDb where
  db : StreamDb
  stream_stats : Table String Nat

/-- `_bump`. -/
def bump (g : GateDb) (metric : String) (n : Nat) : GateDb :=
  { g with
    stream_stats := g.stream_stats.upsert metric fun old =>
      match old with
      | none => n
      | some val => val + n }

/-- The loop of `worker`, and whether it died in it. -/
def stream (c : DurableClient) (crash_at : Option Nat) (drop_ack : Bool) (c0 : Nat) :
    List (Nat × String) → GateDb → GateDb × Bool
  | [], g => (g, false)
  | (seq, tok) :: todo, g =>
      if crash_at = some seq then (g, true)
      else
        let g := if seq ≤ c0 then bump g "resends_deduped" 1 else g
        let db := c.deliver g.db seq tok
        let db := if drop_ack then db else record_ack db c.session c.turn c.client_id (c.ack db)
        stream c crash_at drop_ack c0 todo { g with db := db }

/-- `worker`. -/
def worker (c : DurableClient) (crash_at : Option Nat) (drop_ack : Bool) (g : GateDb) : GateDb × Bool :=
  let c0 := c.ack g.db
  let resume := min (server_ack g.db c.session c.turn c.client_id) c0 + 1
  stream c crash_at drop_ack c0 (tokens_from g.db c.session c.turn resume) g

/-- `stat`, without `turns`. -/
structure Stat where
  turns_exactly_once : Nat
  worker_deaths : Nat
  client_restarts : Nat
  ack_drops : Nat
  codeath_turns : Nat
  loss : Nat
  duplicate : Nat
  not_completed : Nat

/-- What is drawn for a worker: a restart of the client before it, what `randint` makes the token of its death from, if
    it dies, and the loss of its ACKs. -/
structure Draw where
  restart : Bool
  crash : Option Nat
  drop_ack : Bool

/-- `rng.randint(a, b)`, when `k` is drawn. -/
def randint (a b k : Nat) : Nat := a + k % (b + 1 - a)

/-- The variables of the loop over the workers. -/
structure Progress where
  g : GateDb
  stat : Stat
  first_delivered : Option Nat

/-- The body of the loop. -/
def iteration (c : DurableClient) (N it : Nat) (d : Draw) (p : Progress) : Progress :=
  let ack := c.ack p.g.db
  let restarts := decide (it > 0 ∧ ack > 0) && d.restart
  let g := if restarts then { p.g with db := c.restart p.g.db } else p.g
  let ack := if restarts then 0 else ack
  let r := worker c (d.crash.map (randint (ack + 1) N)) d.drop_ack g
  let new_ack := c.ack r.1.db
  { g := r.1
    stat :=
      { p.stat with
        worker_deaths := p.stat.worker_deaths + if r.2 then 1 else 0
        client_restarts := p.stat.client_restarts + if restarts then 1 else 0
        ack_drops := p.stat.ack_drops + if d.drop_ack then 1 else 0
        codeath_turns := p.stat.codeath_turns + if p.first_delivered = none ∧ new_ack = 0 then 1 else 0 }
    first_delivered := p.first_delivered.or (some new_ack) }

/-- `for it in range(60)`, with `left` of them to go. -/
def iterations (c : DurableClient) (N : Nat) (draws : Nat → Draw) : Nat → Nat → Progress → Progress
  | 0, _, p => p
  | left + 1, it, p =>
      if c.ack p.g.db ≥ N then p else iterations c N draws left (it + 1) (iteration c N it (draws it) p)

def turnOf (i : Nat) : String := "T" ++ Nat.repr i

/-- `[f"{turn}#tok{k}" for k in range(1, N + 1)]`. -/
def tokensOf (turn : String) (N : Nat) : List String :=
  (List.range' 1 N).map fun k => turn ++ "#tok" ++ Nat.repr k

def clientOf (i : Nat) : DurableClient := ⟨SESSION, turnOf i, CLIENT⟩

/-- The rows of the client, as the last query of a turn counts them. -/
def nRows (c : DurableClient) (db : StreamDb) : Nat :=
  db.client_recv.count fun r => r.session = c.session ∧ r.turn = c.turn ∧ r.client_id = c.client_id

/-- One turn of `audit`. -/
def auditTurn (N : Nat) (draws : Nat → Draw) (i : Nat) (s : GateDb × Stat) : GateDb × Stat :=
  let c := clientOf i
  let tokens := tokensOf c.turn N
  let p := iterations c N draws 60 0 ⟨{ s.1 with db := commit_output s.1.db SESSION c.turn tokens }, s.2, none⟩
  let mat := c.materialized p.g.db
  (p.g,
    { p.stat with
      turns_exactly_once := p.stat.turns_exactly_once + if mat = tokens then 1 else 0
      loss := p.stat.loss + if mat ≠ tokens ∧ (mat.length < N ∨ mat ≠ tokens.take mat.length) then 1 else 0
      duplicate := p.stat.duplicate + if nRows c p.g.db ≠ N ∧ c.ack p.g.db ≥ N then 1 else 0
      not_completed := p.stat.not_completed + if c.ack p.g.db < N then 1 else 0 })

/-- `audit`, on empty tables. -/
def audit (T N : Nat) (draws : Nat → Nat → Draw) : GateDb × Stat :=
  (List.range T).foldl (fun s i => auditTurn N (draws i) i s)
    (⟨⟨.empty, fun _ => none, .empty⟩, fun _ => none⟩, ⟨0, 0, 0, 0, 0, 0, 0, 0⟩)

/-- `PHASE9_PASS`. -/
def PHASE9_PASS (T : Nat) (stat : Stat) : Bool :=
  decide (stat.turns_exactly_once = T ∧ stat.loss = 0 ∧ stat.duplicate = 0 ∧ stat.not_completed = 0)

/-- A worker of the turn does not die. -/
def completes (N : Nat) (draws : Nat → Draw) : Bool :=
  decide (N = 0) || (List.range 60).any fun it => decide ((draws it).crash = none)

variable {c : DurableClient} {tokens : List String} {g : GateDb}

/-! ## A worker

It sends the tokens from the smaller of the two ACKs on, one after the other, and stops before the one of its death. -/

/-- What a worker leaves as it is: the log, and rows of other clients. -/
structure Only (c : DurableClient) (db db' : StreamDb) : Prop where
  log : db'.output_log = db.output_log
  recv : ∀ r ∈ db'.client_recv, r ∈ db.client_recv ∨ r.turn = c.turn

theorem Only.refl (db : StreamDb) : Only c db db := ⟨rfl, fun _ hr => Or.inl hr⟩

theorem Only.trans {db₁ db₂ db₃ : StreamDb} (h : Only c db₁ db₂) (h' : Only c db₂ db₃) : Only c db₁ db₃ :=
  ⟨h'.log.trans h.log, fun r hr => (h'.recv r hr).elim (h.recv r) Or.inr⟩

theorem received_deliver_iff {db : StreamDb} {seq j : Nat} {tok : String} :
    Received c (c.deliver db seq tok) j ↔ Received c db j ∨ j = seq := by
  constructor
  · rintro ⟨tok', htok⟩
    rcases KeyedRows.mem_insertOrIgnore.mp (mem_rows.mp htok) with hold | ⟨hnew, -⟩
    · exact Or.inl ⟨tok', mem_rows.mpr hold⟩
    · exact Or.inr (RecvRow.mk.inj hnew).2.2.2.1
  · rintro (⟨tok', htok⟩ | rfl)
    · exact ⟨tok', mem_rows.mpr (KeyedRows.mem_insertOrIgnore_of_mem (mem_rows.mp htok))⟩
    · exact received_deliver j tok

/-- What a worker has done when it has delivered a token and recorded its ACK, unless that is dropped. -/
def sent (c : DurableClient) (drop_ack : Bool) (c0 : Nat) (g : GateDb) (seq : Nat) (tok : String) : GateDb :=
  let g := if seq ≤ c0 then bump g "resends_deduped" 1 else g
  let db := c.deliver g.db seq tok
  let db := if drop_ack then db else record_ack db c.session c.turn c.client_id (c.ack db)
  { g with db := db }

/-- The next token is the one before which the worker dies, or it is sent. -/
theorem stream_cons (crash_at : Option Nat) (drop_ack : Bool) (c0 seq : Nat) (tok : String)
    (todo : List (Nat × String)) (g : GateDb) : stream c crash_at drop_ack c0 ((seq, tok) :: todo) g =
      if crash_at = some seq then (g, true) else stream c crash_at drop_ack c0 todo (sent c drop_ack c0 g seq tok) :=
  rfl

/-- **One token** of the log is received, and nothing else: the count of resends and the ACK are in tables of their
    own. -/
theorem sent_spec (drop_ack : Bool) (c0 : Nat) {seq : Nat} {tok : String} (h : Safe c tokens g.db) (hpos : 1 ≤ seq)
    (htok : tokens[seq - 1]? = some tok) :
    Safe c tokens (sent c drop_ack c0 g seq tok).db ∧ Only c g.db (sent c drop_ack c0 g seq tok).db ∧
      ∀ j, Received c (sent c drop_ack c0 g seq tok).db j ↔ Received c g.db j ∨ j = seq := by
  have hlog : (sent c drop_ack c0 g seq tok).db.output_log = g.db.output_log := by
    show (if _ then _ else _ : StreamDb).output_log = _
    split_ifs <;> rfl
  have hrecv : (sent c drop_ack c0 g seq tok).db.client_recv = (c.deliver g.db seq tok).client_recv := by
    show (if _ then _ else _ : StreamDb).client_recv = _
    split_ifs <;> rfl
  have hdelivered := h.deliver hpos htok
  refine ⟨⟨hlog ▸ hdelivered.log, ?_⟩, ⟨hlog, ?_⟩, ?_⟩
  · rw [hrecv, hlog]
    exact hdelivered.recv
  · rw [hrecv]
    intro r hr
    rcases KeyedRows.mem_insertOrIgnore.mp hr with hold | ⟨hnew, -⟩
    · exact Or.inl hold
    · exact Or.inr (hnew ▸ rfl)
  · intro j
    rw [← received_deliver_iff]
    unfold Received DurableClient.rows
    rw [hrecv]

/-- **A worker** delivers its tokens up to the one before which it dies. -/
theorem stream_spec (crash_at : Option Nat) (drop_ack : Bool) (c0 : Nat) :
    ∀ (todo : List (Nat × String)) {g : GateDb}, Safe c tokens g.db →
    (∀ p ∈ todo, 1 ≤ p.1 ∧ tokens[p.1 - 1]? = some p.2) → todo.Pairwise (·.1 < ·.1) →
    ∃ g' died, stream c crash_at drop_ack c0 todo g = (g', died) ∧ Safe c tokens g'.db ∧ Only c g.db g'.db ∧
      (∀ j, Received c g.db j → Received c g'.db j) ∧
      ((∀ p ∈ todo, crash_at ≠ some p.1) → ∀ p ∈ todo, Received c g'.db p.1) ∧
      (∀ x, crash_at = some x → (∃ p ∈ todo, p.1 = x) → ∀ j, Received c g'.db j → Received c g.db j ∨ j < x) := by
  intro todo
  induction todo with
  | nil =>
    intro g hsafe _ _
    exact ⟨g, false, rfl, hsafe, .refl _, fun _ hj => hj, fun _ p hp => absurd hp List.not_mem_nil,
      fun x _ hx => absurd hx (by simp)⟩
  | cons p todo ih =>
    obtain ⟨seq, tok⟩ := p
    intro g hsafe hlogged hsorted
    obtain ⟨hpos, htok⟩ := hlogged (seq, tok) List.mem_cons_self
    obtain ⟨hfirst, hrest⟩ := List.pairwise_cons.mp hsorted
    by_cases hcrash : crash_at = some seq
    · refine ⟨g, true, ?_, hsafe, .refl _, fun _ hj => hj, ?_, fun _ _ _ j hj => Or.inl hj⟩
      · rw [stream_cons, if_pos hcrash]
      · intro hnone
        exact absurd hcrash (hnone (seq, tok) List.mem_cons_self)
    · obtain ⟨hsafe₂, honly, hreceived⟩ := sent_spec drop_ack c0 hsafe hpos htok
      obtain ⟨g', died, hrun, hsafe', honly', hkept, hall, hdead⟩ := ih hsafe₂
        (fun p hp => hlogged p (List.mem_cons_of_mem _ hp)) hrest
      refine ⟨g', died, ?_, hsafe', honly.trans honly', ?_, ?_, ?_⟩
      · rw [stream_cons, if_neg hcrash]
        exact hrun
      · exact fun j hj => hkept j ((hreceived j).mpr (Or.inl hj))
      · intro hnone p hp
        rcases List.mem_cons.mp hp with rfl | hp
        · exact hkept seq ((hreceived seq).mpr (Or.inr rfl))
        · exact hall (fun p hp => hnone p (List.mem_cons_of_mem _ hp)) p hp
      · rintro x hx ⟨p, hp, rfl⟩ j hj
        have hmem : p ∈ todo := by
          rcases List.mem_cons.mp hp with rfl | hmem
          · exact absurd hx hcrash
          · exact hmem
        rcases hdead p.1 hx ⟨p, hmem, rfl⟩ j hj with hold | hless
        · rcases (hreceived j).mp hold with hold | rfl
          · exact Or.inl hold
          · exact Or.inr (hfirst p hmem)
        · exact Or.inr hless

/-- The tokens that a worker starts with. -/
theorem worker_spec (crash_at : Option Nat) (drop_ack : Bool) (h : Safe c tokens g.db) :
    ∃ g' died, worker c crash_at drop_ack g = (g', died) ∧ Safe c tokens g'.db ∧ Only c g.db g'.db ∧
      (crash_at = none → tokens.length ≤ c.ack g'.db) ∧
      (∀ x, crash_at = some x → c.ack g.db < x → x ≤ tokens.length →
        ∀ j, Received c g'.db j → Received c g.db j ∨ j < x) := by
  let resume := min (server_ack g.db c.session c.turn c.client_id) (c.ack g.db) + 1
  have hresume : resume ≤ c.ack g.db + 1 := Nat.succ_le_succ (Nat.min_le_right _ _)
  have hsorted := pairwise_tokens_from g.db c.session c.turn resume
  have hlogged : ∀ p ∈ tokens_from g.db c.session c.turn resume, 1 ≤ p.1 ∧ tokens[p.1 - 1]? = some p.2 := by
    intro p hp
    obtain ⟨hpos, -, htok⟩ := (mem_tokens_from h.log).mp hp
    exact ⟨hpos, htok⟩
  have hmem : ∀ j, resume ≤ j → j ≤ tokens.length → ∃ p ∈ tokens_from g.db c.session c.turn resume, p.1 = j := by
    intro j hj hle
    have hpos : 1 ≤ j := Nat.le_trans (Nat.le_add_left 1 _) hj
    have hlt : j - 1 < tokens.length := by omega
    exact ⟨(j, tokens[j - 1]), (mem_tokens_from h.log).mpr ⟨hpos, hj, List.getElem?_eq_getElem hlt⟩, rfl⟩
  obtain ⟨g', died, hrun, hsafe, honly, hkept, hall, hdead⟩ := stream_spec crash_at drop_ack (c.ack g.db) _ h
    hlogged hsorted
  refine ⟨g', died, hrun, hsafe, honly, ?_, ?_⟩
  · intro hnone
    have hreceived : ∀ j, 1 ≤ j → j ≤ tokens.length → Received c g'.db j := by
      intro j hpos hle
      by_cases hj : resume ≤ j
      · obtain ⟨p, hp, rfl⟩ := hmem j hj hle
        refine hall (fun q _ hq => ?_) p hp
        rw [hnone] at hq
        cases hq
      · exact hkept j (received_of_le_ack hpos (by omega))
    by_contra hless
    obtain ⟨tok, htok⟩ := hreceived (c.ack g'.db + 1) (Nat.le_add_left 1 _) (by omega)
    exact (ackLoop_spec 0 (c.rows g'.db) (pairwise_rows c g'.db)).2.2 tok htok
  · intro x hx hack hle
    exact hdead x hx (hmem x (by omega) hle)

/-! ## The workers of a turn

Sixty at most, and fewer if the client has everything before. -/

theorem Only.restart (db : StreamDb) : Only c db (c.restart db) :=
  ⟨rfl, fun _ hr => Or.inl (KeyedRows.mem_delete.mp hr).1⟩

theorem not_received_restart {db : StreamDb} (j : Nat) : ¬ Received c (c.restart db) j := by
  rintro ⟨tok, htok⟩
  have hgone := (KeyedRows.mem_delete.mp (mem_rows.mp htok)).2
  simp at hgone

/-- **One worker**, after a restart or not. -/
theorem iteration_spec {N : Nat} (it : Nat) (d : Draw) {p : Progress} (h : Safe c tokens p.g.db)
    (hN : tokens.length = N) (hless : c.ack p.g.db < N) :
    Safe c tokens (iteration c N it d p).g.db ∧ Only c p.g.db (iteration c N it d p).g.db ∧
      (d.crash = none → N ≤ c.ack (iteration c N it d p).g.db) ∧
      (d.crash ≠ none → ¬ Received c p.g.db N → ¬ Received c (iteration c N it d p).g.db N) := by
  subst hN
  let ack := c.ack p.g.db
  let restarts := decide (it > 0 ∧ ack > 0) && d.restart
  let g₀ := if restarts then { p.g with db := c.restart p.g.db } else p.g
  let ack₀ := if restarts then 0 else ack
  -- the client may be restarted first: then it has nothing
  have hstart : Safe c tokens g₀.db ∧ Only c p.g.db g₀.db ∧ c.ack g₀.db ≤ ack₀ ∧ ack₀ < tokens.length ∧
      (¬ Received c p.g.db tokens.length → ¬ Received c g₀.db tokens.length) := by
    show Safe c tokens (if restarts then _ else _ : GateDb).db ∧ Only c p.g.db (if restarts then _ else _ : GateDb).db ∧
      c.ack (if restarts then _ else _ : GateDb).db ≤ (if restarts then _ else _) ∧ (if restarts then _ else _) < _ ∧
        (_ → ¬ Received c (if restarts then _ else _ : GateDb).db _)
    split_ifs
    · refine ⟨h.restart, .restart _, ?_, Nat.lt_of_le_of_lt (Nat.zero_le _) hless, fun _ => not_received_restart _⟩
      show c.ack (c.restart p.g.db) ≤ 0
      by_contra hpos
      exact not_received_restart 1 (received_of_le_ack (Nat.le_refl 1) (Nat.lt_of_not_le hpos))
    · exact ⟨h, .refl _, Nat.le_refl _, hless, id⟩
  -- the worker starts from what is acknowledged, and dies behind it if at all
  obtain ⟨hsafe, honly, hack, hack₀, hnot⟩ := hstart
  obtain ⟨g', died, hrun, hsafe', honly', hall, hdead⟩ := worker_spec (g := g₀)
    (d.crash.map (randint (ack₀ + 1) tokens.length)) d.drop_ack hsafe
  have hg : (iteration c tokens.length it d p).g = g' := by
    show (worker c (d.crash.map (randint (ack₀ + 1) tokens.length)) d.drop_ack g₀).1 = g'
    rw [hrun]
  rw [hg]
  refine ⟨hsafe', honly.trans honly', ?_, ?_⟩
  · intro hnone
    exact hall (by rw [hnone]; rfl)
  · intro hsome hold hnew
    obtain ⟨k, hk⟩ := Option.ne_none_iff_exists'.mp hsome
    have hrange : randint (ack₀ + 1) tokens.length k ≤ tokens.length ∧ ack₀ < randint (ack₀ + 1) tokens.length k := by
      have hmod := Nat.mod_lt k (show 0 < tokens.length + 1 - (ack₀ + 1) by omega)
      unfold randint
      omega
    have hcrash : d.crash.map (randint (ack₀ + 1) tokens.length) = some (randint (ack₀ + 1) tokens.length k) := by
      rw [hk]
      rfl
    -- the last token is sent only after the one at which the worker dies
    rcases hdead _ hcrash (by omega) hrange.1 _ hnew with hbefore | hlt
    · exact hnot hold hbefore
    · omega

/-- **All workers of a turn.** -/
theorem iterations_spec {N : Nat} (draws : Nat → Draw) (left : Nat) : ∀ (it : Nat) {p : Progress},
    Safe c tokens p.g.db → tokens.length = N →
    Safe c tokens (iterations c N draws left it p).g.db ∧ Only c p.g.db (iterations c N draws left it p).g.db ∧
      ((N ≤ c.ack p.g.db ∨ ∃ i, it ≤ i ∧ i < it + left ∧ (draws i).crash = none) →
        N ≤ c.ack (iterations c N draws left it p).g.db) ∧
      (¬ Received c p.g.db N → (∀ i, it ≤ i → i < it + left → (draws i).crash ≠ none) →
        ¬ Received c (iterations c N draws left it p).g.db N) := by
  induction left with
  | zero =>
    intro it p h hN
    refine ⟨h, .refl _, ?_, fun hnot _ => hnot⟩
    rintro (hack | ⟨i, hi, hlt, -⟩)
    · exact hack
    · omega
  | succ left ih =>
    intro it p h hN
    -- the loop ends when all is acknowledged
    by_cases hack : c.ack p.g.db ≥ N
    · rw [iterations, if_pos hack]
      exact ⟨h, .refl _, fun _ => hack, fun hnot _ => hnot⟩
    · rw [iterations, if_neg hack]
      obtain ⟨hsafe, honly, hall, hdead⟩ := iteration_spec it (draws it) h hN (Nat.lt_of_not_le hack)
      obtain ⟨hsafe', honly', hall', hdead'⟩ := ih (it + 1) hsafe hN
      refine ⟨hsafe', honly.trans honly', ?_, ?_⟩
      · rintro (habsurd | ⟨i, hi, hlt, hnone⟩)
        · exact absurd habsurd hack
        · by_cases heq : i = it
          · exact hall' (Or.inl (hall (heq ▸ hnone)))
          · exact hall' (Or.inr ⟨i, by omega, by omega, hnone⟩)
      · intro hnot hcrash
        refine hdead' (hdead (hcrash it (Nat.le_refl it) (by omega)) hnot) fun i hi hlt => ?_
        exact hcrash i (by omega) (by omega)

/-- The counts of the verdict, which the loop over the workers leaves as they are. -/
def Stat.verdicts (s : Stat) : Nat × Nat × Nat × Nat := (s.turns_exactly_once, s.loss, s.duplicate, s.not_completed)

theorem iterations_verdicts {N : Nat} (draws : Nat → Draw) (left : Nat) : ∀ (it : Nat) (p : Progress),
    (iterations c N draws left it p).stat.verdicts = p.stat.verdicts := by
  induction left with
  | zero => exact fun _ _ => rfl
  | succ left ih =>
    intro it p
    rw [iterations]
    split_ifs
    · rfl
    · exact ih _ _

/-! ## The turns

They share the three tables. What one turn does there is invisible to the others (`Only`, `Before`). -/

theorem length_tokensOf (turn : String) (N : Nat) : (tokensOf turn N).length = N := by
  rw [tokensOf, List.length_map, List.length_range']

theorem turnOf_injective : Function.Injective turnOf := by
  intro i j h
  exact Json.natRepr_injective ((String.append_right_inj "T").mp h)

/-- The rows are those of turns before `i`. -/
structure Before (i : Nat) (db : StreamDb) : Prop where
  log : ∀ r ∈ db.output_log, ∃ j < i, r.turn = turnOf j
  recv : ∀ r ∈ db.client_recv, ∃ j < i, r.turn = turnOf j

theorem mem_insertTokens {session turn : String} : ∀ (toks : List String) (seq : Nat) {log : KeyedRows LogRow.key}
    {r : LogRow}, r ∈ insertTokens session turn seq toks log → r ∈ log ∨ r.turn = turn := by
  intro toks
  induction toks with
  | nil => exact fun _ _ _ hr => Or.inl hr
  | cons tok toks ih =>
    intro seq log r hr
    rcases ih (seq + 1) hr with hold | hturn
    · rcases KeyedRows.mem_insertOrIgnore.mp hold with hold | ⟨hnew, -⟩
      · exact Or.inl hold
      · exact Or.inr (hnew ▸ rfl)
    · exact Or.inr hturn

/-- A complete client has as many rows as there are tokens. -/
theorem nRows_eq {db : StreamDb} (h : Safe c tokens db) (hack : tokens.length ≤ c.ack db) :
    nRows c db = tokens.length := by
  have hrows : nRows c db = ((c.rows db).map Prod.fst).length := by
    simp [nRows, DurableClient.rows, KeyedRows.count, KeyedRows.select]
  have hsorted : ((c.rows db).map Prod.fst).Pairwise (· < ·) := by
    rw [List.pairwise_map]
    exact pairwise_rows c db
  have : Std.Antisymm fun i j : Nat => i < j := ⟨fun i j h₁ h₂ => absurd h₂ (Nat.lt_asymm h₁)⟩
  have : Std.Irrefl fun i j : Nat => i < j := ⟨fun i => Nat.lt_irrefl i⟩
  -- the rows are sorted, and have the numbers from 1 to the length
  have hrange : (c.rows db).map Prod.fst = List.range' 1 tokens.length := by
    refine List.Pairwise.eq_of_mem_iff hsorted (List.pairwise_lt_range' 1) fun j => ?_
    rw [List.mem_map, List.mem_range'_1]
    constructor
    · rintro ⟨p, hp, rfl⟩
      obtain ⟨hpos, htok⟩ := h.row_logged hp
      have hlt := (List.getElem?_eq_some_iff.mp htok).1
      omega
    · rintro ⟨hpos, hlt⟩
      have hreceived : Received c db j := received_of_le_ack hpos (by omega)
      obtain ⟨tok, htok⟩ := hreceived
      exact ⟨(j, tok), htok, rfl⟩
  rw [hrows, hrange, List.length_range']

theorem completes_iff {N : Nat} {draws : Nat → Draw} :
    completes N draws = true ↔ N = 0 ∨ ∃ it < 60, (draws it).crash = none := by
  simp [completes]

/-- The turn before its first worker: its tokens are logged, and none of them is received. -/
theorem Before.committed {i : Nat} {db : StreamDb} (h : Before i db) (N : Nat) :
    Safe (clientOf i) (tokensOf (turnOf i) N) (commit_output db SESSION (turnOf i) (tokensOf (turnOf i) N)) ∧
      ¬ Received (clientOf i) (commit_output db SESSION (turnOf i) (tokensOf (turnOf i) N)) N := by
  have hother : ∀ turn, (∃ j < i, turn = turnOf j) → turn ≠ turnOf i := by
    rintro _ ⟨j, hj, rfl⟩ heq
    have hji := turnOf_injective heq
    omega
  have hrecv : ∀ r ∈ db.client_recv, r.turn ≠ turnOf i := fun r hr => hother _ (h.recv r hr)
  refine ⟨⟨commit_output_holds _ fun r hr hown => ?_, fun r hr hown => absurd hown.2.1 (hrecv r hr)⟩, ?_⟩
  · exact hother _ (h.log r hr) hown.2
  · rintro ⟨tok, htok⟩
    exact hrecv _ (mem_rows.mp htok) rfl

/-- The turn behind its last worker. -/
theorem Before.next {i N : Nat} {db db' : StreamDb} (h : Before i db)
    (honly : Only (clientOf i) (commit_output db SESSION (turnOf i) (tokensOf (turnOf i) N)) db') :
    Before (i + 1) db' := by
  constructor
  · intro r hr
    rcases mem_insertTokens _ 1 (honly.log ▸ hr) with hold | hturn
    · obtain ⟨j, hj, hturn⟩ := h.log r hold
      exact ⟨j, Nat.lt_succ_of_lt hj, hturn⟩
    · exact ⟨i, Nat.lt_succ_self i, hturn⟩
  · intro r hr
    rcases honly.recv r hr with hold | hturn
    · obtain ⟨j, hj, hturn⟩ := h.recv r hold
      exact ⟨j, Nat.lt_succ_of_lt hj, hturn⟩
    · exact ⟨i, Nat.lt_succ_self i, hturn⟩

/-- A client that has acknowledged everything shows everything, in as many rows. -/
theorem shown_whole {N : Nat} {db : StreamDb} (h : Safe c tokens db) (hN : tokens.length = N) (hack : N ≤ c.ack db) :
    c.materialized db = tokens ∧ nRows c db = N := by
  have hfull : tokens.length ≤ c.ack db := Nat.le_trans (Nat.le_of_eq hN) hack
  exact ⟨h.materialized_eq.trans (List.take_of_length_le hfull), (nRows_eq h hfull).trans hN⟩

/-- A client that has not received the last token has not acknowledged it, and shows less than everything. -/
theorem shown_short {N : Nat} {db : StreamDb} (h : Safe c tokens db) (hN : tokens.length = N) (hpos : 1 ≤ N)
    (hnot : ¬ Received c db N) :
    c.ack db < N ∧ (c.materialized db).length < N ∧ c.materialized db ≠ tokens := by
  have hless : c.ack db < N := by
    by_contra hle
    exact hnot (received_of_le_ack hpos (Nat.le_of_not_lt hle))
  have hshort : (c.materialized db).length < N := by
    rw [h.materialized_eq, List.length_take]
    omega
  refine ⟨hless, hshort, fun heq => ?_⟩
  rw [heq, hN] at hshort
  exact absurd hshort (Nat.lt_irrefl N)

/-- **A turn** is shown whole, or not to its end and then counted as a loss. -/
theorem auditTurn_spec (N : Nat) (draws : Nat → Draw) {i : Nat} {s : GateDb × Stat} (h : Before i s.1.db) :
    Before (i + 1) (auditTurn N draws i s).1.db ∧
      (auditTurn N draws i s).2.verdicts =
        if completes N draws then (s.2.turns_exactly_once + 1, s.2.loss, s.2.duplicate, s.2.not_completed)
        else (s.2.turns_exactly_once, s.2.loss + 1, s.2.duplicate, s.2.not_completed + 1) := by
  let c := clientOf i
  let tokens := tokensOf c.turn N
  let p := iterations c N draws 60 0 ⟨{ s.1 with db := commit_output s.1.db SESSION c.turn tokens }, s.2, none⟩
  have hlength : tokens.length = N := length_tokensOf _ _
  obtain ⟨hsafe₀, hnot₀⟩ := h.committed N
  obtain ⟨hsafe, honly, hall, hdead⟩ : Safe c tokens p.g.db ∧ _ :=
    iterations_spec draws 60 0 (p := ⟨{ s.1 with db := commit_output s.1.db SESSION c.turn tokens }, s.2, none⟩)
      hsafe₀ hlength
  refine ⟨h.next honly, ?_⟩
  have hverdicts : p.stat.verdicts = s.2.verdicts := iterations_verdicts draws 60 0 _
  obtain ⟨honce, hloss, hduplicate, hnotCompleted⟩ : p.stat.turns_exactly_once = s.2.turns_exactly_once ∧
      p.stat.loss = s.2.loss ∧ p.stat.duplicate = s.2.duplicate ∧ p.stat.not_completed = s.2.not_completed := by
    simpa [Stat.verdicts] using hverdicts
  show (p.stat.turns_exactly_once + (if c.materialized p.g.db = tokens then 1 else 0),
    p.stat.loss + (if c.materialized p.g.db ≠ tokens ∧ ((c.materialized p.g.db).length < N ∨
      c.materialized p.g.db ≠ tokens.take (c.materialized p.g.db).length) then 1 else 0),
    p.stat.duplicate + (if nRows c p.g.db ≠ N ∧ c.ack p.g.db ≥ N then 1 else 0),
    p.stat.not_completed + (if c.ack p.g.db < N then 1 else 0)) = _
  rw [honce, hloss, hduplicate, hnotCompleted]
  by_cases hcompletes : completes N draws = true
  · -- a worker that does not die delivers all of it
    have hack : N ≤ c.ack p.g.db := by
      rcases completes_iff.mp hcompletes with hzero | ⟨it, hit, hnone⟩
      · omega
      · exact hall (Or.inr ⟨it, Nat.zero_le it, by omega, hnone⟩)
    obtain ⟨hwhole, hrows⟩ := shown_whole hsafe hlength hack
    have hless : ¬ c.ack p.g.db < N := Nat.not_lt_of_le hack
    rw [if_pos hcompletes]
    simp only [hwhole, hrows, hless, ne_eq, not_true_eq_false, false_and, if_true, if_false, Nat.add_zero]
  · -- every worker dies, and the last token stays behind
    have hnot : ¬ (N = 0 ∨ ∃ it < 60, (draws it).crash = none) := fun hor => hcompletes (completes_iff.mpr hor)
    have hnotN : ¬ Received c p.g.db N :=
      hdead hnot₀ fun it _ hlt hnone => hnot (Or.inr ⟨it, by omega, hnone⟩)
    have hpos : 1 ≤ N := Nat.one_le_iff_ne_zero.mpr fun hzero => hnot (Or.inl hzero)
    obtain ⟨hless, hshort, hne⟩ := shown_short hsafe hlength hpos hnotN
    have hge : ¬ c.ack p.g.db ≥ N := Nat.not_le_of_lt hless
    rw [if_neg hcompletes]
    simp only [hne, hshort, hless, hge, ne_eq, not_false_eq_true, true_or, and_true, and_false, if_true, if_false,
      Nat.add_zero]

/-- **All turns.** -/
theorem audit_eq (T N : Nat) (draws : Nat → Nat → Draw) :
    Before T (audit T N draws).1.db ∧
      (audit T N draws).2.turns_exactly_once = (List.range T).countP (fun i => completes N (draws i)) ∧
      (audit T N draws).2.loss = T - (audit T N draws).2.turns_exactly_once ∧ (audit T N draws).2.duplicate = 0 ∧
      (audit T N draws).2.not_completed = T - (audit T N draws).2.turns_exactly_once ∧
      (audit T N draws).2.turns_exactly_once ≤ T := by
  induction T with
  | zero =>
    refine ⟨⟨?_, ?_⟩, rfl, rfl, rfl, rfl, Nat.le_refl 0⟩
    · exact fun r hr => absurd hr List.not_mem_nil
    · exact fun r hr => absurd hr List.not_mem_nil
  | succ T ih =>
    obtain ⟨hbefore, honce, hloss, hduplicate, hnotCompleted, hle⟩ := ih
    have hsucc : audit (T + 1) N draws = auditTurn N (draws T) T (audit T N draws) := by
      unfold audit
      rw [List.range_succ, List.foldl_append]
      rfl
    -- the next turn finds nothing of its own in the tables
    obtain ⟨hbefore', hverdicts⟩ := auditTurn_spec N (draws T) hbefore
    rw [hsucc, List.range_succ, List.countP_append]
    refine ⟨hbefore', ?_⟩
    by_cases h : completes N (draws T) = true
    · rw [if_pos h] at hverdicts
      simp only [Stat.verdicts, Prod.mk.injEq] at hverdicts
      obtain ⟨honce', hloss', hduplicate', hnotCompleted'⟩ := hverdicts
      rw [honce', hloss', hduplicate', hnotCompleted']
      have hone : List.countP (fun i => completes N (draws i)) [T] = 1 := by simp [h]
      rw [hone]
      omega
    · rw [if_neg h] at hverdicts
      simp only [Stat.verdicts, Prod.mk.injEq] at hverdicts
      obtain ⟨honce', hloss', hduplicate', hnotCompleted'⟩ := hverdicts
      rw [honce', hloss', hduplicate', hnotCompleted']
      have hzero : List.countP (fun i => completes N (draws i)) [T] = 0 := by simp [h]
      rw [hzero]
      omega

/-- **Headline.** Whatever is drawn for whatever turns: a turn of which some worker does not die is shown whole, once
    and in order, every other one is a loss and not completed, no turn is a duplicate, and the gate passes exactly when
    there is no turn of the second kind. -/
theorem gate_passes_iff (T N : Nat) (draws : Nat → Nat → Draw) :
    (audit T N draws).2.turns_exactly_once = (List.range T).countP (fun i => completes N (draws i)) ∧
      (audit T N draws).2.loss = T - (audit T N draws).2.turns_exactly_once ∧ (audit T N draws).2.duplicate = 0 ∧
      (audit T N draws).2.not_completed = T - (audit T N draws).2.turns_exactly_once ∧
      (PHASE9_PASS T (audit T N draws).2 = true ↔ ∀ i < T, completes N (draws i) = true) := by
  obtain ⟨-, honce, hloss, hduplicate, hnotCompleted, hle⟩ := audit_eq T N draws
  refine ⟨honce, hloss, hduplicate, hnotCompleted, ?_⟩
  have hall : (audit T N draws).2.turns_exactly_once = T ↔ ∀ i < T, completes N (draws i) = true := by
    have hcount := List.countP_eq_length (p := fun i => completes N (draws i)) (l := List.range T)
    rw [List.length_range] at hcount
    rw [honce, hcount]
    simp
  rw [← hall, PHASE9_PASS, decide_eq_true_iff, hloss, hduplicate, hnotCompleted]
  omega

end AgentTx.Stream.Gate
