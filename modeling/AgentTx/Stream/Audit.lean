import Mathlib.Data.Finset.Card
import Mathlib.Data.String.Basic
import AgentTx.Lib.Json.Loads
import AgentTx.Lib.Prog.Total
import AgentTx.Stream.Memory

/-!
# `Stream.Audit` — a client that is served by one worker after the other

`phase4/stream_audit.py`: a worker starts behind an ACK that may lag, and its clock ends it at some tick; while the
client has not everything, another takes over, `max_workers` at most. How far the client comes is a matter of the draws
alone (`acks`); the audit passes exactly when that is to the end in every trial (`audit_passes_iff`).

Layout of the proof:
* **How far a client comes** — `serve_ends`: the worker delivers a token a tick up to the tick that ends it, so the
  ACK after it is a function of the ACK before (`Draw.after`).
* **A turn** — `acks` iterates that; `run_turn_spec` is about the last of `max_workers`.
* **The audit** — a client with the first tokens has no duplicate and no gap, and is counted as incomplete or not at
  all (`add_eq`).

Main result: `audit_passes_iff`.
-/

namespace AgentTx.Stream.Memory

/-! ## The driver -/

/-- What is drawn for a worker: how far the ACK that the server knows lags behind, and the tick that ends it. -/
structure Draw where
  lag : Nat
  kill : Nat

/-- `server_known`. -/
def Draw.server_known (d : Draw) (ack : Nat) : Nat := ack - d.lag

/-- A fresh worker, with a clock of its own: whether it crashes, and the client after it. -/
def attempt (log : StreamLog String) (d : Draw) (client : StreamClient String) :
    Option (Except Exn Unit × StreamClient String) :=
  ((serve log (d.server_known client.ack + 1) ()).run ⟨client, fun _ => ⟨0, d.kill⟩⟩).map fun r => (r.1, r.2.client)

/-- The loop of `run_turn`, with `left` workers to go. -/
def reroute (log : StreamLog String) (rng : Nat → Draw) : Nat → StreamClient String → Nat → StreamClient String × Nat
  | 0, client, workers => (client, workers)
  | left + 1, client, workers =>
      if client.ack < log.length then
        match attempt log (rng (workers + 1)) client with
        | some (.error .WorkerCrash, client) => reroute log rng left client (workers + 1)
        | some (.ok _, client) => (client, workers + 1)
        | none => (client, workers + 1)
      else (client, workers)

/-- `run_turn`. -/
def run_turn (tokens : List String) (rng : Nat → Draw) (max_workers : Nat) : StreamClient String × Nat :=
  reroute ⟨tokens⟩ rng max_workers .new 0

/-- `bad`. -/
structure Bad where
  loss : Nat
  duplicate_in_received : Nat
  out_of_order : Nat
  not_completed : Nat
  deriving DecidableEq, Repr

/-- What `main` counts. -/
structure Counts where
  exact : Nat
  bad : Bad
  total_workers : Nat
  total_resends : Nat
  max_workers : Nat

def Counts.zero : Counts := ⟨0, ⟨0, 0, 0, 0⟩, 0, 0, 0⟩

/-- `[f"tok{i}" for i in range(L)]`. -/
def tokensOf (L : Nat) : List String := (List.range L).map fun i => "tok" ++ Nat.repr i

/-- The counts of what the client does not have as it should. No two tokens are the same, so that `id` tells them apart
    as their texts do. -/
def Bad.add (bad : Bad) (tokens : List String) (client : StreamClient String) : Bad where
  not_completed := bad.not_completed + if client.ack < tokens.length then 1 else 0
  duplicate_in_received := bad.duplicate_in_received +
    if client.received.length ≠ client.received.toFinset.card ∧ client.received.length ≠ tokens.length then 1 else 0
  out_of_order := bad.out_of_order + if client.received ≠ tokens.take client.received.length then 1 else 0
  loss := bad.loss + if client.received.length < tokens.length ∧ client.ack ≥ tokens.length then 1 else 0

/-- One trial. -/
def Counts.add (r : Counts) (tokens : List String) (client : StreamClient String) (workers : Nat) : Counts where
  exact := r.exact + if client.received = tokens then 1 else 0
  bad := if client.received = tokens then r.bad else r.bad.add tokens client
  total_workers := r.total_workers + workers
  total_resends := r.total_resends + client.dup_dropped
  max_workers := max r.max_workers workers

/-- `main`, with the lengths and the draws of the trials. -/
def audit (N : Nat) (L : Nat → Nat) (rng : Nat → Nat → Draw) : Counts :=
  (List.range N).foldl (fun r t =>
    let turn := run_turn (tokensOf (L t)) (rng t) 200
    r.add (tokensOf (L t)) turn.1 turn.2) .zero

/-- `PHASE4_PASS`. -/
def PHASE4_PASS (N : Nat) (r : Counts) : Bool := decide (r.exact = N ∧ r.bad = ⟨0, 0, 0, 0⟩)

/-! ## How far a client comes

One worker, by induction on the tokens that it has left to send. -/

/-- The ACK of the client after a worker: two ticks are made for each token, one before it and one after it. -/
def Draw.after (d : Draw) (L ack : Nat) : Nat :=
  if d.kill = 0 then L else max ack (min L (d.server_known ack + d.kill / 2))

/-- The ACK after so many workers. -/
def acks (L : Nat) (rng : Nat → Draw) : Nat → Nat
  | 0 => 0
  | n + 1 => (rng (n + 1)).after L (acks L rng n)

variable {log : StreamLog String} {client : StreamClient String} {n kill q : Nat} {rng : Nat → Draw}

theorem ack_deliver {seq : Nat} (token : String) (h : seq ≤ client.ack + 1) :
    (client.deliver seq token).ack = max client.ack seq := by
  unfold StreamClient.deliver
  split_ifs with hnext hold
  · show seq = _
    omega
  · show client.ack = _
    omega
  · omega

/-- **A tick** that does not end the worker, or one that does. -/
theorem tick_ends {Q : Unit → Shared Unit String → Prop} {E : Exn → Shared Unit String → Prop}
    (hgo : n + 1 ≠ kill → Q () ⟨client, fun _ => ⟨(n + 1 : Nat), kill⟩⟩)
    (hkill : n + 1 = kill → ∀ clocks, E .WorkerCrash ⟨client, clocks⟩) :
    (tick ()).Ends Q E ⟨client, fun _ => ⟨n, kill⟩⟩ := by
  refine ⟨_, _, rfl, ?_⟩
  have hclocks : Function.update (fun _ : Unit => (⟨n, kill⟩ : CrashClock)) () ⟨(n : Int) + 1, kill⟩ =
      fun _ => ⟨(n + 1 : Nat), kill⟩ := by
    funext u
    rw [Function.update_self]
    rfl
  by_cases h : n + 1 = kill
  · have hcrash : decide ((kill : Int) ≠ 0 ∧ (n : Int) + 1 = kill) = true := decide_eq_true (by omega)
    show Prog.Ends Q E (if decide ((kill : Int) ≠ 0 ∧ (n : Int) + 1 = kill) = true then _ else _) _
    rw [if_pos hcrash]
    exact hkill h _
  · have hcrash : ¬ decide ((kill : Int) ≠ 0 ∧ (n : Int) + 1 = kill) = true := by
      rw [decide_eq_true_iff]
      omega
    show Prog.Ends Q E (if decide ((kill : Int) ≠ 0 ∧ (n : Int) + 1 = kill) = true then _ else _)
      ⟨client, Function.update (fun _ : Unit => (⟨n, kill⟩ : CrashClock)) () ⟨(n : Int) + 1, kill⟩⟩
    rw [if_neg hcrash, hclocks]
    exact hgo h

/-- The ACK after a worker that comes to token `q` next and has made `n` ticks. -/
def served (L kill n q ack : Nat) : Nat := if kill = 0 then L else max ack (min L (q - 1 + (kill - n) / 2))

/-- **One worker**, from its tick `n` on. -/
theorem serve_ends (kill m : Nat) : ∀ {n q : Nat} {client : StreamClient String}, Prefix log client →
    m = log.length + 1 - q → 1 ≤ q → q ≤ client.ack + 1 → (kill = 0 ∨ n < kill) →
    (serve log q ()).Ends
      (fun _ s => Prefix log s.client ∧ s.client.ack = served log.length kill n q client.ack ∧
        s.client.ack = log.length)
      (fun _ s => Prefix log s.client ∧ s.client.ack = served log.length kill n q client.ack)
      ⟨client, fun _ => ⟨n, kill⟩⟩ := by
  induction m with
  | zero =>
    intro n q client hheld hm hpos hq hn
    -- nothing is left to be sent
    have hend : log.length < q := by omega
    have hle := hheld.ack_le
    unfold serve
    rw [range_from_of_lt hend]
    refine ⟨hheld, ?_, ?_⟩
    · show client.ack = served _ _ _ _ _
      unfold served
      split_ifs <;> omega
    · show client.ack = _
      omega
  | succ m ih =>
    intro n q client hheld hm hpos hq hn
    have hle : q ≤ log.length := by omega
    obtain ⟨token, htoken, hrange⟩ := range_from_cons hpos hle
    have hack := ack_deliver token hq
    have hlength := hheld.ack_le
    unfold serve
    rw [hrange, Prog.forEach_cons]
    -- one token: a tick before it and one after it, at each of which the worker may be killed
    refine Prog.Ends.bind (Q := fun _ s => s = ⟨client.deliver q token, fun _ => ⟨(n + 2 : Nat), kill⟩⟩ ∧
      (kill = 0 ∨ n + 2 < kill)) ?_ ?_
    · refine Prog.Ends.bind (Q := fun _ s => s = ⟨client, fun _ => ⟨(n + 1 : Nat), kill⟩⟩ ∧ n + 1 ≠ kill)
        (tick_ends (fun hne => ⟨rfl, hne⟩) ?_) ?_
      · intro hkill _
        refine ⟨hheld, ?_⟩
        show client.ack = served _ _ _ _ _
        unfold served
        split_ifs <;> omega
      rintro _ _ ⟨rfl, hne⟩
      refine Prog.Ends.bind (Q := fun _ s => s = ⟨client.deliver q token, fun _ => ⟨(n + 1 : Nat), kill⟩⟩)
        ((Prog.ends_modify _ _).mpr rfl) ?_
      rintro _ _ rfl
      refine tick_ends (fun hne' => ⟨rfl, ?_⟩) ?_
      · omega
      · intro hkill _
        refine ⟨hheld.deliver htoken, ?_⟩
        show (client.deliver q token).ack = served _ _ _ _ _
        rw [hack]
        unfold served
        split_ifs <;> omega
    · rintro _ _ ⟨rfl, hn'⟩
      -- what the rest of the loop serves is what is left of the whole
      have hserved : served log.length kill (n + 2) (q + 1) (client.deliver q token).ack =
          served log.length kill n q client.ack := by
        rw [hack]
        unfold served
        split_ifs <;> omega
      have hrest := ih (n := n + 2) (q := q + 1) (hheld.deliver htoken) (by omega) (by omega) (by omega) hn'
      rw [hserved] at hrest
      exact hrest

/-! ## A turn

The workers of a turn come one after the other, so that the ACK is a fold over the draws. -/

theorem after_le {d : Draw} {L ack : Nat} (h : ack ≤ L) : ack ≤ d.after L ack ∧ d.after L ack ≤ L := by
  unfold Draw.after
  split_ifs <;> omega

theorem acks_le (L : Nat) (rng : Nat → Draw) (n : Nat) : acks L rng n ≤ L := by
  induction n with
  | zero => exact Nat.zero_le L
  | succ n ih => exact (after_le ih).2

/-- A client that has everything keeps it. -/
theorem acks_complete {L : Nat} (h : acks L rng n = L) (m : Nat) : acks L rng (n + m) = L := by
  induction m with
  | zero => exact h
  | succ m ih =>
    have hle : acks L rng (n + m) ≤ acks L rng (n + (m + 1)) := (after_le (Nat.le_of_eq ih)).1
    rw [ih] at hle
    exact Nat.le_antisymm (acks_le L rng _) hle

theorem attempt_spec {d : Draw} (h : Prefix log client) :
    ∃ res client', attempt log d client = some (res, client') ∧ Prefix log client' ∧
      client'.ack = d.after log.length client.ack ∧ (∀ a, res = .ok a → client'.ack = log.length) := by
  have hknown : d.server_known client.ack + 1 ≤ client.ack + 1 := Nat.succ_le_succ (Nat.sub_le _ _)
  obtain ⟨res, s, hrun, hok, hraise⟩ := (serve_ends d.kill _ (n := 0) h rfl (Nat.le_add_left 1 _) hknown
    (Nat.eq_zero_or_pos d.kill)).run
  have hattempt : attempt log d client = some (res, s.client) := congrArg (Option.map _) hrun
  refine ⟨res, s.client, hattempt, ?_⟩
  cases res with
  | ok a =>
    obtain ⟨hheld, hack, hall⟩ := hok a rfl
    exact ⟨hheld, hack, fun _ _ => hall⟩
  | error e =>
    obtain ⟨hheld, hack⟩ := hraise e rfl
    exact ⟨hheld, hack, fun a ha => by cases ha⟩

/-- **The workers of a turn**, one after the other. -/
theorem reroute_spec (rng : Nat → Draw) (left : Nat) :
    ∀ {client : StreamClient String} (workers : Nat), Prefix log client →
    client.ack = acks log.length rng workers →
    Prefix log (reroute log rng left client workers).1 ∧
      (reroute log rng left client workers).1.ack = acks log.length rng (workers + left) := by
  induction left with
  | zero => exact fun _ hheld hack => ⟨hheld, hack⟩
  | succ left ih =>
    intro client workers hheld hack
    have hlength := hheld.ack_le
    unfold reroute
    split_ifs with hless
    · obtain ⟨res, client', hattempt, hheld', hafter, hall⟩ := attempt_spec (d := rng (workers + 1)) hheld
      have hack' : client'.ack = acks log.length rng (workers + 1) := by
        rw [hafter, hack]
        rfl
      have hnext : workers + 1 + left = workers + (left + 1) := by omega
      rw [hattempt]
      -- a worker that ends has served everything; after one that is killed the next starts
      cases res with
      | ok a =>
        have hcomplete : acks log.length rng (workers + 1) = log.length := hack'.symm.trans (hall a rfl)
        rw [← hnext, acks_complete hcomplete]
        exact ⟨hheld', hall a rfl⟩
      | error e =>
        rw [← hnext]
        exact ih _ hheld' hack'
    · -- nothing is left to be served
      have hcomplete : acks log.length rng workers = log.length := by omega
      rw [acks_complete hcomplete]
      refine ⟨hheld, ?_⟩
      show client.ack = log.length
      omega

/-- **A turn.** -/
theorem run_turn_spec (tokens : List String) (rng : Nat → Draw) (m : Nat) :
    (run_turn tokens rng m).1.received = tokens.take (acks tokens.length rng m) ∧
      (run_turn tokens rng m).1.ack = acks tokens.length rng m := by
  obtain ⟨hheld, hack⟩ := reroute_spec rng m 0 (prefix_new ⟨tokens⟩) rfl
  rw [Nat.zero_add] at hack
  exact ⟨hack ▸ hheld.received, hack⟩

/-! ## The audit

The counts of `main`, one trial after the other. -/

theorem length_tokensOf (L : Nat) : (tokensOf L).length = L := by
  rw [tokensOf, List.length_map, List.length_range]

theorem nodup_tokensOf (L : Nat) : (tokensOf L).Nodup := by
  refine List.Nodup.map ?_ List.nodup_range
  intro i j h
  exact Json.natRepr_injective ((String.append_right_inj "tok").mp h)

/-- **What is counted of a client that has the first tokens.** -/
theorem add_eq {tokens : List String} (bad : Bad) (hnodup : tokens.Nodup) (hreceived : client.received =
    tokens.take client.ack) (hless : client.ack < tokens.length) :
    bad.add tokens client = { bad with not_completed := bad.not_completed + 1 } := by
  have hlength : client.received.length = client.ack := by
    rw [hreceived, List.length_take]
    omega
  have hsub : client.received.Nodup := hreceived ▸ hnodup.sublist (List.take_sublist _ _)
  have hcard : client.received.toFinset.card = client.received.length := List.toFinset_card_of_nodup hsub
  unfold Bad.add
  rw [hcard, hlength, ← hreceived]
  simp [hless]

/-- **A trial.** -/
theorem add_run_turn (r : Counts) (L : Nat) (rng : Nat → Draw) :
    (r.add (tokensOf L) (run_turn (tokensOf L) rng 200).1 (run_turn (tokensOf L) rng 200).2).exact =
        r.exact + (if acks L rng 200 = L then 1 else 0) ∧
      (r.add (tokensOf L) (run_turn (tokensOf L) rng 200).1 (run_turn (tokensOf L) rng 200).2).bad =
        if acks L rng 200 = L then r.bad else { r.bad with not_completed := r.bad.not_completed + 1 } := by
  obtain ⟨hreceived, hack⟩ := run_turn_spec (tokensOf L) rng 200
  rw [length_tokensOf] at hreceived hack
  have hle := acks_le L rng 200
  have hexact : (run_turn (tokensOf L) rng 200).1.received = tokensOf L ↔ acks L rng 200 = L := by
    rw [hreceived]
    constructor
    · intro h
      have hlength := congrArg List.length h
      rw [List.length_take, length_tokensOf] at hlength
      omega
    · intro h
      rw [h]
      exact List.take_of_length_le (Nat.le_of_eq (length_tokensOf L))
  unfold Counts.add
  by_cases h : acks L rng 200 = L
  · simp only [hexact, h, if_true, and_self]
  · simp only [hexact, h, if_false, true_and]
    refine add_eq _ (nodup_tokensOf L) (hack.symm ▸ hreceived) ?_
    rw [hack, length_tokensOf]
    omega

theorem audit_succ (N : Nat) (L : Nat → Nat) (rng : Nat → Nat → Draw) :
    audit (N + 1) L rng = (audit N L rng).add (tokensOf (L N)) (run_turn (tokensOf (L N)) (rng N) 200).1
      (run_turn (tokensOf (L N)) (rng N) 200).2 := by
  unfold audit
  rw [List.range_succ, List.foldl_append]
  rfl

/-- **All trials.** -/
theorem audit_eq (N : Nat) (L : Nat → Nat) (rng : Nat → Nat → Draw) :
    (audit N L rng).exact = (List.range N).countP (fun t => acks (L t) (rng t) 200 = L t) ∧
      (audit N L rng).bad = ⟨0, 0, 0, N - (audit N L rng).exact⟩ ∧ (audit N L rng).exact ≤ N := by
  induction N with
  | zero => exact ⟨rfl, rfl, Nat.le_refl 0⟩
  | succ N ih =>
    obtain ⟨hexact, hbad, hle⟩ := ih
    obtain ⟨hexact', hbad'⟩ := add_run_turn (audit N L rng) (L N) (rng N)
    rw [audit_succ, hexact', hbad', List.range_succ, List.countP_append, hexact]
    rw [hexact] at hbad hle
    by_cases h : acks (L N) (rng N) 200 = L N
    · refine ⟨by simp [h], ?_, by simp only [h, if_true]; omega⟩
      rw [if_pos h, if_pos h, hbad]
      exact congrArg (Bad.mk 0 0 0) (Nat.add_sub_add_right N 1 _).symm
    · refine ⟨by simp [h], ?_, by simp only [h, if_false]; omega⟩
      rw [if_neg h, if_neg h, hbad]
      exact congrArg (Bad.mk 0 0 0) (Nat.sub_add_comm hle).symm

/-- **Headline.** Whatever is drawn for whatever turns: the client of every turn has the first tokens, once and in
    order, nothing is counted but an end that is not reached, and the audit passes when every turn reaches its end. -/
theorem audit_passes_iff (N : Nat) (L : Nat → Nat) (rng : Nat → Nat → Draw) :
    (∀ t, (run_turn (tokensOf (L t)) (rng t) 200).1.received = (tokensOf (L t)).take (acks (L t) (rng t) 200)) ∧
      (audit N L rng).exact = (List.range N).countP (fun t => acks (L t) (rng t) 200 = L t) ∧
      (audit N L rng).bad = ⟨0, 0, 0, N - (audit N L rng).exact⟩ ∧
      (PHASE4_PASS N (audit N L rng) = true ↔ ∀ t < N, acks (L t) (rng t) 200 = L t) := by
  obtain ⟨hexact, hbad, hle⟩ := audit_eq N L rng
  refine ⟨?_, hexact, hbad, ?_⟩
  · intro t
    have hreceived := (run_turn_spec (tokensOf (L t)) (rng t) 200).1
    rw [length_tokensOf] at hreceived
    exact hreceived
  · have hall : (audit N L rng).exact = N ↔ ∀ t < N, acks (L t) (rng t) 200 = L t := by
      have hcount := List.countP_eq_length (p := fun t => decide (acks (L t) (rng t) 200 = L t)) (l := List.range N)
      rw [List.length_range] at hcount
      rw [hexact, hcount]
      simp
    rw [← hall, PHASE4_PASS, decide_eq_true_iff, hbad]
    constructor
    · exact And.left
    · intro h
      refine ⟨h, ?_⟩
      rw [h, Nat.sub_self]

end AgentTx.Stream.Memory
