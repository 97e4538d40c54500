import AgentTx.Lib.Prog.RelyGuarantee
import Mathlib.Data.List.Basic

/-!
# `Stream.Memory` — delivery from a log in memory (`agenttx/stream.py`)

Any number of workers `serve` one log to one client, each from a start point and with a clock that may end it;
their deliveries and ticks come in any order, and a worker may also die at any point. The client alone decides
what is kept: whatever arrives, it holds the first tokens of the log, as many as its ACK says (`Prefix`), and
the ACK only grows. A worker that starts no further than the next token leaves no gap: its next token is never
beyond the client's (`Pending`).

Layout of the proof:
* **The client** — `Prefix.deliver`: whatever token of the log arrives, under whatever number.
* **The workers** — `serve_spec`, by induction on the tokens to come, with `Pending` as what a worker knows of them.
  It is stable because the ACK only grows.
* **Runs** — the system rule, and `ack_le_run` over it.

Main result: `delivered_exactly_once`; in the run below it one worker starts over where another was ended.
-/

namespace AgentTx.Stream.Memory

variable {ι κ α : Type}

/-! ## The code -/

inductive Exn where
  | WorkerCrash
  deriving DecidableEq

structure CrashClock where
  n : Int
  kill_at : Int
  deriving DecidableEq

/-- Whether the tick raises, and the clock after it. -/
def CrashClock.tick (c : CrashClock) : Bool × CrashClock :=
  let n := c.n + 1
  (decide (c.kill_at ≠ 0 ∧ n = c.kill_at), { c with n })

/-- The committed tokens of a turn; sequence numbers count from 1. -/
structure StreamLog (α : Type) where
  tokens : List α

def StreamLog.length (log : StreamLog α) : Nat := log.tokens.length

/-- The tokens from number `seq` on, each with its number. -/
def StreamLog.range_from (log : StreamLog α) (seq : Nat) : List (Nat × α) :=
  (List.range' seq (log.length + 1 - seq)).filterMap fun i => log.tokens[i - 1]?.map (i, ·)

structure StreamClient (α : Type) where
  ack : Nat
  received : List α
  dup_dropped : Nat

def StreamClient.new : StreamClient α := ⟨0, [], 0⟩

def StreamClient.deliver (c : StreamClient α) (seq : Nat) (token : α) : StreamClient α :=
  if seq = c.ack + 1 then { c with received := c.received ++ [token], ack := seq }
  else if seq ≤ c.ack then { c with dup_dropped := c.dup_dropped + 1 }
  else c

/-- What the workers share. -/
structure Shared (κ α : Type) where
  client : StreamClient α
  clocks : κ → CrashClock

inductive Stmt where
  | tick
  | deliver
  deriving DecidableEq

abbrev WorkerProg (κ α : Type) := Prog Stmt (Shared κ α) Exn

section Programs

variable [DecidableEq κ]

def tick (clock : κ) : WorkerProg κ α Unit := do
  let crash ← Prog.step .tick fun s =>
    let r := (s.clocks clock).tick
    some (r.1, { s with clocks := Function.update s.clocks clock r.2 })
  if crash then .raise .WorkerCrash else pure ()

def deliver (seq : Nat) (token : α) : WorkerProg κ α Unit :=
  Prog.modify .deliver fun s => { s with client := s.client.deliver seq token }

def serve (log : StreamLog α) (resume_from : Nat) (clock : κ) : WorkerProg κ α Unit :=
  Prog.forEach (log.range_from resume_from) fun p => do
    tick clock
    deliver p.1 p.2
    tick clock

/-- The arguments of a worker. -/
structure Worker (κ : Type) where
  resume_from : Nat
  resume_pos : 1 ≤ resume_from
  clock : κ

/-- The workers of one log and one client. -/
def system (log : StreamLog α) (worker : ι → Worker κ) : System ι Empty Stmt (Shared κ α) Exn Unit where
  main i := serve log (worker i).resume_from (worker i).clock
  abort _ s := s
  env := Empty.elim
  kills := Empty.elim

end Programs

/-! ## The log

`range_from` gives the tokens from a number on, so that it can be followed one token at a time. -/

theorem range_from_of_lt {log : StreamLog α} {q : Nat} (h : log.length < q) : log.range_from q = [] := by
  have hnone : log.length + 1 - q = 0 := by omega
  rw [StreamLog.range_from, hnone]
  rfl

theorem range_from_cons {log : StreamLog α} {q : Nat} (hpos : 1 ≤ q) (hle : q ≤ log.length) :
    ∃ token, log.tokens[q - 1]? = some token ∧ log.range_from q = (q, token) :: log.range_from (q + 1) := by
  have hlt : q - 1 < log.tokens.length := by
    unfold StreamLog.length at hle
    omega
  have htoken : log.tokens[q - 1]? = some log.tokens[q - 1] := List.getElem?_eq_getElem hlt
  have hcount : log.length + 1 - q = log.length + 1 - (q + 1) + 1 := by omega
  refine ⟨_, htoken, ?_⟩
  rw [StreamLog.range_from, hcount, List.range'_succ, List.filterMap_cons, htoken]
  rfl

/-! ## The client

It keeps the token that is next and drops every other one. -/

/-- The client holds the first tokens of the log. -/
structure Prefix (log : StreamLog α) (c : StreamClient α) : Prop where
  received : c.received = log.tokens.take c.ack
  ack_le : c.ack ≤ log.length

theorem prefix_new (log : StreamLog α) : Prefix log .new := ⟨rfl, Nat.zero_le _⟩

variable {log : StreamLog α} {c : StreamClient α} {seq : Nat} {token : α}

/-- **Whatever arrives.** A token of the log under its number leaves the client a prefix of the log. -/
theorem Prefix.deliver (h : Prefix log c) (htoken : log.tokens[seq - 1]? = some token) :
    Prefix log (c.deliver seq token) := by
  unfold StreamClient.deliver
  split_ifs with hnext hold
  · subst hnext
    rw [Nat.add_sub_cancel] at htoken
    constructor
    · simp only [h.received, List.take_add_one, htoken, Option.toList_some]
    · obtain ⟨hlt, -⟩ := List.getElem?_eq_some_iff.mp htoken
      exact hlt
  · exact ⟨h.received, h.ack_le⟩
  · exact h

theorem ack_le_deliver : c.ack ≤ (c.deliver seq token).ack := by
  unfold StreamClient.deliver
  split_ifs with hnext hold
  · simp only [hnext]
    omega
  · exact Nat.le_refl _
  · exact Nat.le_refl _

/-- A token that is not beyond the next one is there afterwards. -/
theorem le_ack_deliver (h : seq ≤ c.ack + 1) : seq ≤ (c.deliver seq token).ack := by
  unfold StreamClient.deliver
  split_ifs with hnext hold
  · exact Nat.le_refl _
  · exact hold
  · omega

/-! ## The workers

A worker does not know what others deliver; it knows that the ACK does not fall behind it. -/

/-- The client holds a prefix; nobody takes anything away from it. -/
def rules (log : StreamLog α) : RelyGuarantee ι Stmt (Shared κ α) where
  Inv s := Prefix log s.client
  Rely _ s s' := s.client.ack ≤ s'.client.ack
  Guar _ _ s s' := s.client.ack ≤ s'.client.ack

/-- `todo` is the log from some number on; a worker that `reaches` the client has left no gap below it. -/
def Pending (log : StreamLog α) (reaches : Prop) (todo : List (Nat × α)) (s : Shared κ α) : Prop :=
  ∃ q, 1 ≤ q ∧ todo = log.range_from q ∧ (reaches → q ≤ s.client.ack + 1)

theorem stable_pending {i : ι} {reaches : Prop} {todo : List (Nat × α)} :
    (rules log).Stable i (Pending (κ := κ) log reaches todo) := by
  rintro s s' - - hrely ⟨q, hpos, htodo, hq⟩
  refine ⟨q, hpos, htodo, fun hreaches => ?_⟩
  exact Nat.le_trans (hq hreaches) (Nat.succ_le_succ hrely)

section Specs

variable [DecidableEq κ] {i : ι} {reaches : Prop}

/-- A tick is nobody's business but the clock's. -/
theorem tick_spec {clock : κ} {P : Shared κ α → Prop} (hP : (rules log).Stable i P) :
    (rules log).Triple i P (tick clock) (fun _ => P) fun _ _ => True := by
  refine RelyGuarantee.Triple.bind (Q := fun _ => P) (.step hP fun s a s' hs hp _ hact => ?_) fun crash => ?_
  · cases hact
    exact ⟨Nat.le_refl _, hs, hP s _ hs hs (Nat.le_refl _) hp⟩
  · cases crash with
    | true => exact .raise fun _ _ _ => trivial
    | false => exact .ret fun _ _ hp => hp

omit [DecidableEq κ] in
theorem deliver_spec {p : Nat × α} {todo : List (Nat × α)} :
    (rules log).Triple i (Pending log reaches (p :: todo)) (deliver (κ := κ) p.1 p.2)
      (fun _ => Pending log reaches todo) fun _ _ => True := by
  refine .modify stable_pending fun s hs hp _ => ?_
  obtain ⟨q, hpos, htodo, hq⟩ := hp
  -- a list that is not empty is not from beyond the end
  have hle : q ≤ log.length := by
    by_contra hlt
    rw [range_from_of_lt (Nat.lt_of_not_le hlt)] at htodo
    cases htodo
  obtain ⟨token, htoken, hrange⟩ := range_from_cons hpos hle
  rw [hrange] at htodo
  cases htodo
  refine ⟨ack_le_deliver, hs.deliver htoken, q + 1, Nat.le_add_left .., rfl, fun hreaches => ?_⟩
  exact Nat.succ_le_succ (le_ack_deliver (hq hreaches))

/-- **A worker.** One that reaches the client when it starts has brought it to the end when it returns. -/
theorem serve_spec (reaches : Prop) (w : Worker κ) :
    (rules log).Triple i (fun s => reaches → w.resume_from ≤ s.client.ack + 1)
      (serve log w.resume_from w.clock) (fun _ s => reaches → log.length ≤ s.client.ack) fun _ _ => True := by
  have hbody : ∀ (p : Nat × α) (todo : List (Nat × α)), (rules log).Triple i (Pending log reaches (p :: todo))
      (do tick w.clock; deliver p.1 p.2; tick w.clock) (fun _ => Pending log reaches todo) fun _ _ => True := by
    intro p todo
    exact (tick_spec stable_pending).bind fun _ => deliver_spec.bind fun _ => tick_spec stable_pending
  have hloop := RelyGuarantee.Triple.forEach hbody (log.range_from w.resume_from)
  refine hloop.conseq (fun s _ hstart => ⟨w.resume_from, w.resume_pos, rfl, hstart⟩) ?_ fun _ _ _ he => he
  rintro _ s - ⟨q, hpos, hnil, hq⟩ hreaches
  have hend : log.length < q := by
    by_contra hle
    obtain ⟨token, -, hrange⟩ := range_from_cons hpos (Nat.le_of_not_lt hle)
    rw [hrange] at hnil
    cases hnil
  have hack := hq hreaches
  omega

end Specs

/-! ## Runs

The ACK grows along every run, and with it the prefix that the client holds. -/

section Runs

variable [DecidableEq ι] [DecidableEq κ] {worker : ι → Worker κ}

omit [DecidableEq ι] in
theorem verified : RelyGuarantee.Verified (system log worker) (rules log) fun _ _ => True where
  main i := (serve_spec False (worker i)).conseq (fun _ _ _ h => h.elim) (fun _ _ _ _ => trivial)
    fun _ _ _ _ => trivial
  pre_stable _ := .const True
  guar_rely _ _ _ _ _ _ _ _ hguar := hguar
  abort _ _ hs := ⟨hs, fun _ _ => Nat.le_refl _⟩
  env e := e.elim

omit [DecidableEq ι] [DecidableEq κ] in
/-- What a run starts from: the client has nothing; the clocks are any. -/
theorem init_of_new {s₀ : Shared κ α} (h₀ : s₀.client = .new) :
    ∀ s, s = s₀ → (rules log : RelyGuarantee ι Stmt (Shared κ α)).Inv s ∧ ∀ _ : ι, True := by
  rintro s rfl
  refine ⟨?_, fun _ => trivial⟩
  show Prefix log s.client
  rw [h₀]
  exact prefix_new log

/-- **Step.** The ACK does not go back. -/
theorem ack_le_step {s₀ : Shared κ α} (h₀ : s₀.client = .new) {c c' : Config ι Stmt (Shared κ α) Exn Unit}
    {l : Label ι Empty Stmt} (hc : (system log worker).Reachable (· = s₀) c)
    (hstep : (system log worker).step c l = some c') : c.shared.client.ack ≤ c'.shared.client.ack := by
  rcases System.step_cases hstep with ⟨i, rfl, -, rfl⟩ | ⟨i, t, _, _, _, _, _, rfl, -, -, -⟩ |
    ⟨i, _, rfl, -, rfl⟩ | ⟨e, -⟩
  · exact Nat.le_refl _
  · exact verified.guar (fun _ _ _ => trivial) (init_of_new h₀) hc hstep
  · exact Nat.le_refl _
  · exact e.elim

/-- **Run.** Nor over a run. -/
theorem ack_le_run {s₀ : Shared κ α} (h₀ : s₀.client = .new) {c c' : Config ι Stmt (Shared κ α) Exn Unit}
    {ls : List (Label ι Empty Stmt)} (hc : (system log worker).Reachable (· = s₀) c)
    (hrun : Lts.Exec (Lts.ofFun (system log worker).step) c ls c') :
    c.shared.client.ack ≤ c'.shared.client.ack := by
  induction hrun with
  | refl => exact Nat.le_refl _
  | tail hpre hstep ih => exact Nat.le_trans ih (ack_le_step h₀ (Lts.Reachable.exec hc hpre) hstep)

/-- A worker that starts no further than the next token and returns has delivered the log to its end. -/
theorem delivered_of_return {s₀ : Shared κ α} (h₀ : s₀.client = .new)
    {c c₁ c' : Config ι Stmt (Shared κ α) Exn Unit} {i : ι} {ls : List (Label ι Empty Stmt)}
    (hc : (system log worker).Reachable (· = s₀) c)
    (hspawn : (system log worker).step c (.spawn i) = some c₁)
    (hreaches : (worker i).resume_from ≤ c.shared.client.ack + 1)
    (hrun : Lts.Exec (Lts.ofFun (system log worker).step) c₁ ls c') (hret : c'.procs i = .running (.ret ())) :
    log.length ≤ c'.shared.client.ack := by
  have hinv : Prefix log c.shared.client := verified.inv (fun _ _ _ => trivial) (init_of_new h₀) hc
  have hc₁ : (system log worker).Reachable (· = s₀) c₁ := Lts.Reachable.step hc hspawn
  rcases System.step_cases hspawn with ⟨_, hl, hfresh, rfl⟩ | ⟨_, _, _, _, _, _, _, hl, -⟩ | ⟨_, _, hl, -⟩ | ⟨e, -⟩
  · cases hl
    have hstart : RelyGuarantee.Follows (rules log) i (fun _ s => log.length ≤ s.client.ack) (fun _ _ => True)
        (⟨c.shared, Function.update c.procs i (.running ((system log worker).main i))⟩ :
          Config ι Stmt (Shared κ α) Exn Unit) := by
      constructor
      · simp
      · intro p hp
        simp only [Function.update_self, Proc.running.injEq] at hp
        subst hp
        have hserve : (rules log).Triple i _ _ _ _ := serve_spec (i := i) True (worker i)
        have hsafe := hserve c.shared hinv fun _ => hreaches
        exact hsafe.mono (fun _ _ _ h => h trivial) (fun _ _ _ h => h) hinv
    have hend := verified.follows_run (fun _ _ _ => trivial) (fun e => e.elim)
      (fun _ _ _ _ _ hrely hle => Nat.le_trans hle hrely) (fun _ => .const True) (init_of_new h₀) hc₁ hstart hrun
    exact hend.2 _ hret
  · cases hl
  · cases hl
  · exact e.elim

/-- **Exactly once, in order.** For every log, any number of workers and every order of their steps, ticks that
    raise and deaths included: the client holds the first tokens of the log, as many as its ACK says; the ACK
    never goes back; and a worker that starts no further than the next token and runs to its end leaves the
    client with the whole log. -/
theorem delivered_exactly_once (log : StreamLog α) (worker : ι → Worker κ) (s₀ : Shared κ α) (h₀ : s₀.client = .new)
    (c : Config ι Stmt (Shared κ α) Exn Unit) (hc : (system log worker).Reachable (· = s₀) c) :
    c.shared.client.received = log.tokens.take c.shared.client.ack ∧ c.shared.client.ack ≤ log.length ∧
      (∀ ls c', Lts.Exec (Lts.ofFun (system log worker).step) c ls c' →
        c.shared.client.ack ≤ c'.shared.client.ack) ∧
      ∀ i c₁ ls c', (system log worker).step c (.spawn i) = some c₁ →
        (worker i).resume_from ≤ c.shared.client.ack + 1 →
        Lts.Exec (Lts.ofFun (system log worker).step) c₁ ls c' → c'.procs i = .running (.ret ()) →
        c'.shared.client.received = log.tokens := by
  have hclient : ∀ c' : Config ι Stmt (Shared κ α) Exn Unit, (system log worker).Reachable (· = s₀) c' →
      Prefix log c'.shared.client :=
    fun c' hc' => verified.inv (fun _ _ _ => trivial) (init_of_new h₀) hc'
  refine ⟨(hclient c hc).received, (hclient c hc).ack_le, fun ls c' hrun => ack_le_run h₀ hc hrun, ?_⟩
  intro i c₁ ls c' hspawn hreaches hrun hret
  have hc₁ : (system log worker).Reachable (· = s₀) c₁ := Lts.Reachable.step hc hspawn
  have hc' : (system log worker).Reachable (· = s₀) c' := Lts.Reachable.exec hc₁ hrun
  rw [(hclient c' hc').received]
  exact List.take_of_length_le (delivered_of_return h₀ hc hspawn hreaches hrun hret)

end Runs

/-! A worker that dies before its second delivery, and another one that takes over. -/

def worker : Bool → Worker Bool
  | true => ⟨1, Nat.le_refl _, true⟩
  | false => ⟨2, Nat.le_succ _, false⟩

def shared : Shared Bool String := ⟨.new, fun k => ⟨0, if k then 3 else 0⟩⟩

/-- The first one's clock stops it; the second one, which starts at token 2, brings the client to the end. -/
theorem delivered_exactly_once_reroute :
    ∃ c c₁ c' : Config Bool Stmt (Shared Bool String) Exn Unit,
      (system ⟨["a", "b"]⟩ worker).Reachable (· = shared) c ∧ c.shared.client.received = ["a"] ∧
      (system ⟨["a", "b"]⟩ worker).step c (.spawn false) = some c₁ ∧
      (system ⟨["a", "b"]⟩ worker).Reachable (· = shared) c' ∧ c'.shared.client.received = ["a", "b"] := by
  let S : System Bool Empty Stmt (Shared Bool String) Exn Unit := system ⟨["a", "b"]⟩ worker
  have hruns : ∃ c c₁ c', Lts.runAll S.step ⟨shared, fun _ => .fresh⟩
        [.spawn true, .next true .tick, .next true .deliver, .next true .tick, .next true .tick] = some c ∧
      S.step c (.spawn false) = some c₁ ∧
      Lts.runAll S.step c₁ [.next false .tick, .next false .deliver, .next false .tick] = some c' ∧
      c.shared.client.ack = 1 ∧ c'.procs false = .running (.ret ()) :=
    ⟨_, _, _, rfl, rfl, rfl, rfl, rfl⟩
  obtain ⟨c, c₁, c', hfirst, hspawn, hsecond, hack, hret⟩ := hruns
  have hc : S.Reachable (· = shared) c := ⟨_, _, ⟨rfl, fun _ => rfl⟩, Lts.runAll_exec hfirst⟩
  have hc' : S.Reachable (· = shared) c' := (Lts.Reachable.step hc hspawn).exec (Lts.runAll_exec hsecond)
  obtain ⟨hreceived, -, -, hall⟩ := delivered_exactly_once ⟨["a", "b"]⟩ worker shared rfl c hc
  rw [hack] at hreceived
  refine ⟨c, c₁, c', hc, hreceived, hspawn, hc', ?_⟩
  have hreaches : (worker false).resume_from ≤ c.shared.client.ack + 1 := by
    rw [hack]
    exact Nat.le_refl _
  exact hall false c₁ _ c' hspawn hreaches (Lts.runAll_exec hsecond) hret

end AgentTx.Stream.Memory
