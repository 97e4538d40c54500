import AgentTx.Kv.RoundTrip
import AgentTx.Stack.Calls

/-!
# `Stack.Turn` — a turn of the whole stack, attempted until it is done

`Sound` holds between any two steps of the attempts at a turn, whatever ends them. `Spec` adds to the triple of each
part how it ends when nothing but the clock interferes: it returns, or the clock has killed it (`turn_spec`). From the
triple, a turn charges once, writes its receipt once and whole, observes nothing that is not committed, and gives the
client a beginning of its output (`turn_exactly_once`).

Layout of the proof:
* **The invariant** — `Sound`: the actions kept by the gateway's contract, a log whose observations are of committed
  actions, and a client that has a beginning of the output. `Stage` is how far the turn has come.
* **The parts** — one `Spec` for each: the calls and the clock, lifted from the gateway's contract (`onWorld_spec`);
  the rows of the log (`append_spec`); the snapshot, its damage and its restore (`snapshot_spec`); the stream, by
  induction on the tokens that are left (`stream_spec`).
* **The turn** — `turn_spec` puts them in the order of `run_turn`; `turn_ends` is its second half.
* **The attempts** — `verified_attempts` carries `Sound` over deaths and restarts, and `Sound.exactlyOnce` reads off
  what it says of a turn that was fresh.

Main results:
* `turn_exactly_once` — at any point of any attempts, `ExactlyOnce`.
* `turn_ends` — a turn alone ends, unless the clock kills it.
-/

namespace AgentTx.Stack

open Gateway (World Clock Result ChargeRow ChargeTool ReceiptTool Outside GwProg Contract Db settled)
open Kv (KvState KvProg)

/-! ## The invariant -/

section Invariant

variable (turn : String)

/-- The actions are committed, and observed. -/
def Observed (keys : List String) (n : Node) : Prop :=
  ∀ k ∈ keys, Committed n.world.committed k ∧ ⟨turn, .OBSERVATION, k⟩ ∈ n.wal

/-- No transaction is open, and so far with the actions. -/
structure Stage (keys : List String) (n : Node) : Prop where
  idle : n.world.working = n.world.committed
  observed : Observed turn keys n

/-- The actions of the turn. -/
def actions : List String := [receiptKey turn, chargeKey turn]

variable (str : Json → String) (store order : String) (n₀ : Node)

/-- What the turn has added to the log. -/
structure Logged (rows : List WalRow) (n : Node) : Prop where
  wal : n.wal = n₀.wal ++ rows
  turn : ∀ row ∈ rows, row.turn = turn
  observation : ∀ row ∈ rows, row.type = .OBSERVATION → Committed n.world.committed row.key
  committed : ∀ row ∈ rows, row.type = .TURN_COMMITTED → n.client.ack = OUT_LEN

/-- **Between any two steps** of the attempts at a turn that found `n₀`. -/
structure Sound (n : Node) : Prop where
  kept : Kept str store order turn n₀.world.committed n₀.world.ext n.world.committed n.world.ext
  log : ∃ rows, Logged turn n₀ rows n
  ack_le : n.client.ack ≤ OUT_LEN
  recv : n.client.recv = (out_tokens order).take n.client.ack
  effected : 0 < n.client.ack → Observed turn (actions turn) n

/-- Nobody interferes. -/
def rules : RelyGuarantee Unit Stmt Node :=
  Serial.alone (Sound turn str store order n₀) (fun _ _ _ => True) fun _ _ => True

/-- The block files are files of their own, none of them empty; and the clock kills at tick `k`. -/
structure Calm (k : Nat) (n : Node) : Prop where
  plain : Kv.Plain n.kv
  blocks : ∀ b content, n.kv.cas.read (Kv.final b) = some content → content ≠ []
  kill_at : n.world.clock.kill_at = k

/-- Only the clock can have killed it. -/
def Killed (k : Nat) (e : Exn) (n : Node) : Prop := (e = .Crash ∧ k ≠ 0) ∧ Calm k n

/-- **What is known of a part of a turn**: its triple, and how it ends when it runs alone to its end. -/
structure Spec {α : Type} (P : Node → Prop) (p : NodeProg α) (Q : α → Node → Prop) : Prop where
  triple : (rules turn str store order n₀).Triple () P p Q fun _ _ => True
  ends : ∀ k n, Sound turn str store order n₀ n → P n → Calm k n → p.Ends (fun _ => Calm k) (Killed k) n

end Invariant

variable {str : Json → String} {store order turn : String} {n₀ n : Node} {α β : Type} {P : Node → Prop}

/-- **One part after the other.** -/
theorem Spec.bind {p : NodeProg α} {f : α → NodeProg β} {Q : α → Node → Prop} {Q' : β → Node → Prop}
    (hp : Spec turn str store order n₀ P p Q) (hf : ∀ a, Spec turn str store order n₀ (Q a) (f a) Q') :
    Spec turn str store order n₀ P (p >>= f) Q' where
  triple := hp.triple.bind fun a => (hf a).triple
  ends := by
    intro k n hsound hP hcalm
    have h := hp.triple.ends (fun _ _ => trivial) hsound hP (hp.ends k n hsound hP hcalm)
    refine Prog.Ends.bind (h.mono (fun _ _ h => h) fun _ _ he => he.2.2) ?_
    rintro a n' ⟨hsound', hQ, hcalm'⟩
    exact (hf a).ends k n' hsound' hQ hcalm'

theorem Spec.conseq {P' : Node → Prop} {p : NodeProg α} {Q Q' : α → Node → Prop}
    (hp : Spec turn str store order n₀ P p Q) (hP : ∀ n, P' n → P n) (hQ : ∀ a n, Q a n → Q' a n) :
    Spec turn str store order n₀ P' p Q' where
  triple := hp.triple.conseq (fun n _ h => hP n h) (fun a n _ h => hQ a n h) fun _ _ _ h => h
  ends k n hsound hn := hp.ends k n hsound (hP n hn)

theorem Spec.pure {a : α} {Q : α → Node → Prop} (h : ∀ n, P n → Q a n) :
    Spec turn str store order n₀ P (Pure.pure a) Q where
  triple n _ hP := h n hP
  ends _ _ _ _ hcalm := hcalm

/-- What is never reached. -/
theorem Spec.absurd {p : NodeProg α} {Q : α → Node → Prop} (h : ∀ n, Sound turn str store order n₀ n → P n → False) :
    Spec turn str store order n₀ P p Q where
  triple n hsound hP := (h n hsound hP).elim
  ends _ n hsound hP _ := (h n hsound hP).elim

/-- A statement of the turn's own. -/
theorem Spec.modify {t : Stmt} {f : Node → Node} {Q : Node → Prop}
    (h : ∀ n, Sound turn str store order n₀ n → P n → Sound turn str store order n₀ (f n) ∧ Q (f n))
    (hkv : ∀ n, (f n).kv = n.kv) (hclock : ∀ n, (f n).world.clock = n.world.clock) :
    Spec turn str store order n₀ P (Prog.modify t f) fun _ => Q where
  triple := by
    refine RelyGuarantee.Triple.modify (Serial.stable_alone _) ?_
    intro n hsound hP _
    exact ⟨trivial, h n hsound hP⟩
  ends := by
    intro k n _ _ hcalm
    rw [Prog.ends_modify]
    refine ⟨?_, ?_, ?_⟩
    · rw [hkv]
      exact hcalm.plain
    · rw [hkv]
      exact hcalm.blocks
    · rw [hclock]
      exact hcalm.kill_at

/-- A look, from which the turn goes on. -/
theorem Spec.look {t : Stmt} {f : Node → α} {g : α → NodeProg β} {Q : β → Node → Prop}
    (h : ∀ a, Spec turn str store order n₀ (fun n => P n ∧ f n = a) (g a) Q) :
    Spec turn str store order n₀ P (Prog.read t f >>= g) Q where
  triple := by
    refine RelyGuarantee.Triple.bind (Q := fun a n => P n ∧ f n = a) ?_ fun a => (h a).triple
    exact RelyGuarantee.Triple.read (Serial.stable_alone _) (fun _ => trivial) fun n _ hP _ => ⟨hP, rfl⟩
  ends := by
    intro k n hsound hP hcalm
    refine Prog.Ends.bind (Q := fun a n' => a = f n ∧ n' = n) ((Prog.ends_read _ _).mpr ⟨rfl, rfl⟩) ?_
    rintro a n' ⟨rfl, rfl⟩
    exact (h _).ends k n' hsound ⟨hP, rfl⟩ hcalm

/-! ## The gateway and the clock

A call runs in a part of the node, its tables and files. The contract speaks of these only: it is used at the world in
which the call starts, with what is committed there as what has to stay so, and the frame keeps the rest of the node
(`Serial.triple_zoom`). -/

theorem run_onWorld (p : GwProg ChargeRow (Outside Unit) α) {k : Nat} (h : Clocked k p n.world) (hcalm : Calm k n) :
    (onWorld p).Ends (fun _ => Calm k) (Killed k) n := by
  have hzoom : (onWorld p).Ends (fun _ n' => n' = { n with world := n'.world } ∧ n'.world.clock.kill_at = k)
      (fun e n' => n' = { n with world := n'.world } ∧
        ∃ e', e = id e' ∧ (e' = .Crash ∧ k ≠ 0) ∧ n'.world.clock.kill_at = k) n :=
    Prog.Ends.zoom (fun w n => { n with world := w }) h (fun _ _ => rfl) (fun _ _ _ => rfl) fun _ => rfl
  refine hzoom.mono ?_ ?_
  · rintro a n' ⟨hn', hkill⟩
    rw [hn']
    exact ⟨hcalm.plain, hcalm.blocks, hkill⟩
  · rintro e n' ⟨hn', e', rfl, hcrash, hkill⟩
    refine ⟨hcrash, ?_⟩
    rw [hn']
    exact ⟨hcalm.plain, hcalm.blocks, hkill⟩

/-- The tables and files of a sound node, with what is committed in one. -/
theorem Sound.world {n n' : Node} (h : Sound turn str store order n₀ n) (hwal : n'.wal = n.wal)
    (hclient : n'.client = n.client)
    (hkept : Kept str store order turn n₀.world.committed n₀.world.ext n'.world.committed n'.world.ext)
    (hheld : ∀ k, Committed n.world.committed k → Committed n'.world.committed k) :
    Sound turn str store order n₀ n' := by
  obtain ⟨rows, hrows⟩ := h.log
  refine ⟨hkept, ⟨rows, hwal.trans hrows.wal, hrows.turn, ?_, ?_⟩, ?_, ?_, ?_⟩
  · intro row hrow htype
    exact hheld _ (hrows.observation row hrow htype)
  · rw [hclient]
    exact hrows.committed
  · rw [hclient]
    exact h.ack_le
  · rw [hclient]
    exact h.recv
  · rw [hclient]
    intro hack k hk
    rw [hwal]
    exact ⟨hheld k (h.effected hack k hk).1, (h.effected hack k hk).2⟩

/-- **A program on the tables and files**, from its contract: what is committed stays so. -/
theorem onWorld_spec {p : GwProg ChargeRow (Outside Unit) α} {keys : List String} {Q : Node → Prop}
    (after : α → Db ChargeRow → Prop) (hQ : ∀ n w, Q n → Q { n with world := w })
    (hp : ∀ held, (contract str store order turn n₀.world.committed n₀.world.ext held).rules.Triple ()
      (Contract.Settled fun _ _ => True) p (fun a => Contract.Settled fun d _ => after a d) fun _ _ => True)
    (hclock : ∀ k w, Kept str store order turn n₀.world.committed n₀.world.ext w.committed w.ext →
      w.working = w.committed → w.clock.kill_at = k → Clocked k p w) :
    Spec turn str store order n₀ (fun n => Stage turn keys n ∧ Q n) (onWorld p)
      fun a n => (Stage turn keys n ∧ Q n) ∧ after a n.world.committed where
  triple := by
    rintro n hsound ⟨hstage, hQn⟩
    let held (k : String) : Prop := Committed n.world.committed k
    let C := contract str store order turn n₀.world.committed n₀.world.ext held
    let frame (n' : Node) : Prop := ∃ w, n' = { n with world := w }
    have hzoom : (rules turn str store order n₀).Triple ()
        (fun n' => frame n' ∧ C.inv n'.world.committed n'.world.ext ∧
          Contract.Settled (fun _ _ => True) n'.world) (onWorld p)
        (fun a n' => frame n' ∧ C.inv n'.world.committed n'.world.ext ∧
          Contract.Settled (fun d _ => after a d) n'.world)
        fun e n' => ∃ e', e = id e' ∧ frame n' ∧ True := by
      refine Serial.triple_zoom (hp held) (fun _ _ => rfl) ?_
      rintro n' w - ⟨w', rfl⟩ - ⟨hkept, hheld⟩
      exact ⟨trivial, hsound.world rfl rfl hkept hheld, w, rfl⟩
    have hsafe := hzoom n hsound ⟨⟨n.world, rfl⟩, ⟨hsound.kept, fun _ hk => hk⟩, hstage.idle, trivial⟩
    refine RelyGuarantee.Safe.mono ?_ (fun _ _ _ _ => trivial) hsound hsafe
    rintro a n' - ⟨⟨w, rfl⟩, ⟨-, hheld⟩, hidle, hafter⟩
    refine ⟨⟨⟨hidle, ?_⟩, hQ n w hQn⟩, hafter⟩
    intro k hk
    exact ⟨hheld k (hstage.observed k hk).1, (hstage.observed k hk).2⟩
  ends := by
    rintro k n hsound ⟨hstage, -⟩ hcalm
    exact run_onWorld p (hclock k n.world hsound.kept hstage.idle hcalm.kill_at) hcalm

/-- **The clock.** -/
theorem tick_spec {keys : List String} {Q : Node → Prop} (hQ : ∀ n w, Q n → Q { n with world := w }) :
    Spec turn str store order n₀ (fun n => Stage turn keys n ∧ Q n) tick
      fun _ n => Stage turn keys n ∧ Q n := by
  have h : Spec turn str store order n₀ (fun n => Stage turn keys n ∧ Q n) tick
      fun _ n => (Stage turn keys n ∧ Q n) ∧ True := by
    apply onWorld_spec (fun _ _ => True) hQ
    · intro held
      exact Contract.tick fun _ => trivial
    · intro k w _ _ hk
      exact clocked_tick hk
  exact h.conseq (fun _ hn => hn) fun _ _ hn => hn.1

theorem tick_stage {keys : List String} :
    Spec turn str store order n₀ (Stage turn keys) tick fun _ => Stage turn keys :=
  (tick_spec (Q := fun _ => True) fun _ _ h => h).conseq (fun _ h => ⟨h, trivial⟩) fun _ _ h => h.1

/-! ## The calls and the log

The log is where the parts meet: a row may be appended only when what it says is committed already, and the tables never
take that back. -/

section Calls

variable {keys : List String}

/-- **A call** of the turn, from its contract. -/
theorem call_spec {p : GwProg ChargeRow (Outside Unit) Result} {key : String}
    (hp : ∀ held, (contract str store order turn n₀.world.committed n₀.world.ext held).rules.Triple ()
      (Contract.Settled fun _ _ => True) p (fun res => Contract.Settled fun d _ => Answered key res d) fun _ _ => True)
    (hclock : ∀ k w, Kept str store order turn n₀.world.committed n₀.world.ext w.committed w.ext →
      w.working = w.committed → w.clock.kill_at = k → Clocked k p w) :
    Spec turn str store order n₀ (Stage turn keys) (onWorld p)
      fun res n => Stage turn keys n ∧ Answered key res n.world.committed :=
  (onWorld_spec (Q := fun _ => True) (fun res d => Answered key res d) (fun _ _ h => h) hp hclock).conseq
    (fun _ h => ⟨h, trivial⟩) fun _ _ h => ⟨h.1.1, h.2⟩

/-- **The charge.** -/
theorem charge_spec (hne : receiptKey turn ≠ chargeKey turn) : Spec turn str store order n₀ (Stage turn keys)
    (onWorld (Gateway.call (ChargeTool str (Outside Unit)) (chargeArgs order) "s" turn 0 "c"))
    fun res n => Stage turn keys n ∧ Answered (chargeKey turn) res n.world.committed := by
  apply call_spec
  · intro held
    exact Contract.call (fun afp hafp => charge_callOk hne hafp) fun _ => trivial
  · intro k w hkept hidle hk
    exact charge_clocked hkept hidle hk

/-- **The receipt.** -/
theorem receipt_spec (hne : receiptKey turn ≠ chargeKey turn) : Spec turn str store order n₀ (Stage turn keys)
    (onWorld (Gateway.call (ReceiptTool str store) (receiptArgs order) "s" turn 1 "c"))
    fun res n => Stage turn keys n ∧ Answered (receiptKey turn) res n.world.committed := by
  apply call_spec
  · intro held
    exact Contract.call (fun afp hafp => receipt_callOk hne hafp) fun _ => trivial
  · intro k w hkept hidle hk
    exact receipt_clocked hkept hidle hk

/-- **A row of the log**: an observation is of a committed action, and a turn is committed when all is streamed. -/
theorem append_spec {type : WalType} {key : String} {P : Node → Prop} {Q : Node → Prop}
    (hidle : ∀ n, P n → n.world.working = n.world.committed)
    (hobs : ∀ n, P n → type = .OBSERVATION → Committed n.world.committed key)
    (hend : ∀ n, P n → type = .TURN_COMMITTED → n.client.ack = OUT_LEN)
    (hQ : ∀ n, P n → Q { n with wal := n.wal ++ [⟨turn, type, key⟩] }) :
    Spec turn str store order n₀ P (append turn type key) fun _ => Q := by
  refine Spec.modify ?_ (fun _ => rfl) fun _ => rfl
  intro n hsound hP
  rw [hidle n hP]
  refine ⟨?_, hQ n hP⟩
  -- the log grows at its end, by a row that is allowed to be there
  obtain ⟨rows, hrows⟩ := hsound.log
  refine ⟨hsound.kept, ⟨rows ++ [⟨turn, type, key⟩], ?_, ?_, ?_, ?_⟩, hsound.ack_le, hsound.recv, ?_⟩
  · show n.wal ++ _ = _
    rw [hrows.wal, List.append_assoc]
  · intro row hrow
    rcases List.mem_append.mp hrow with hrow | hrow
    · exact hrows.turn row hrow
    · rw [List.mem_singleton.mp hrow]
  · intro row hrow htype
    rcases List.mem_append.mp hrow with hrow | hrow
    · exact hrows.observation row hrow htype
    · rw [List.mem_singleton.mp hrow] at htype ⊢
      exact hobs n hP htype
  · intro row hrow htype
    rcases List.mem_append.mp hrow with hrow | hrow
    · exact hrows.committed row hrow htype
    · rw [List.mem_singleton.mp hrow] at htype
      exact hend n hP htype
  · intro hack k hk
    exact ⟨(hsound.effected hack k hk).1, List.mem_append_left _ (hsound.effected hack k hk).2⟩

/-- What is observed stays so when the log grows. -/
theorem Stage.append (h : Stage turn keys n) (row : WalRow) :
    Stage turn keys { n with wal := n.wal ++ [row] } := by
  refine ⟨h.idle, ?_⟩
  intro k hk
  exact ⟨(h.observed k hk).1, List.mem_append_left _ (h.observed k hk).2⟩

/-- **An answer is observed.** -/
theorem observe_spec {key : String} {res : Result} :
    Spec turn str store order n₀ (fun n => Stage turn keys n ∧ Answered key res n.world.committed) (observe turn res)
      fun _ => Stage turn (key :: keys) := by
  unfold observe
  split
  · apply append_spec
    · intro n hn
      exact hn.1.idle
    · rintro n ⟨-, hanswer⟩ -
      rw [hanswer.key]
      exact hanswer.committed
    · intro n _ htype
      cases htype
    · rintro n ⟨hstage, hanswer⟩
      refine ⟨hstage.idle, ?_⟩
      intro k hk
      rcases List.mem_cons.mp hk with rfl | hk
      · rw [hanswer.key]
        exact ⟨hanswer.committed, List.mem_append_right _ (List.mem_singleton.mpr rfl)⟩
      · exact (hstage.append _).observed k hk
  · rename_i hst
    refine Spec.pure ?_
    rintro n ⟨-, hanswer⟩
    exact absurd hanswer.status hst

end Calls

/-! ## The KV

Nothing that the turn charges or streams depends on the snapshot, so its triple says only that the manifest is filed.
That the turn comes to its end does depend on it: damage opens a block file, and finds it since it is not empty. -/

section Kv

variable {keys : List String}

/-- The manifest of the turn. -/
def manifest (order turn : String) : Json := Kv.manifestOf turn (prov_of order) (blocks order)

/-- It is filed. -/
def Filed (order turn : String) (n : Node) : Prop := n.kv.kv_manifest turn = some (manifest order turn).dumps

/-- A program on the KV view keeps the rest as it is. -/
theorem onKv_triple {p : KvProg α} {F : KvState → Prop} {G : α → KvState → Prop}
    (hp : (Serial.alone (fun _ => True) (fun _ _ _ => True) fun _ _ => True).Triple () F p G fun _ _ => True) :
    (rules turn str store order n₀).Triple () (fun n => Stage turn keys n ∧ F n.kv) (onKv p)
      (fun a n => Stage turn keys n ∧ G a n.kv) fun _ _ => True := by
  let frame (n : Node) : Prop := Sound turn str store order n₀ n ∧ Stage turn keys n
  have hzoom : (rules turn str store order n₀).Triple () (fun n => frame n ∧ True ∧ F n.kv) (onKv p)
      (fun a n => frame n ∧ True ∧ G a n.kv) fun e n => ∃ e', e = id e' ∧ frame n ∧ True := by
    refine Serial.triple_zoom hp (fun _ _ => rfl) ?_
    rintro n s - ⟨hsound, hstage⟩ - -
    have hsound' : Sound turn str store order n₀ { n with kv := s } :=
      hsound.world rfl rfl hsound.kept fun _ hk => hk
    exact ⟨trivial, hsound', hsound', hstage.idle, hstage.observed⟩
  refine hzoom.conseq ?_ ?_ fun _ _ _ _ => trivial
  · rintro n hsound ⟨hstage, hF⟩
    exact ⟨⟨hsound, hstage⟩, trivial, hF⟩
  · rintro a n - ⟨⟨-, hstage⟩, -, hG⟩
    exact ⟨hstage, hG⟩

/-- A snapshot returns its manifest, and files it. -/
theorem snapshot_files : (Serial.alone (fun _ => True) (fun _ _ _ => True) fun (_ : Kv.Stmt) _ => True).Triple ()
    (fun _ => True) (Kv.snapshot turn (prov_of order) (blocks order))
    (fun m s => m = manifest order turn ∧ s.kv_manifest turn = some (manifest order turn).dumps) fun _ _ => True := by
  refine (Serial.triple_any _).bind fun _ => ?_
  refine RelyGuarantee.Triple.bind (Q := fun _ s => s.kv_manifest turn = some (manifest order turn).dumps) ?_ ?_
  · refine RelyGuarantee.Triple.modify (Serial.stable_alone _) ?_
    intro s _ _ _
    exact ⟨trivial, trivial, Table.upsert_self s.kv_manifest turn fun _ => (manifest order turn).dumps⟩
  · intro _ s _ hfiled
    exact ⟨rfl, hfiled⟩

/-- Damage to a block file leaves the manifests as they are. -/
theorem damage_files (p : FsPath) (bytes : List UInt8) (row : Option String) :
    (Serial.alone (fun _ => True) (fun _ _ _ => True) fun (_ : Kv.Stmt) _ => True).Triple ()
      (fun s => s.kv_manifest turn = row) (do
        let f ← Prog.openTrunc p
        Prog.writeBytes f 0 bytes : KvProg Unit)
      (fun _ s => s.kv_manifest turn = row) fun _ _ => True := by
  have hkeep : RelyGuarantee.FilesKeep (Serial.alone (fun _ => True) (fun _ _ _ => True)
      fun (_ : Kv.Stmt) _ => True) () fun s : KvState => s.kv_manifest turn = row :=
    ⟨Serial.stable_alone _, fun _ _ _ _ => trivial, fun _ _ _ _ hrow _ => ⟨trivial, trivial, hrow⟩⟩
  exact (hkeep.openTrunc p).bind fun f => hkeep.writeBytes f bytes 0

theorem corrupt_triple (corrupt_kv : Bool) (m : Json) :
    (rules turn str store order n₀).Triple () (fun n => Stage turn keys n ∧ Filed order turn n) (corrupt corrupt_kv m)
      (fun _ n => Stage turn keys n ∧ Filed order turn n) fun _ _ => True := by
  refine RelyGuarantee.Triple.bind (Q := fun _ n => Stage turn keys n ∧ Filed order turn n) ?_ ?_
  · exact .ofExcept (fun _ _ _ _ h => h) fun _ _ _ _ _ => trivial
  intro hs
  split
  · refine RelyGuarantee.Triple.bind (Q := fun _ n => Stage turn keys n ∧ Filed order turn n) ?_ ?_
    · exact RelyGuarantee.Triple.read (Serial.stable_alone _) (fun _ => trivial) fun _ _ h _ => h
    intro raw
    split
    · exact fun _ _ _ => trivial
    · exact fun _ _ _ => trivial
    · exact onKv_triple (damage_files _ _ _)
  · exact fun _ _ h => h

/-- A text that is not empty has bytes. -/
theorem encode_ne_nil {s : String} (h : s ≠ "") : Sha256.encode s ≠ [] := by
  intro hnil
  exact h (Sha256.encode_injective (hnil.trans rfl))

theorem blocks_ne_nil {b : List UInt8} (hb : b ∈ blocks order) : b ≠ [] := by
  obtain ⟨t, ht, rfl⟩ := List.mem_map.mp hb
  obtain ⟨i, -, rfl⟩ := List.mem_map.mp ht
  apply encode_ne_nil
  intro hempty
  have hlist := congrArg String.toList hempty
  simp at hlist

/-- The snapshot of a turn. -/
def snap (order turn : String) : Kv.Snapshot := ⟨turn, prov_of order, blocks order⟩

/-- **A snapshot alone**: its blocks are there, and no file is empty. -/
theorem snapshot_ends {k : Nat} (hcalm : Calm k n) :
    (onKv (Kv.snapshot turn (prov_of order) (blocks order))).Ends
      (fun m n' => m = manifest order turn ∧ Calm k n' ∧ ∀ b ∈ blocks order, n'.kv.cas.read (Kv.final b) ≠ none)
      (Killed k) n := by
  obtain ⟨s, hrun, -, hread⟩ := Kv.run_snapshot hcalm.plain (snap order turn)
  have hplain : Kv.Plain s :=
    ((Kv.snapshot_plain () (snap order turn)).run (fun _ _ => trivial) hcalm.plain trivial hrun).1
  have hends : (Kv.snapshot turn (prov_of order) (blocks order)).Ends
      (fun m s' => m = manifest order turn ∧ s' = s) (fun _ _ => False) n.kv :=
    Prog.Ends.of_run_ok hrun ⟨rfl, rfl⟩
  -- the rest of the node is as it was
  have hzoom : (onKv (Kv.snapshot turn (prov_of order) (blocks order))).Ends
      (fun m n' => n' = { n with kv := n'.kv } ∧ m = manifest order turn ∧ n'.kv = s)
      (fun e n' => n' = { n with kv := n'.kv } ∧ ∃ e', e = id e' ∧ False) n :=
    Prog.Ends.zoom (fun s n => { n with kv := s }) hends (fun _ _ => rfl) (fun _ _ _ => rfl) fun _ => rfl
  refine hzoom.mono ?_ ?_
  · rintro m n' ⟨hn', hm, rfl⟩
    refine ⟨hm, ⟨hplain, ?_, ?_⟩, ?_⟩
    · intro b content hcontent
      rw [hread, Kv.stored, Option.or_eq_some_iff] at hcontent
      rcases hcontent with hold | ⟨-, hnew⟩
      · exact hcalm.blocks b content hold
      · exact blocks_ne_nil (List.mem_of_find?_eq_some hnew)
    · rw [hn']
      exact hcalm.kill_at
    · intro b hb hnone
      rw [hread, Kv.stored, Option.or_eq_none_iff] at hnone
      have hself := List.find?_eq_none.mp hnone.2 b hb
      simp at hself
  · rintro e n' ⟨-, e', -, hfalse⟩
    exact hfalse.elim

/-- **Damage alone**: the first byte of the first block changes. -/
theorem corrupt_ends {k : Nat} (corrupt_kv : Bool) (hcalm : Calm k n)
    (hread : ∀ b ∈ blocks order, n.kv.cas.read (Kv.final b) ≠ none) :
    (corrupt corrupt_kv (manifest order turn)).Ends (fun _ => Calm k) (Killed k) n := by
  cases corrupt_kv with
  | false => exact hcalm
  | true =>
    have hfirst : ∃ b bs, blocks order = b :: bs := ⟨_, _, rfl⟩
    obtain ⟨b, bs, hb⟩ := hfirst
    have hmem : b ∈ blocks order := by
      rw [hb]
      exact List.mem_cons_self
    obtain ⟨content, hcontent⟩ := Option.ne_none_iff_exists'.mp (hread b hmem)
    -- blocks are not empty, so there is a byte to flip
    obtain ⟨c, cs, rfl⟩ := List.exists_cons_of_ne_nil (hcalm.blocks b content hcontent)
    have hlist : manifestBlocks (manifest order turn) = .ok (.str (Kv.sha256_hex b) :: Kv.hashes bs) := by
      have hall : manifestBlocks (manifest order turn) = .ok (Kv.hashes (blocks order)) := rfl
      rw [hall, hb]
      rfl
    unfold corrupt
    rw [hlist]
    refine Prog.Ends.bind (Q := fun raw n' => raw = some (c :: cs) ∧ n' = n) ?_ ?_
    · exact (Prog.ends_read _ _).mpr ⟨hcontent, rfl⟩
    rintro raw n' ⟨rfl, rfl⟩
    let bytes := (c ^^^ 0xFF) :: cs
    have hrewrite := Prog.ends_rewrite (τ := Kv.Stmt) (ε := Exn) (E := fun _ _ => False) (s := n'.kv) (Kv.final b) bytes
      hcalm.plain
    have hzoom : (onKv do
        let f ← Prog.openTrunc (Kv.final b)
        Prog.writeBytes f 0 bytes).Ends
          (fun _ n'' => n'' = { n' with kv := n''.kv } ∧ ∃ fs, n''.kv = { n'.kv with cas := fs } ∧
            fs.read (Kv.final b) = some bytes ∧ n'.kv.cas.OnlyAt (Kv.final b) fs)
          (fun e n'' => n'' = { n' with kv := n''.kv } ∧ ∃ e', e = id e' ∧ False) n' :=
      Prog.Ends.zoom (fun s n => { n with kv := s }) hrewrite (fun _ _ => rfl) (fun _ _ _ => rfl) fun _ => rfl
    refine hzoom.mono ?_ ?_
    · rintro _ n'' ⟨hn'', fs, hs, hnew, honly⟩
      refine ⟨?_, ?_, ?_⟩
      · rw [hs]
        exact honly.no_links
      · intro b' content' hcontent'
        rw [hs] at hcontent'
        by_cases hsame : Kv.final b' = Kv.final b
        · rw [hsame] at hcontent'
          cases hnew.symm.trans hcontent'
          exact List.cons_ne_nil _ _
        · exact hcalm.blocks b' content' ((honly.read hsame).symm.trans hcontent')
      · rw [hn'']
        exact hcalm.kill_at
    · rintro e n'' ⟨-, e', -, hfalse⟩
      exact hfalse.elim

/-- **The KV of a turn**: a snapshot, and its damage. -/
theorem snapshot_spec (corrupt_kv : Bool) :
    Spec turn str store order n₀ (Stage turn keys)
      (onKv (Kv.snapshot turn (prov_of order) (blocks order)) >>= corrupt corrupt_kv)
      fun _ n => Stage turn keys n ∧ Filed order turn n where
  triple := by
    have hfiles : (rules turn str store order n₀).Triple () (fun n => Stage turn keys n ∧ True)
        (onKv (Kv.snapshot turn (prov_of order) (blocks order)))
        (fun m n => Stage turn keys n ∧ m = manifest order turn ∧ Filed order turn n) fun _ _ => True :=
      onKv_triple snapshot_files
    refine RelyGuarantee.Triple.bind (hfiles.pre fun n _ hstage => ⟨hstage, trivial⟩) fun m => ?_
    exact (corrupt_triple corrupt_kv m).pre fun n _ h => ⟨h.1, h.2.2⟩
  ends := by
    intro k n _ _ hcalm
    refine Prog.Ends.bind (snapshot_ends hcalm) ?_
    rintro m n' ⟨rfl, hcalm', hread⟩
    exact corrupt_ends corrupt_kv hcalm' hread

/-- Blocks that are named by their hashes can be looked up, whatever becomes of them. -/
theorem getBlocks_decides (s : KvState) (bs : List (List UInt8)) :
    ∃ o, Kv.getBlocks s.plane.entry (Kv.hashes bs) = .ok o := by
  induction bs with
  | nil => exact ⟨_, rfl⟩
  | cons b bs ih =>
    obtain ⟨o, ho⟩ := ih
    cases hread : s.cas.read (Kv.BlockCAS.path (Kv.sha256_hex b)) with
    | none => exact ⟨_, Kv.getBlocks_missing bs hread⟩
    | some b' =>
      by_cases hsum : Kv.sha256_hex b' = Kv.sha256_hex b
      · rw [Kv.getBlocks_found bs hread hsum, ho]
        exact ⟨_, rfl⟩
      · exact ⟨_, Kv.getBlocks_corrupt bs hread hsum⟩

/-- The manifest that is filed can be read: something is decided. -/
theorem restore_decides (h : Filed order turn n) : ∃ rr, Kv.restore n.kv turn (prov_of order) = .ok rr := by
  have hrestore := Kv.restore_of_manifest (s := n.kv) (a := snap order turn) (prov_of order) h
  obtain ⟨o, ho⟩ := getBlocks_decides n.kv (blocks order)
  have hblocks : Kv.getBlocks n.kv.plane.entry (Kv.hashes (snap order turn).blocks) = .ok o := ho
  have hkey : (snap order turn).prov.key = (prov_of order).key := rfl
  rw [if_pos hkey, hblocks] at hrestore
  exact ⟨_, hrestore⟩

end Kv

/-! ## The stream -/

section Stream

theorem length_out_tokens (order : String) : (out_tokens order).length = OUT_LEN := by
  simp [out_tokens]

/-- **A token** that the client has not got. -/
theorem deliver_spec {a : Nat} {tok : String} (htok : (out_tokens order)[a]? = some tok) :
    Spec turn str store order n₀ (fun n => Stage turn (actions turn) n ∧ n.client.ack = a)
      (Prog.modify .deliver fun n => { n with client := n.client.deliver (a + 1) tok })
      fun _ n => Stage turn (actions turn) n ∧ n.client.ack = a + 1 := by
  have hlt : a < OUT_LEN := by
    obtain ⟨hlt, -⟩ := List.getElem?_eq_some_iff.mp htok
    rwa [length_out_tokens] at hlt
  refine Spec.modify ?_ (fun _ => rfl) fun _ => rfl
  rintro n hsound ⟨hstage, hack⟩
  have hclient : n.client.deliver (a + 1) tok = { n.client with recv := n.client.recv ++ [tok], ack := a + 1 } := by
    simp [Client.deliver, hack]
  rw [hclient]
  refine ⟨⟨hsound.kept, ?_, hlt, ?_, ?_⟩, ⟨hstage.idle, hstage.observed⟩, rfl⟩
  · obtain ⟨rows, hrows⟩ := hsound.log
    refine ⟨rows, hrows.wal, hrows.turn, hrows.observation, ?_⟩
    intro row hrow htype
    have hend := hrows.committed row hrow htype
    omega
  · show n.client.recv ++ [tok] = _
    rw [hsound.recv, hack, List.take_add_one, htok]
    rfl
  · intro _
    exact hstage.observed

/-- The stream from a token on, with `k` to come. -/
theorem stream_spec : ∀ (k a : Nat), a + k = OUT_LEN →
    Spec turn str store order n₀ (fun n => Stage turn (actions turn) n ∧ n.client.ack = a)
      (Prog.forEach (List.range' (a + 1) k) fun seq => do
        tick
        let tok ← Prog.ofOption (.raised "IndexError") (out_tokens order)[seq - 1]?
        Prog.modify .deliver fun n => { n with client := n.client.deliver seq tok }
        tick)
      fun _ n => Stage turn (actions turn) n ∧ n.client.ack = OUT_LEN := by
  intro k
  induction k with
  | zero =>
    intro a ha
    refine Spec.pure ?_
    rintro n ⟨hstage, hack⟩
    refine ⟨hstage, ?_⟩
    omega
  | succ k ih =>
    intro a ha
    have hlt : a < (out_tokens order).length := by
      rw [length_out_tokens]
      omega
    have htok : (out_tokens order)[a + 1 - 1]? = some (out_tokens order)[a] := List.getElem?_eq_getElem hlt
    rw [List.range'_succ]
    refine Spec.bind (Q := fun _ n => Stage turn (actions turn) n ∧ n.client.ack = a + 1) ?_
      fun _ => ih (a + 1) (by omega)
    have hrest : Spec turn str store order n₀ (fun n => Stage turn (actions turn) n ∧ n.client.ack = a) (do
        Prog.modify .deliver fun n => { n with client := n.client.deliver (a + 1) (out_tokens order)[a] }
        tick) fun _ n => Stage turn (actions turn) n ∧ n.client.ack = a + 1 :=
      Spec.bind (deliver_spec htok) fun _ => tick_spec (Q := fun n => n.client.ack = a + 1) fun _ _ h => h
    refine Spec.bind (tick_spec (Q := fun n => n.client.ack = a) fun _ _ h => h) fun _ => ?_
    rw [htok]
    exact hrest

end Stream

/-! ## The turn -/

/-- Its output is out, and it is logged as committed. -/
structure Ended (turn : String) (n : Node) : Prop where
  ack : n.client.ack = OUT_LEN
  committed : ⟨turn, .TURN_COMMITTED, ""⟩ ∈ n.wal

/-- A turn that is done. -/
def Finished (turn : String) (n : Node) : Prop := Stage turn (actions turn) n ∧ Ended turn n

/-- The output, from what the client has on. -/
theorem output_spec (a : Nat) :
    Spec turn str store order n₀ (fun n => Stage turn (actions turn) n ∧ n.client.ack = a)
      (stream_committed (out_tokens order) (a + 1))
      fun _ n => Stage turn (actions turn) n ∧ n.client.ack = OUT_LEN := by
  by_cases ha : a ≤ OUT_LEN
  · unfold stream_committed
    rw [length_out_tokens]
    apply stream_spec
    omega
  · apply Spec.absurd
    rintro n hsound ⟨-, rfl⟩
    exact ha hsound.ack_le

/-- **A turn**, from its first statement to its last. -/
theorem turn_spec (hne : receiptKey turn ≠ chargeKey turn) (corrupt_kv : Bool) :
    Spec turn str store order n₀ (fun n => n.world.working = n.world.committed)
      (run_turn str store order turn corrupt_kv) fun _ => Finished turn := by
  unfold run_turn
  refine Spec.bind (Q := fun _ => Stage turn []) ?_ fun _ => tick_stage.bind fun _ => ?_
  · apply append_spec
    · exact fun n hidle => hidle
    · intro n _ htype
      cases htype
    · intro n _ htype
      cases htype
    · intro n hidle
      exact ⟨hidle, fun k hk => nomatch hk⟩
  refine (charge_spec hne).bind fun r1 => observe_spec.bind fun _ => tick_stage.bind fun _ => ?_
  refine (receipt_spec hne).bind fun r2 => observe_spec.bind fun _ => tick_stage.bind fun _ => ?_
  rw [← Prog.bind_assoc]
  refine (snapshot_spec corrupt_kv).bind fun _ => ?_
  refine (tick_spec (Q := Filed order turn) fun _ _ h => h).bind fun _ => ?_
  apply Spec.look
  intro rr
  cases rr with
  | error e =>
    -- the manifest of this turn is filed, and `restore` decides on it
    apply Spec.absurd
    rintro n - ⟨⟨-, hfiled⟩, herror⟩
    obtain ⟨rr, hrr⟩ := restore_decides hfiled
    cases herror.symm.trans hrr
  | ok rr =>
    apply Spec.look
    intro ack
    refine Spec.bind ((output_spec ack).conseq (fun n h => ?_) fun _ _ h => h) fun _ => ?_
    · exact ⟨h.1.1.1, h.2⟩
    refine Spec.bind (Q := fun _ => Finished turn) ?_ fun _ => ?_
    · apply append_spec
      · exact fun n h => h.1.idle
      · intro n _ htype
        cases htype
      · exact fun n h _ => h.2
      · rintro n ⟨hstage, hack⟩
        exact ⟨hstage.append _, hack, List.mem_append_right _ (List.mem_singleton.mpr rfl)⟩
    · exact tick_spec (Q := Ended turn) fun _ _ h => ⟨h.ack, h.committed⟩

/-- **Alone**, a turn comes to its end, unless the clock kills it. -/
theorem turn_ends (hne : receiptKey turn ≠ chargeKey turn) (corrupt_kv : Bool) {k : Nat}
    (hsound : Sound turn str store order n₀ n) (hidle : n.world.working = n.world.committed) (hcalm : Calm k n) :
    (run_turn str store order turn corrupt_kv).Ends
      (fun _ n' => Sound turn str store order n₀ n' ∧ Finished turn n' ∧ Calm k n')
      (fun e n' => Sound turn str store order n₀ n' ∧ Killed k e n') n := by
  have hturn : Spec turn str store order n₀ _ (run_turn str store order turn corrupt_kv) _ := turn_spec hne corrupt_kv
  have hends := hturn.triple.ends (fun _ _ => trivial) hsound hidle (hturn.ends k n hsound hidle hcalm)
  exact hends.mono (fun _ _ h => h) fun _ _ h => ⟨h.1, h.2.2⟩

/-! ## What the attempts leave behind

`Sound` is relative to the node that the first attempt found. Here that node is one to which the turn is new. -/

/-- Nothing of the turn is there. -/
structure Fresh (store order turn : String) (n : Node) : Prop where
  charge : n.world.committed.gw_keys (chargeKey turn) = none
  receipt : n.world.committed.gw_keys (receiptKey turn) = none
  uncharged : charged order n = 0
  unwritten : n.world.ext.files.read (ReceiptTool.final store (receiptKey turn)) = none
  unlogged : ∀ row ∈ n.wal, row.turn ≠ turn
  no_links : n.world.ext.files.NoLinks

/-- **A turn that is fresh is sound**, when the client is new. -/
theorem Fresh.sound (h : Fresh store order turn n₀) (hworld : n.world.committed = n₀.world.committed)
    (hext : n.world.ext = n₀.world.ext) (hwal : n.wal = n₀.wal) (hclient : n.client = .new) :
    Sound turn str store order n₀ n := by
  refine ⟨?_, ⟨[], ?_, ?_, ?_, ?_⟩, ?_, ?_, ?_⟩
  · rw [hworld, hext]
    refine ⟨Or.inl ⟨h.charge, rfl⟩, Or.inl h.unwritten, ?_, fun _ _ _ => rfl, fun _ _ => rfl, h.no_links⟩
    intro row hrow
    rw [h.receipt] at hrow
    cases hrow
  · rw [hwal, List.append_nil]
  · exact fun row hrow => nomatch hrow
  · exact fun row hrow => nomatch hrow
  · exact fun row hrow => nomatch hrow
  · rw [hclient]
    exact Nat.zero_le _
  · rw [hclient]
    rfl
  · rw [hclient]
    intro hack
    exact absurd hack (Nat.lt_irrefl 0)

/-- What `main` starts from: it has removed everything. -/
def start : Node := ⟨settled ⟨fun _ => none, [], []⟩ ⟨.empty, ()⟩ ⟨0, 0⟩, [], ⟨.empty, fun _ => none⟩, .new⟩

theorem calm_start : Calm 0 start := by
  constructor
  · exact nofun
  · intro b content hread
    cases hread
  · rfl

theorem fresh_start (order turn : String) : Fresh store order turn start := by
  constructor
  · rfl
  · rfl
  · rfl
  · rfl
  · exact fun _ hrow => nomatch hrow
  · exact nofun

/-- **Exactly once**, at any point of the attempts: never two charges, never half a receipt, no observation of what is
    not committed; the client has a beginning of the output, and anything of it only when the effects are there; and a
    turn is logged as committed only when all is there. -/
structure ExactlyOnce (str : Json → String) (store order turn : String) (n : Node) : Prop where
  charge : charged order n ≤ 1
  receipt : n.world.ext.files.read (ReceiptTool.final store (receiptKey turn)) = none ∨
    n.world.ext.files.read (ReceiptTool.final store (receiptKey turn)) = some (Stack.receipt str order)
  no_ghost : ghost turn n = false
  output : n.client.recv = (out_tokens order).take n.client.ack
  effects_first : 0 < n.client.ack → charged order n = 1 ∧ receipted store turn n = 1
  commit_last : ∀ key, ⟨turn, .TURN_COMMITTED, key⟩ ∈ n.wal →
    n.client.recv = out_tokens order ∧ charged order n = 1 ∧ receipted store turn n = 1

/-- The charges of the order, when there were none. -/
theorem Sound.charged (h : Sound turn str store order n₀ n) (h₀ : Fresh store order turn n₀) :
    Stack.charged order n ≤ 1 ∧ (Committed n.world.committed (chargeKey turn) → Stack.charged order n = 1) := by
  have hold : n₀.world.committed.app.countP (fun row => Kv.isText row.order_id order) = 0 := h₀.uncharged
  unfold Stack.charged
  rcases h.kept.charge with ⟨hnone, happ⟩ | ⟨-, happ⟩
  · rw [happ, hold]
    refine ⟨Nat.zero_le 1, ?_⟩
    rintro ⟨row, hrow, -⟩
    rw [hnone] at hrow
    cases hrow
  · rw [happ, List.countP_append, hold]
    simp [Kv.isText]

theorem Sound.receipted (h : Sound turn str store order n₀ n)
    (hreceipt : Committed n.world.committed (receiptKey turn)) :
    Stack.receipted store turn n = 1 := by
  obtain ⟨row, hrow, -⟩ := hreceipt
  obtain ⟨inode, hdir, -⟩ := Option.map_eq_some_iff.mp (h.kept.recorded row hrow).2
  have hexists : n.world.ext.files.pathExists (ReceiptTool.final store (action_id "s" turn "c" (.int 1))) = true := by
    show (n.world.ext.files.dir (ReceiptTool.final store (receiptKey turn))).isSome = true
    rw [hdir]
    rfl
  unfold Stack.receipted
  rw [if_pos hexists]

/-- What is observed of a turn is committed. -/
theorem Sound.no_ghost (h : Sound turn str store order n₀ n) (h₀ : Fresh store order turn n₀) :
    ghost turn n = false := by
  obtain ⟨rows, hrows⟩ := h.log
  unfold ghost
  rw [List.any_eq_false, hrows.wal]
  intro row hrow
  rcases List.mem_append.mp hrow with hrow | hrow
  · simp [h₀.unlogged row hrow]
  · by_cases htype : row.type = .OBSERVATION
    · obtain ⟨r, hr, hst⟩ := hrows.observation row hrow htype
      simp [isCommitted, hr, hst]
    · simp [htype]

/-- **What is sound is exactly once.** -/
theorem Sound.exactlyOnce (h : Sound turn str store order n₀ n) (h₀ : Fresh store order turn n₀) :
    ExactlyOnce str store order turn n := by
  have heffects : 0 < n.client.ack → Stack.charged order n = 1 ∧ Stack.receipted store turn n = 1 := by
    intro hack
    have hobs := h.effected hack
    exact ⟨(h.charged h₀).2 (hobs _ (by simp [actions])).1, h.receipted (hobs _ (by simp [actions])).1⟩
  refine ⟨(h.charged h₀).1, h.kept.receipt, h.no_ghost h₀, h.recv, heffects, ?_⟩
  intro key hmem
  obtain ⟨rows, hrows⟩ := h.log
  rw [hrows.wal] at hmem
  rcases List.mem_append.mp hmem with hmem | hmem
  · exact absurd rfl (h₀.unlogged _ hmem)
  · have hack : n.client.ack = OUT_LEN := hrows.committed _ hmem rfl
    refine ⟨?_, heffects ?_⟩
    · rw [h.recv, hack, ← length_out_tokens order, List.take_length]
    · rw [hack]
      decide

/-- The attempts keep what is sound. -/
theorem verified_attempts (hne : receiptKey turn ≠ chargeKey turn) :
    Serial.Verified (attempts str store order turn) (rules turn str store order n₀)
      (fun n => n.world.working = n.world.committed) (fun _ n => n.world.working = n.world.committed)
      fun _ => Finished turn where
  main k := (turn_spec hne k.2).triple
  start _ _ hsound hidle := ⟨hsound.world rfl rfl hsound.kept fun _ hk => hk, hidle⟩
  close _ hsound := ⟨hsound.world rfl rfl hsound.kept fun _ hk => hk, rfl⟩

/-- **Exactly once, end to end.** However often a turn of the whole stack is attempted, and wherever each attempt
    stops, between any two statements. -/
theorem turn_exactly_once (hne : receiptKey turn ≠ chargeKey turn) (h₀ : Fresh store order turn n₀)
    (hidle : n₀.world.working = n₀.world.committed) (hclient : n₀.client = .new)
    {c : Serial.State Stmt Node Exn Unit}
    (hc : (attempts str store order turn).Reachable (fun _ _ => True) (fun n => n = n₀) c) :
    ExactlyOnce str store order turn c.shared ∧
      (c.proc = some (.ret ()) → ⟨turn, .TURN_COMMITTED, ""⟩ ∈ c.shared.wal) := by
  have hV : Serial.Verified (attempts str store order turn) (rules turn str store order n₀) _ _ _ _ :=
    verified_attempts hne
  have hinit : ∀ n, n = n₀ → Sound turn str store order n₀ n ∧ n.world.working = n.world.committed := by
    rintro n rfl
    exact ⟨h₀.sound rfl rfl rfl hclient, hidle⟩
  have hsound : Sound turn str store order n₀ c.shared := (hV.stateOk hinit hc).1
  refine ⟨hsound.exactlyOnce h₀, ?_⟩
  intro hret
  exact (hV.post hinit hc hret).2.committed

/-- Python's `str()`, of a text. -/
def written : Json → String
  | .str s => s
  | v => v.dumps

/-- The first turn, killed at its ninth tick, and attempted again. -/
theorem turn_exactly_once_killed : ∃ c : Serial.State Stmt Node Exn Unit,
    (attempts written "/x" "O0" "T0").Reachable (fun _ _ => True) (fun n => n = start) c ∧
      c.proc = some (.ret ()) ∧ ExactlyOnce written "/x" "O0" "T0" c.shared ∧
      (c.proc = some (.ret ()) → ⟨"T0", .TURN_COMMITTED, ""⟩ ∈ c.shared.wal) := by
  have hne : receiptKey "T0" ≠ chargeKey "T0" := by decide +kernel
  have h₀ : Fresh "/x" "O0" "T0" start := fresh_start "O0" "T0"
  let S := attempts written "/x" "O0" "T0"
  have hbegin : S.Reachable (fun _ _ => True) (fun n => n = start) ⟨start, none⟩ := Lts.Reachable.start ⟨rfl, rfl⟩
  -- the first attempt, however it ends
  have hsound : Sound "T0" written "/x" "O0" start (S.start (9, false) start) := h₀.sound rfl rfl rfl rfl
  obtain ⟨r, n₁, hrun, hret, hraise⟩ :=
    (turn_ends hne false (k := 9) hsound rfl ⟨calm_start.plain, calm_start.blocks, rfl⟩).run
  have h₁ : Sound "T0" written "/x" "O0" start n₁ ∧ Calm 9 n₁ := by
    cases r with
    | ok u => exact ⟨(hret u rfl).1, (hret u rfl).2.2⟩
    | error e => exact ⟨(hraise e rfl).1, (hraise e rfl).2.2⟩
  have hhalt := ((hbegin.begin rfl (9, false)).run rfl (Prog.guarded_of_forall (fun _ _ => trivial) _ _) hrun).halt rfl
  -- the second one, which is not killed
  have hsound' : Sound "T0" written "/x" "O0" start (S.start (0, false) (S.close n₁)) :=
    h₁.1.world rfl rfl h₁.1.kept fun _ hk => hk
  have hends := turn_ends hne false (k := 0) hsound' rfl ⟨h₁.2.plain, h₁.2.blocks, rfl⟩
  obtain ⟨u, n₂, hrun', -⟩ := (hends.mono (fun _ _ h => h) fun _ _ he => he.2.1.2 rfl).returns
  have hdone := (hhalt.begin rfl (0, false)).run rfl (Prog.guarded_of_forall (fun _ _ => trivial) _ _) hrun'
  exact ⟨_, hdone, rfl, turn_exactly_once hne h₀ rfl rfl hdone⟩

end AgentTx.Stack
