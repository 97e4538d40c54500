import AgentTx.Gateway.Alone
import AgentTx.Lib.Prog.Files
import AgentTx.Recovery.Protocol

/-!
# `Recovery.Binding` — which turn a restored KV belongs to

A manifest is filed under `session/turn`, which two turns may share when an identifier contains a slash
(`restored_for_another_turn`). In runs in which no other turn of the same text is snapshotted, a KV that is
restored for a turn was passed to `commit_turn` for it, and the turn is durably committed
(`restored_is_committed`).

Layout of the proof:
* **The manifest** — `ManifestOk`: a manifest under the text of the turn was written by a call on the turn, which has
  committed it. It relates the KV plane to the WAL, so neither half can be treated alone.
* **Running a turn** — the WAL only grows, and `TURN_COMMITTED` is in it when `run_turn` returns (`run_turn_logged`);
  the snapshot comes after that.
* **The calls** — a program on the tools keeps the manifests, a snapshot keeps the WAL: `onWorld_spec`, `onKv_spec`.
* **Runs** — the condition on a run, `OwnText`, is about snapshots alone.

Main results: `restored_is_committed`, and `restored_for_another_turn` for two turns with one text.
-/

namespace AgentTx.Recovery

open Gateway
open Kv (KvState Provenance manifestOf)

variable {ι R X : Type}

/-- The KV passed to a call, if it commits this turn. -/
inductive Commits (calls : ι → Call R X) (session turn : String) (i : ι) (prov : Provenance)
    (blocks : List (List UInt8)) : Prop where
  | intro (plan : List (Tool R X × Json)) (h : calls i = .commit_turn session turn plan prov blocks)

/-- No turn is snapshotted, but this one, whose text is this turn's. -/
def OwnText (session turn : String) (t : Stmt) : Prop :=
  ∀ s u, t = .snapshot s u → lsn s u = lsn session turn → s = session ∧ u = turn

/-! ## What the manifest of a turn says -/

section Bound

variable (calls : ι → Call R X) (session turn : String)

/-- The manifest of the turn, if there is one, is that of a call that committed it. -/
def ManifestOk (started : List ι) (kv : KvState) : Prop :=
  ∀ text, kv.kv_manifest (lsn session turn) = some text →
    ∃ i ∈ started, ∃ prov blocks, Commits calls session turn i prov blocks ∧
      text = (manifestOf (lsn session turn) prov blocks).dumps

/-- The turn has a manifest. -/
def HasManifest (kv : KvState) : Prop := ∃ text, kv.kv_manifest (lsn session turn) = some text

/-- A turn with a manifest is committed, and its manifest is its own. -/
structure Bound (n : Node ι R X) : Prop where
  manifest : ManifestOk calls session turn n.started n.kv
  committed : HasManifest session turn n.kv → Logged session turn .TURN_COMMITTED n.world.committed.wal

/-- The invariant, in the runs that are looked at. -/
def rules : RelyGuarantee Unit Stmt (Node ι R X) :=
  Serial.alone (Bound calls session turn) (fun _ _ _ => True) fun t _ => OwnText session turn t

end Bound

/-! ## Running a turn -/

/-- What is logged of a turn stays logged. -/
def logs (p : Prop) (session turn : String) (R X : Type) : Contract R X where
  inv d _ := p → Logged session turn .TURN_COMMITTED d.wal
  may _ _ _ _ := True
  may_refl _ _ := trivial

variable {session turn : String}

theorem logs_append {p : Prop} (r : WalRecord) {F G : Db R → X → Prop}
    (h : ∀ d x, F d x → G { d with wal := d.wal ++ [r] } x) :
    (logs p session turn R X).Moves (fun d => { d with wal := d.wal ++ [r] }) F G :=
  fun d x hinv hF => ⟨fun hp => (hinv hp).append _, trivial, h d x hF⟩

section Runs

variable [Driver]

/-- **A turn that comes to its end is logged as committed**, and no other is forgotten. -/
theorem run_turn_logged (p : Prop) (s u : String) (plan : List (Tool R X × Json)) :
    (logs p session turn R X).rules.Triple () (Contract.Settled fun _ _ => True) (run_turn s u plan)
      (fun _ => Contract.Settled fun d _ => Logged s u .TURN_COMMITTED d.wal) fun _ _ => True := by
  have hturn : ∀ cid, Contract.TurnOk (logs p session turn R X) s u plan cid (fun _ _ => True)
      (fun _ _ _ _ => True) (fun _ _ _ _ _ => True) (fun _ d _ => Logged s u .TURN_COMMITTED d.wal)
      fun _ _ => True := by
    intro cid
    constructor
    case crash => exact fun _ => trivial
    case begun => exact fun _ _ _ _ _ => trivial
    case begin => exact logs_append _ fun _ _ _ => trivial
    case prepare => exact fun _ _ _ _ _ => logs_append _ fun _ _ _ => trivial
    case call =>
      intro o rs tool args _
      refine Contract.call_wal (F := fun _ => True) ?_ (fun _ _ _ _ _ => trivial) fun _ _ => trivial
      intro d d' x x' hwal (hinv : p → Logged session turn .TURN_COMMITTED d.wal) hp
      rw [hwal]
      exact hinv hp
    case observe => exact fun _ _ _ _ => logs_append _ fun _ _ _ => trivial
    case ended => exact fun _ _ _ _ _ hend => hend
    case end_ => exact fun _ => logs_append _ fun _ _ _ => logged_self ..
  exact Contract.run_turn (fun _ => trivial) fun cid _ => hturn cid

theorem recover_turn_logged (p : Prop) (loads : String → Except Exn Json) (kv : Kv.Plane) (s u : String)
    (plan : List (Tool R X × Json)) (prov : Provenance) :
    (logs p session turn R X).rules.Triple () (Contract.Settled fun _ _ => True)
      (recover_turn loads kv s u plan prov) (fun _ => Contract.Settled fun _ _ => True) fun _ _ => True := by
  refine RelyGuarantee.Triple.bind (Q := fun _ => Contract.Settled fun _ _ => True) ?_ fun rr => ?_
  · exact .ofExcept (fun _ _ _ _ hw => hw) fun _ _ _ _ _ => trivial
  · exact (run_turn_logged p s u plan).bind fun _ => fun _ _ hw => ⟨hw.idle, trivial⟩

/-! ## The calls -/

variable {calls : ι → Call R X}

/-- What is known of a node whose KV view stays as it is. -/
structure Steady (started : List ι) (kv : KvState) (F : Db R → X → Prop) (n : Node ι R X) : Prop where
  world : Contract.Settled F n.world
  kv : n.kv = kv
  started : n.started = started

omit [Driver] in
/-- **A program on the tools** keeps the invariant, if it forgets nothing that is logged. -/
theorem onWorld_spec {α : Type} {q : GwProg R X α} {G : α → Db R → X → Prop} (s u : String)
    (h : ∀ p, (logs p session turn R X).rules.Triple () (Contract.Settled fun _ _ => True) q
      (fun a => Contract.Settled (G a)) fun _ _ => True) (started : List ι) (kv : KvState) :
    (rules calls session turn).Triple () (Steady started kv fun _ _ => True) (onWorld s u q)
      (fun a => Steady started kv (G a)) fun _ _ => True := by
  let frame (n : Node ι R X) : Prop := n.kv = kv ∧ n.started = started ∧ ManifestOk calls session turn started kv
  have hzoom : (rules calls session turn).Triple ()
      (fun n => frame n ∧ (HasManifest session turn kv → Logged session turn .TURN_COMMITTED n.world.committed.wal) ∧
        Contract.Settled (fun _ _ => True) n.world) (onWorld s u q)
      (fun a n => frame n ∧
        (HasManifest session turn kv → Logged session turn .TURN_COMMITTED n.world.committed.wal) ∧
        Contract.Settled (G a) n.world) fun e n => ∃ e', e = id e' ∧ frame n ∧ True := by
    refine Serial.triple_zoom (h (HasManifest session turn kv)) (fun _ _ => rfl) ?_
    rintro n w - ⟨hkv, hstarted, hmanifest⟩ -
      (hlogged : HasManifest session turn kv → Logged session turn .TURN_COMMITTED w.committed.wal)
    refine ⟨trivial, ⟨?_, ?_⟩, hkv, hstarted, hmanifest⟩
    · rw [hkv, hstarted]
      exact hmanifest
    · rw [hkv]
      exact hlogged
  refine hzoom.conseq ?_ ?_ fun _ _ _ _ => trivial
  · rintro n (hn : Bound calls session turn n) ⟨hworld, rfl, rfl⟩
    exact ⟨⟨rfl, rfl, hn.manifest⟩, hn.committed, hworld⟩
  · rintro a n - ⟨⟨hkv, hstarted, -⟩, -, hworld⟩
    exact ⟨hworld, hkv, hstarted⟩

omit [Driver] in
/-- **A snapshot** of a turn that is committed, by a call that has been made. -/
theorem onKv_spec {s u : String} {plan : List (Tool R X × Json)} {prov : Provenance} {blocks : List (List UInt8)}
    {i : ι} {started : List ι} {kv : KvState} (hi : i ∈ started) (hcall : calls i = .commit_turn s u plan prov blocks) :
    (rules calls session turn).Triple () (Steady started kv fun d _ => Logged s u .TURN_COMMITTED d.wal)
      (onKv s u (Kv.snapshot (lsn s u) prov blocks)) (fun _ _ => True) fun _ _ => True := by
  rintro n (hn : Bound calls session turn n) ⟨⟨hidle, hlogged⟩, rfl, rfl⟩
  let frame (n' : Node ι R X) : Prop := n'.world = n.world ∧ n'.started = n.started
  -- what a snapshot keeps in the runs that are looked at
  let inv' (kv : KvState) : Prop := OwnText session turn (.snapshot s u) →
    ManifestOk calls session turn n.started kv ∧
      (HasManifest session turn kv → Logged session turn .TURN_COMMITTED n.world.committed.wal)
  have hfree : Kv.FilesFree (Serial.alone inv' (fun _ _ _ => True) fun _ _ => True) () fun _ => True :=
    ⟨Serial.stable_alone _, fun c kv fs hkv _ => ⟨trivial, hkv, trivial⟩⟩
  have hsnapshot : (Serial.alone inv' (fun _ _ _ => True) fun _ _ => True).Triple () (fun _ => True)
      (Kv.snapshot (lsn s u) prov blocks) (fun _ _ => True) fun _ _ => True := by
    refine Kv.snapshot_triple hfree.keep (fun _ _ => trivial) _ _ _ ?_
    refine RelyGuarantee.Triple.modify hfree.stable fun kv hkv _ _ => ⟨trivial, fun hown => ?_, trivial⟩
    obtain ⟨hmanifest, hcommitted⟩ := hkv hown
    by_cases htext : lsn s u = lsn session turn
    · obtain ⟨rfl, rfl⟩ := hown s u rfl htext
      have hself : (kv.kv_manifest.upsert (lsn s u) fun _ => (manifestOf (lsn s u) prov blocks).dumps) (lsn s u) =
          some (manifestOf (lsn s u) prov blocks).dumps := Table.upsert_self ..
      refine ⟨fun text hrow => ?_, fun _ => hlogged⟩
      exact ⟨i, hi, prov, blocks, ⟨plan, hcall⟩, Option.some.inj (hrow.symm.trans hself)⟩
    · have hsame : (kv.kv_manifest.upsert (lsn s u) fun _ => (manifestOf (lsn s u) prov blocks).dumps)
          (lsn session turn) = kv.kv_manifest (lsn session turn) := Table.upsert_of_ne _ (Ne.symm htext) _
      refine ⟨fun text hrow => hmanifest text (hsame.symm.trans hrow), ?_⟩
      rintro ⟨text, hrow⟩
      exact hcommitted ⟨text, hsame.symm.trans hrow⟩
  have hzoom : (rules calls session turn).Triple () (fun n' => frame n' ∧ inv' n'.kv ∧ True)
      (onKv s u (Kv.snapshot (lsn s u) prov blocks)) (fun _ n' => frame n' ∧ inv' n'.kv ∧ True)
      fun e n' => ∃ e', e = id e' ∧ frame n' ∧ True := by
    refine Serial.triple_zoom hsnapshot (fun _ _ => rfl) ?_
    rintro n' kv hown ⟨hworld, hstarted⟩ - hkv
    obtain ⟨hmanifest, hcommitted⟩ := hkv hown
    refine ⟨trivial, ⟨?_, ?_⟩, hworld, hstarted⟩
    · show ManifestOk calls session turn n'.started kv
      rw [hstarted]
      exact hmanifest
    · show HasManifest session turn kv → Logged session turn .TURN_COMMITTED n'.world.committed.wal
      rw [hworld]
      exact hcommitted
  exact (hzoom.conseq (fun _ _ h => h) (fun _ _ _ _ => trivial) fun _ _ _ _ => trivial) n hn
    ⟨⟨rfl, rfl⟩, fun _ => ⟨hn.manifest, hn.committed⟩, trivial⟩

/-- **The calls**: each keeps the invariant, whatever ends it. -/
theorem call_spec {i : ι} :
    (rules calls session turn).Triple ()
      (fun n => Contract.Settled (fun _ _ => True) n.world ∧ i ∈ n.started) (calls i).run (fun _ _ => True)
      fun _ _ => True := by
  rintro n hn ⟨hworld, hi⟩
  have hsteady : Steady n.started n.kv (fun _ _ => True) n := ⟨hworld, rfl, rfl⟩
  cases hcall : calls i with
  | commit_turn s u plan prov kv_blocks =>
    refine RelyGuarantee.Triple.bind
      (onWorld_spec s u (fun p => run_turn_logged p s u plan) n.started n.kv) (fun results => ?_) n hn hsteady
    exact (onKv_spec hi hcall).bind fun _ => fun _ _ _ => trivial
  | recover_turn s u plan current_prov =>
    have hread : (rules calls session turn).Triple () (Steady n.started n.kv fun _ _ => True)
        (Prog.read (.restore s u) fun n => n.kv.plane) (fun _ => Steady n.started n.kv fun _ _ => True)
        (fun (_ : Exn) _ => True) :=
      RelyGuarantee.Triple.read (Serial.stable_alone _) (fun _ => trivial) fun _ _ h _ => h
    refine RelyGuarantee.Triple.bind hread (fun kv => ?_) n hn hsteady
    refine (onWorld_spec s u (fun p => recover_turn_logged p json_loads kv s u plan current_prov) n.started
      n.kv).bind fun r => ?_
    exact fun _ _ _ => trivial

/-! ## Runs -/

/-- A node on which nothing has been done for this turn. -/
structure NewNode (session turn : String) (n : Node ι R X) : Prop where
  idle : n.world.working = n.world.committed
  no_manifest : n.kv.kv_manifest (lsn session turn) = none
  no_calls : n.started = []

/-- **Every call keeps the invariant**, in the runs that are looked at. -/
theorem bound_of_reachable {n₀ : Node ι R X} (h₀ : NewNode session turn n₀)
    {c : Serial.State Stmt (Node ι R X) Exn Returned}
    (hc : (node calls).Reachable (fun t _ => OwnText session turn t) (· = n₀) c) :
    Bound calls session turn c.shared := by
  have hverified : Serial.Verified (node calls) (rules calls session turn)
      (fun n => Contract.Settled (fun _ _ => True) n.world)
      (fun k n => Contract.Settled (fun _ _ => True) n.world ∧ k.1 ∈ n.started) fun _ _ => True := by
    constructor
    case main => exact fun k => call_spec
    case start =>
      rintro k n (hn : Bound calls session turn n) ⟨hidle, -⟩
      refine ⟨⟨fun text hrow => ?_, hn.committed⟩, ⟨hidle, trivial⟩, ?_⟩
      · obtain ⟨i, hi, hrest⟩ := hn.manifest text hrow
        exact ⟨i, List.mem_append_left _ hi, hrest⟩
      · exact List.mem_append_right _ (List.mem_singleton.mpr rfl)
    case close => exact fun n hn => ⟨⟨hn.manifest, hn.committed⟩, rfl, trivial⟩
  have hinit : ∀ n, n = n₀ → (rules calls session turn).Inv n ∧ Contract.Settled (fun _ _ => True) n.world := by
    rintro n rfl
    refine ⟨⟨fun text hrow => ?_, ?_⟩, h₀.idle, trivial⟩
    · rw [h₀.no_manifest] at hrow
      cases hrow
    · rintro ⟨text, hrow⟩
      rw [h₀.no_manifest] at hrow
      cases hrow
  exact (hverified.stateOk hinit hc).1

/-- The blocks hashed: those in the store, and those passed to the calls that have been made. -/
def Hashed (calls : ι → Call R X) (n : Node ι R X) : Set (List UInt8) :=
  fun b => (∃ p, n.kv.cas.read p = some b) ∨
    ∃ i ∈ n.started, ∃ s u prov blocks, Commits calls s u i prov blocks ∧ b ∈ blocks

/-- **A restored KV is that of a committed turn.** Whenever the KV of a turn can be restored, the turn is
    durably committed, and the blocks are those passed to a `commit_turn` for it; in every run in which no
    other turn of the same text is snapshotted. -/
theorem restored_is_committed (calls : ι → Call R X) (session turn : String) (n₀ : Node ι R X)
    (h₀ : NewNode session turn n₀) (c : Serial.State Stmt (Node ι R X) Exn Returned)
    (hc : (node calls).Reachable (fun t _ => OwnText session turn t) (· = n₀) c) (prov : Provenance)
    (hsha : Set.InjOn Kv.sha256_hex (Hashed calls c.shared)) (r : Kv.RestoreResult)
    (hr : Kv.restore c.shared.kv (lsn session turn) prov = .ok r) (hrestored : r.status = .RESTORED) :
    Logged session turn .TURN_COMMITTED c.shared.world.committed.wal ∧
      ∃ i ∈ c.shared.started, ∃ prov' blocks, Commits calls session turn i prov' blocks ∧ r.blocks = blocks := by
  have hbound := bound_of_reachable h₀ hc
  cases hrow : c.shared.kv.kv_manifest (lsn session turn) with
  | none =>
    have hplane : c.shared.kv.plane.kv_manifest (lsn session turn) = none := hrow
    rw [Kv.restore, Kv.Plane.restore, hplane] at hr
    cases hr
    cases hrestored
  | some text =>
    refine ⟨hbound.committed ⟨text, hrow⟩, ?_⟩
    obtain ⟨i, hi, prov', blocks, hcommits, rfl⟩ := hbound.manifest text hrow
    refine ⟨i, hi, prov', blocks, hcommits, ?_⟩
    have hblocks := Kv.getBlocks_hashes hsha (fun p b hp => Or.inl ⟨p, hp⟩)
      fun b hb => Or.inr ⟨i, hi, session, turn, prov', blocks, hcommits, hb⟩
    exact Kv.restored_blocks hrow hblocks hr hrestored

end Runs

/-! A turn without actions, whose one block is in the store already. -/

local instance oneDriver : Driver := .sqlite

def engine : Provenance := Kv.oneBlock.prov

def oneTurn (session turn : String) : Unit → Call Nat Unit := fun _ => .commit_turn session turn [] engine [[7]]

def newNode : Node Unit Nat Unit := ⟨settled ⟨fun _ => none, [], []⟩ () ⟨0, 0⟩, ⟨Kv.oneBlockCas, fun _ => none⟩, []⟩

theorem newNode_new (session turn : String) : NewNode session turn newNode := ⟨rfl, rfl, rfl⟩

/-- What `commit_turn` leaves. -/
structure Committed (session turn : String) (n : Node Unit Nat Unit) : Prop where
  wal : n.world.committed.wal = [⟨session, turn, .BEGIN_TURN, ""⟩, ⟨session, turn, .TURN_COMMITTED, ""⟩]
  cas : n.kv.cas = Kv.oneBlockCas
  manifest : n.kv.kv_manifest (lsn session turn) = some (manifestOf (lsn session turn) engine [[7]]).dumps
  started : n.started = [()]

theorem oneBlock_read : Kv.oneBlockCas.read (Kv.BlockCAS.path (Kv.sha256_hex [7])) = some [7] := by
  simp [Kv.oneBlockCas, FileSys.read, FileSys.openInode, FileSys.empty, FileSys.overwrite, FileSys.openTrunc]

/-- The one call runs through. -/
theorem run_oneTurn (session turn : String) : ∃ res n, Committed session turn n ∧
    (oneTurn session turn ()).run.run { newNode with started := [()] } = some (.ok res, n) := by
  obtain ⟨cid, hcid⟩ : ∃ cid, commit_id_of (planJson ([] : List (Tool Nat Unit × Json))) = some cid :=
    exists_commit_id rfl
  have hturn : ∃ clk, (run_turn session turn ([] : List (Tool Nat Unit × Json))).run newNode.world =
      some (.ok [], settled ⟨fun _ => none,
        [⟨session, turn, .BEGIN_TURN, ""⟩, ⟨session, turn, .TURN_COMMITTED, ""⟩], []⟩ () clk) := by
    refine ⟨⟨2, 0⟩, ?_⟩
    unfold run_turn
    rw [hcid]
    simp [newNode, runActions, appendUnlessHas, run_tick]
  obtain ⟨clk, hturn⟩ := hturn
  have hput : (Kv.putAll [[7]]).run newNode.kv = some (.ok (), newNode.kv) := by
    have hfound : Kv.oneBlockCas.pathExists (Kv.BlockCAS.path (Kv.sha256_hex [7])) = true := by
      simp [Kv.oneBlockCas, FileSys.pathExists]
    simp [Kv.putAll, Kv.BlockCAS.put, newNode, HasFiles.files, hfound]
  -- after the tools
  let node₁ : Node Unit Nat Unit := { newNode with
    world := settled ⟨fun _ => none,
      [⟨session, turn, .BEGIN_TURN, ""⟩, ⟨session, turn, .TURN_COMMITTED, ""⟩], []⟩ () clk
    started := [()] }
  have hworld : (onWorld session turn (run_turn session turn [])).run { newNode with started := [()] } =
      some (.ok [], node₁) := by
    rw [run_onWorld]
    simp only [hturn]
    rfl
  -- after the snapshot
  let node₂ : Node Unit Nat Unit := { node₁ with
    kv := { newNode.kv with
      kv_manifest := newNode.kv.kv_manifest.upsert (lsn session turn)
        fun _ => (manifestOf (lsn session turn) engine [[7]]).dumps } }
  have hkv : (onKv session turn (Kv.snapshot (lsn session turn) engine [[7]])).run node₁ =
      some (.ok (manifestOf (lsn session turn) engine [[7]]), node₂) := by
    rw [run_onKv]
    simp only [Kv.snapshot, Prog.run_bind, node₁, hput, Option.bind_some, Prog.andThen_ok]
    rfl
  have hmanifest : (newNode.kv.kv_manifest.upsert (lsn session turn)
      fun _ => (manifestOf (lsn session turn) engine [[7]]).dumps) (lsn session turn) =
        some (manifestOf (lsn session turn) engine [[7]]).dumps := Table.upsert_self ..
  refine ⟨.committed [] (manifestOf (lsn session turn) engine [[7]]), node₂, ⟨rfl, rfl, hmanifest, rfl⟩, ?_⟩
  simp only [oneTurn, Call.run, Prog.run_bind, hworld, hkv, Option.bind_some, Prog.andThen_ok]
  rfl

/-- What it leaves can be restored for every turn of the same text. -/
theorem Committed.restore {session turn s u : String} {n : Node Unit Nat Unit} (h : Committed session turn n)
    (htext : lsn s u = lsn session turn) :
    Kv.restore n.kv (lsn s u) engine = .ok ⟨.RESTORED, .ok, [[7]]⟩ := by
  have hread : n.kv.cas.read (Kv.BlockCAS.path (Kv.sha256_hex [7])) = some [7] := by
    rw [h.cas]
    exact oneBlock_read
  have hget : Kv.BlockCAS.get n.kv.plane.entry (Kv.sha256_hex [7]) = .ok (some [7]) := by
    rw [Kv.get_of_file hread]
    exact if_neg (not_not_intro rfl)
  have hblocks : Kv.getBlocks n.kv.plane.entry (Kv.hashes [[7]]) = .ok (some [[7]]) := by
    simp [Kv.hashes, Kv.getBlocks, hget, bind, Except.bind, Except.map]
  rw [htext, Kv.restore_of_manifest (a := ⟨lsn session turn, engine, [[7]]⟩) engine h.manifest, if_pos rfl, hblocks]
  rfl

theorem ownText_self (session turn : String) : OwnText session turn (.snapshot session turn) := by
  intro s u hs _
  cases hs
  exact ⟨rfl, rfl⟩

/-- The call on the new node, in the runs that are looked at for its turn. -/
theorem reachable_oneTurn (session turn : String) : ∃ c, Committed session turn c.shared ∧
    (node (oneTurn session turn)).Reachable (fun t _ => OwnText session turn t) (· = newNode) c := by
  obtain ⟨res, n, hn, hrun⟩ := run_oneTurn session turn
  have hstart : (node (oneTurn session turn)).Reachable (fun t _ => OwnText session turn t) (· = newNode)
      ⟨newNode, none⟩ := Lts.Reachable.start ⟨rfl, rfl⟩
  have hguard : (oneTurn session turn ()).run.Guarded (fun t (_ : Node Unit Nat Unit) => OwnText session turn t)
      { newNode with started := [()] } := by
    simp only [oneTurn, Call.run, Prog.guarded_bind]
    refine ⟨Prog.guarded_zoom _ _ _ _ ?_ _ _, fun _ _ _ => ⟨?_, fun _ _ _ => trivial⟩⟩
    · -- a statement of the turn stores no KV
      intro t s u h
      cases h
    · exact Prog.guarded_zoom _ _ _ _ (fun _ => ownText_self session turn) _ _
  exact ⟨_, hn, (hstart.begin rfl ((), 0)).run rfl hguard hrun⟩

/-- The KV of that turn is restored. -/
theorem restored_is_committed_oneTurn :
    ∃ (c : Serial.State Stmt (Node Unit Nat Unit) Exn Returned) (r : Kv.RestoreResult), r.status = .RESTORED ∧
      Logged "s" "t" .TURN_COMMITTED c.shared.world.committed.wal ∧
      ∃ i ∈ c.shared.started, ∃ prov' blocks, Commits (oneTurn "s" "t") "s" "t" i prov' blocks ∧
        r.blocks = blocks := by
  obtain ⟨c, hc, hreach⟩ := reachable_oneTurn "s" "t"
  have hsha : Set.InjOn Kv.sha256_hex (Hashed (oneTurn "s" "t") c.shared) := by
    have hone : Hashed (oneTurn "s" "t") c.shared ⊆ {[7]} := by
      rintro b (⟨p, hp⟩ | ⟨i, -, s, u, prov, blocks, ⟨plan, hcall⟩, hb⟩)
      · rw [hc.cas] at hp
        exact (Kv.oneBlockCas_read hp).2
      · cases hcall
        exact List.mem_singleton.mp hb
    exact Set.InjOn.mono hone (Set.injOn_singleton _ _)
  exact ⟨c, _, rfl, restored_is_committed (oneTurn "s" "t") "s" "t" newNode (newNode_new _ _) c hreach engine hsha _
    (hc.restore rfl) rfl⟩

/-- Turn `c` of session `a/b` is committed, and then turn `b/c` of session `a`, of which nothing is known, has
    its KV restored. -/
theorem restored_for_another_turn : ∃ c : Serial.State Stmt (Node Unit Nat Unit) Exn Returned,
    (node (oneTurn "a/b" "c")).Reachable (fun _ _ => True) (· = newNode) c ∧
      Kv.restore c.shared.kv (lsn "a" "b/c") engine = .ok ⟨.RESTORED, .ok, [[7]]⟩ ∧
      ¬ Logged "a" "b/c" .TURN_COMMITTED c.shared.world.committed.wal := by
  obtain ⟨c, hc, hreach⟩ := reachable_oneTurn "a/b" "c"
  refine ⟨c, ?_, hc.restore (by decide), ?_⟩
  · obtain ⟨c₀, ls, h₀, hrun⟩ := hreach
    exact ⟨c₀, ls, h₀, hrun.mono fun s l t hstep => ⟨by cases l <;> trivial, hstep.2⟩⟩
  · rintro ⟨r, hmem, hs, -⟩
    rw [hc.wal] at hmem
    simp only [List.mem_cons, List.not_mem_nil, or_false] at hmem
    rcases hmem with rfl | rfl
    · exact absurd hs (by decide)
    · exact absurd hs (by decide)

end AgentTx.Recovery
