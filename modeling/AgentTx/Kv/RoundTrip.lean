import AgentTx.Kv.Restore

/-!
# `Kv.RoundTrip` — what a snapshot stores, restore gives back, unless a damaged block is in its way

`put` takes any file under the name of a block for the block itself, and `get` reads the content. So a
block whose file was damaged is not stored again, and the snapshot that binds it cannot be restored: the
turn fails closed, is recomputed and snapshot again, and fails closed again. `Restorable` says when this
does not happen.

Layout of the proof:
* **A snapshot alone** — `run_snapshot`: after it, each of its blocks has a file, its own or the one that was there.
* **Restored, or not** — `getBlocks_eq_iff`: `restore` gives the blocks back exactly when every file holds what its
  name says; `stored_iff` turns this into a condition on the store before the snapshot.

Main results: `restore_snapshot_iff`, and a store with one corrupt block on which the turn never gets out of it
(`not_restore_snapshot`).
-/

namespace AgentTx.Kv

variable {ι : Type}

/-- Damage to a block file. -/
inductive Damage where
  | corrupt (p : FsPath) (content : List UInt8)
  | remove (p : FsPath)

namespace Damage

def apply (fs : FileSys) : Damage → FileSys
  | corrupt p content => fs.corrupt p content
  | remove p => fs.remove p

theorem noLinks {fs : FileSys} (h : fs.NoLinks) (d : Damage) : (d.apply fs).NoLinks := by
  cases d with
  | corrupt p content => exact h.corrupt p content
  | remove p => exact h.remove p

end Damage

/-- Snapshots, and files that get damaged. -/
def damagedSystem (snaps : ι → Snapshot) : System ι Damage Stmt KvState Exn Json where
  main i := (snaps i).run
  abort _ s := s
  env d s := some { s with cas := d.apply s.cas }
  kills _ := false

/-- Every entry is a file of its own. -/
def Plain (s : KvState) : Prop := s.cas.NoLinks

/-- Only the shape of the directory matters here. -/
def plain : RelyGuarantee ι Stmt KvState where
  Inv := Plain
  Rely _ _ _ := True
  Guar _ _ _ _ := True

theorem snapshot_plain (i : ι) (a : Snapshot) :
    (plain (ι := ι)).Triple i (fun _ => True) a.run (fun _ _ => True) fun _ _ => True := by
  have hkeep : (plain (ι := ι)).FilesKeep i fun _ => True :=
    ⟨fun _ _ _ _ _ _ => trivial, fun _ _ _ _ => trivial, fun c s fs hs _ hc =>
      ⟨trivial, FileSys.NoLinks.does hs hc, trivial⟩⟩
  refine snapshot_triple hkeep (fun _ _ => trivial) _ _ _ ?_
  exact RelyGuarantee.Triple.modify hkeep.stable fun s hs _ _ => ⟨trivial, hs, trivial⟩

theorem verified_plain (snaps : ι → Snapshot) :
    RelyGuarantee.Verified (damagedSystem snaps) plain fun _ _ => True where
  main i := snapshot_plain i (snaps i)
  pre_stable _ _ _ _ _ _ _ := trivial
  guar_rely _ _ _ _ _ _ _ _ _ := trivial
  abort _ s hs := ⟨hs, fun _ _ => trivial⟩
  env d s s' hs h := by
    cases h
    exact ⟨Damage.noLinks hs d, fun _ => trivial⟩

theorem plain_of_reachable [DecidableEq ι] {snaps : ι → Snapshot} {c : Config ι Stmt KvState Exn Json}
    (h : (damagedSystem snaps).Reachable Plain c) : Plain c.shared :=
  (verified_plain snaps).inv (fun _ _ _ => trivial) (fun _ hs => ⟨hs, fun _ => trivial⟩) h

/-! ## A snapshot alone -/

instance : LawfulFiles Stmt KvState := ⟨fun _ _ => rfl, fun _ _ _ => rfl⟩

/-- Where a block lies. -/
def final (b : List UInt8) : FsPath := BlockCAS.path (sha256_hex b)

theorem final_ne_tmp (b : List UInt8) (p : FsPath) : final b ≠ BlockCAS.tmp p := by
  intro h
  have hname : (sha256_hex b).toList = _ := congrArg (fun p => p.name.toList) h
  have hdot : '.' ∈ (sha256_hex b).toList := by
    rw [hname]
    simp [BlockCAS.tmp]
  exact Sha256.notMem_hexdigest (by decide) hdot

theorem final_eq {b b' : List UInt8} : final b = final b' ↔ sha256_hex b = sha256_hex b' :=
  ⟨fun h => congrArg FsPath.name h, fun h => congrArg BlockCAS.path h⟩

/-- What `put` leaves under the name of a block: what was there, or what is put. -/
theorem run_put {s : KvState} (hs : Plain s) (content : List UInt8) :
    ∃ fs, (BlockCAS.put content).run s = some (.ok (sha256_hex content), { s with cas := fs }) ∧ fs.NoLinks ∧
      ∀ b, fs.read (final b) =
        if final b = final content then some ((s.cas.read (final b)).getD content) else s.cas.read (final b) := by
  have hput : (BlockCAS.put content).run s =
      (if s.cas.pathExists (final content) then pure (sha256_hex content)
        else Prog.writeFile (BlockCAS.tmp (final content)) content >>= fun _ =>
          Prog.replace .FileNotFoundError (BlockCAS.tmp (final content)) (final content) >>= fun _ =>
            pure (sha256_hex content) : KvProg String).run s := rfl
  cases hdir : s.cas.dir (final content) with
  | some n =>
    have hexists : s.cas.pathExists (final content) = true := by
      simp [FileSys.pathExists, hdir]
    rw [hexists] at hput
    refine ⟨s.cas, hput, hs, fun b => ?_⟩
    split_ifs with hb
    · simp [FileSys.read, hb, hdir]
    · rfl
  | none =>
    have hexists : s.cas.pathExists (final content) = false := by
      simp [FileSys.pathExists, hdir]
    obtain ⟨fs, -, hpublish, -, -, hread, hlinks⟩ := Prog.run_publish (τ := Stmt) Exn.FileNotFoundError
      (BlockCAS.tmp (final content)) (final content) content s
    obtain ⟨hlinks', hothers⟩ := hlinks hs
    refine ⟨fs, ?_, hlinks', fun b => ?_⟩
    · rw [hput, hexists, if_neg Bool.false_ne_true, ← Prog.bind_assoc, Prog.run_bind, hpublish]
      rfl
    · split_ifs with hb
      · rw [hb, hread]
        simp [FileSys.read, hdir]
      · exact hothers _ (final_ne_tmp b _) hb

/-- What lies under the name of `b` when the blocks are stored: what was there, or the first block of that
    name. -/
def stored (s : KvState) (blocks : List (List UInt8)) (b : List UInt8) : Option (List UInt8) :=
  (s.cas.read (final b)).or (blocks.find? fun b' => final b = final b')

theorem run_putAll {s : KvState} (hs : Plain s) (blocks : List (List UInt8)) :
    ∃ fs, (putAll blocks).run s = some (.ok (), { s with cas := fs }) ∧
      ∀ b, fs.read (final b) = stored s blocks b := by
  induction blocks generalizing s with
  | nil => exact ⟨s.cas, rfl, fun b => (Option.or_none ..).symm⟩
  | cons b bs ih =>
    obtain ⟨fs₁, hput, hlinks, hread⟩ := run_put hs b
    obtain ⟨fs, hrun, hread'⟩ := ih (s := { s with cas := fs₁ }) hlinks
    refine ⟨fs, ?_, fun b' => ?_⟩
    · unfold putAll
      simp only [Prog.run_bind, hput, Option.bind_some, Prog.andThen_ok]
      exact hrun
    · have hfirst : fs₁.read (final b') = _ := hread b'
      rw [hread', stored, stored, List.find?_cons]
      show (fs₁.read (final b')).or _ = _
      rw [hfirst]
      by_cases hb : final b' = final b
      · rw [if_pos hb]
        cases s.cas.read (final b') <;> simp [hb]
      · rw [if_neg hb]
        simp [hb]

/-- **A snapshot alone** stores its blocks and its manifest. -/
theorem run_snapshot {s : KvState} (hs : Plain s) (a : Snapshot) :
    ∃ s', a.run.run s = some (.ok a.manifest, s') ∧ s'.kv_manifest a.turn_lsn = some a.manifest.dumps ∧
      ∀ b, s'.cas.read (final b) = stored s a.blocks b := by
  obtain ⟨fs, hput, hread⟩ := run_putAll hs a.blocks
  have hrow : (s.kv_manifest.upsert a.turn_lsn fun _ => a.manifest.dumps) a.turn_lsn = some a.manifest.dumps :=
    Table.upsert_self ..
  refine ⟨⟨fs, s.kv_manifest.upsert a.turn_lsn fun _ => a.manifest.dumps⟩, ?_, hrow, hread⟩
  unfold Snapshot.run snapshot
  simp only [Prog.run_bind, hput, Option.bind_some, Prog.andThen_ok]
  rfl

/-! ## Restored, or not -/

/-- The blocks read back under the hashes of `blocks` are `blocks` exactly when each file is the block. -/
theorem getBlocks_eq_iff {s : KvState} {blocks : List (List UInt8)} :
    getBlocks s.plane.entry (hashes blocks) = .ok (some blocks) ↔
      ∀ b ∈ blocks, s.cas.read (final b) = some b := by
  induction blocks with
  | nil => simp [getBlocks, hashes]
  | cons b bs ih =>
    rw [List.forall_mem_cons, ← ih]
    cases hread : s.cas.read (final b) with
    | none =>
      rw [getBlocks_missing bs hread]
      simp
    | some b' =>
      by_cases hsum : sha256_hex b' = sha256_hex b
      · rw [getBlocks_found bs hread hsum]
        cases getBlocks s.plane.entry (hashes bs) with
        | error e => simp [Except.map]
        | ok o => cases o <;> simp [Except.map]
      · rw [getBlocks_corrupt bs hread hsum]
        have hne : b' ≠ b := fun hb => hsum (congrArg sha256_hex hb)
        simp [hne]

/-- Under the name of each block there is no file, or the block; and no two of the blocks have one name. -/
def Restorable (cas : FileSys) (blocks : List (List UInt8)) : Prop :=
  ∀ b ∈ blocks, (∀ content, cas.read (final b) = some content → content = b) ∧
    ∀ b' ∈ blocks, sha256_hex b' = sha256_hex b → b' = b

theorem stored_iff {s : KvState} {blocks : List (List UInt8)} :
    (∀ b ∈ blocks, stored s blocks b = some b) ↔ Restorable s.cas blocks := by
  constructor
  · intro h b hb
    refine ⟨fun content hread => ?_, fun b' hb' hsum => ?_⟩
    · have hstored := h b hb
      rw [stored, hread] at hstored
      exact Option.some.inj hstored
    · -- what is stored depends on the name only
      have hsame : stored s blocks b' = stored s blocks b := by
        rw [stored, stored, final_eq.mpr hsum]
      rw [h b hb, h b' hb'] at hsame
      exact Option.some.inj hsame
  · intro h b hb
    obtain ⟨hfile, hname⟩ := h b hb
    unfold stored
    cases hread : s.cas.read (final b) with
    | some content =>
      rw [hfile content hread]
      rfl
    | none =>
      rw [Option.none_or]
      cases hfind : blocks.find? fun b' => final b = final b' with
      | none =>
        have hself := List.find?_eq_none.mp hfind b hb
        simp at hself
      | some b' =>
        have hsum := List.find?_some hfind
        rw [hname b' (List.mem_of_find?_eq_some hfind) (final_eq.mp (by simpa using hsum)).symm]

theorem restored_iff {s : KvState} {a : Snapshot} (h : s.kv_manifest a.turn_lsn = some a.manifest.dumps) :
    restore s a.turn_lsn a.prov = .ok ⟨.RESTORED, .ok, a.blocks⟩ ↔
      ∀ b ∈ a.blocks, s.cas.read (final b) = some b := by
  rw [restore_of_manifest a.prov h, if_pos rfl, ← getBlocks_eq_iff]
  cases getBlocks s.plane.entry (hashes a.blocks) with
  | error e => simp [Except.map]
  | ok o => cases o <;> simp [Except.map]

/-- **The round trip.** On any store that snapshots and damage leave behind, a snapshot returns its manifest,
    and is restored, whole, exactly when no damaged block is in its way. -/
theorem restore_snapshot_iff [DecidableEq ι] {snaps : ι → Snapshot} {c : Config ι Stmt KvState Exn Json}
    (h : (damagedSystem snaps).Reachable Plain c) (a : Snapshot) :
    ∃ s', a.run.run c.shared = some (.ok a.manifest, s') ∧
      (restore s' a.turn_lsn a.prov = .ok ⟨.RESTORED, .ok, a.blocks⟩ ↔ Restorable c.shared.cas a.blocks) := by
  obtain ⟨s', hrun, hrow, hread⟩ := run_snapshot (plain_of_reachable h) a
  refine ⟨s', hrun, ?_⟩
  rw [restored_iff hrow, ← stored_iff]
  simp only [hread]

/-- The first snapshot of a turn, run to its end. -/
theorem reachable_oneBlock : ∃ c : Config Unit Stmt KvState Exn Json,
    (damagedSystem fun _ => oneBlock).Reachable Plain c ∧ c.shared.cas.read (final [7]) = some [7] := by
  let empty : KvState := ⟨FileSys.empty, fun _ => none⟩
  have hstart : (damagedSystem fun _ : Unit => oneBlock).Reachable Plain ⟨empty, fun _ => .fresh⟩ :=
    Lts.Reachable.start ⟨nofun, fun _ => rfl⟩
  obtain ⟨s, hrun, -, hread⟩ := run_snapshot (s := empty) nofun oneBlock
  refine ⟨_, (hstart.spawn (i := ()) rfl).run (i := ()) rfl hrun, ?_⟩
  rw [hread]
  simp [stored, empty, FileSys.read, FileSys.empty, oneBlock]

/-- A block that is lost is stored again. -/
theorem restore_snapshot_removed :
    ∃ c : Config Unit Stmt KvState Exn Json, (damagedSystem fun _ => oneBlock).Reachable Plain c ∧
      c.shared.cas.read (final [7]) = none ∧ ∃ s', oneBlock.run.run c.shared = some (.ok oneBlock.manifest, s') ∧
        (restore s' oneBlock.turn_lsn oneBlock.prov = .ok ⟨.RESTORED, .ok, oneBlock.blocks⟩ ↔
          Restorable c.shared.cas oneBlock.blocks) := by
  obtain ⟨c, hc, -⟩ := reachable_oneBlock
  have hremoved := hc.env (e := .remove (final [7])) rfl
  refine ⟨_, hremoved, ?_, restore_snapshot_iff hremoved oneBlock⟩
  simp [Damage.apply, FileSys.remove, FileSys.read]

/-- **A block that is corrupt is not**: the turn fails closed however often it is snapshot. -/
theorem not_restore_snapshot :
    ¬ ∀ (snaps : Unit → Snapshot) (c : Config Unit Stmt KvState Exn Json),
      (damagedSystem snaps).Reachable Plain c → ∀ a : Snapshot,
        ∃ s', a.run.run c.shared = some (.ok a.manifest, s') ∧
          restore s' a.turn_lsn a.prov = .ok ⟨.RESTORED, .ok, a.blocks⟩ := by
  intro hall
  obtain ⟨c, hc, hread⟩ := reachable_oneBlock
  obtain ⟨n, hn, -⟩ := Option.map_eq_some_iff.mp hread
  have hcorrupt := hc.env (e := .corrupt (final [7]) [8]) rfl
  obtain ⟨s', hrun, hrestored⟩ := hall _ _ hcorrupt oneBlock
  obtain ⟨s'', hrun', hrow, hstored⟩ := run_snapshot (plain_of_reachable hcorrupt) oneBlock
  have hsame : s' = s'' := by
    rw [hrun] at hrun'
    exact congrArg Prod.snd (Option.some.inj hrun')
  subst hsame
  have hfile := (restored_iff hrow).mp hrestored [7] List.mem_cons_self
  have hfile' : (c.shared.cas.corrupt (final [7]) [8]).read (final [7]) = some [8] :=
    FileSys.read_corrupt_self hn _
  rw [hstored, stored] at hfile
  change ((c.shared.cas.corrupt (final [7]) [8]).read (final [7])).or _ = _ at hfile
  rw [hfile'] at hfile
  simp at hfile

end AgentTx.Kv
