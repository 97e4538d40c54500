import AgentTx.Kv.View
import AgentTx.Lib.Prog.Files

/-!
# `Kv.Restore` — restore is sound: it fails closed, or gives back one snapshot, whole

Any number of snapshots run at once, each stopping anywhere, while an adversary rewrites the block store
at will. Nothing is known of the blocks then; what is known is the manifest table, because only the last
statement of a snapshot writes it: the row of a turn is the manifest of the last snapshot that wrote it
(`manifest_eq_lastWrite`). The two hashes do the rest.

Layout of the proof:
* **Snapshots and the table** — a snapshot writes the manifest once, in its last statement (`snapshot_writes`), so the
  row of a turn is that of the last writer in the run (`Run.manifestOk`). The adversary is at the files only.
* **What restore makes of it** — the manifest is read back (`restore_of_manifest`); every block is checked against its
  hash (`getBlocks_hashes`); so what comes back is what that snapshot hashed, if SHA-256 does not collide on it.

Main result: `restore_sound`.
-/

namespace AgentTx.Kv

open Relation

/-- The arguments of a snapshot. -/
structure Snapshot where
  turn_lsn : String
  prov : Provenance
  blocks : List (List UInt8)

namespace Snapshot

def run (a : Snapshot) : KvProg Json := snapshot a.turn_lsn a.prov a.blocks

def manifest (a : Snapshot) : Json := manifestOf a.turn_lsn a.prov a.blocks

end Snapshot

variable {ι : Type}

/-- Snapshots, and an adversary that may turn the block store into any other. -/
def system (snaps : ι → Snapshot) : System ι FileSys Stmt KvState Exn Json where
  main i := (snaps i).run
  abort _ s := s
  env fs s := some { s with cas := fs }
  kills _ := false

/-- The snapshot that writes the manifest of a turn with this step, if the step does that. -/
def writerOf (turn_lsn : String) : Label ι FileSys Stmt → Option ι
  | .next i (.putManifest t _) => if t = turn_lsn then some i else none
  | _ => none

/-- The snapshot that wrote the manifest of a turn last. -/
def lastWrite (turn_lsn : String) (ls : List (Label ι FileSys Stmt)) : Option ι :=
  ls.reverse.findSome? (writerOf turn_lsn)

/-! ## What a snapshot does to the manifests

Nothing before its last statement. The files are not mentioned: the adversary may have them at any time. -/

/-- The manifest table after a statement of the snapshot `a`. -/
def Writes (a : Snapshot) (t : Stmt) (s s' : KvState) : Prop :=
  match t with
  | .file _ => s'.kv_manifest = s.kv_manifest
  | .putManifest turn_lsn text => turn_lsn = a.turn_lsn ∧ text = a.manifest.dumps ∧
      s'.kv_manifest = s.kv_manifest.upsert turn_lsn fun _ => text

/-! The programs of a snapshot, in any proof in which calls on files may do what they like as long as they
keep `P`. Only the last statement needs more. -/

section Programs

variable {R : RelyGuarantee ι Stmt KvState} {i : ι} {P : KvState → Prop} {E : Exn → KvState → Prop}

/-- Calls on files are allowed, and keep `P`. -/
structure FilesFree (R : RelyGuarantee ι Stmt KvState) (i : ι) (P : KvState → Prop) : Prop where
  stable : R.Stable i P
  file : ∀ c s fs, R.Inv s → P s → R.Guar i (.file c) s { s with cas := fs } ∧ R.Inv { s with cas := fs } ∧
    P { s with cas := fs }

theorem FilesFree.keep (h : FilesFree R i P) : R.FilesKeep i P where
  stable := h.stable
  same c s hs hP := (h.file c s s.cas hs hP).1
  call c s fs hs hP _ := h.file c s fs hs hP

variable (h : R.FilesKeep i P) (hE : ∀ e s, E e s)

include h hE

theorem BlockCAS.put_triple (content : List UInt8) :
    R.Triple i P (BlockCAS.put content) (fun _ => P) E := by
  unfold BlockCAS.put
  refine RelyGuarantee.Triple.bind (h.pathExists _) fun found => ?_
  cases found with
  | true => exact fun _ _ hP => hP
  | false =>
    exact (h.writeFile _ _).bind fun _ => (h.replace hE _ _ _).bind fun _ => fun _ _ hP => hP

theorem putAll_triple : ∀ blocks : List (List UInt8), R.Triple i P (putAll blocks) (fun _ => P) E
  | [] => fun _ _ hP => hP
  | b :: bs => (BlockCAS.put_triple h hE b).bind fun _ => putAll_triple bs

/-- **A snapshot**, when its last statement may write the manifest. -/
theorem snapshot_triple {Q : KvState → Prop} (turn_lsn : String) (prov : Provenance)
    (blocks : List (List UInt8))
    (hput : R.Triple i P (putManifest turn_lsn (manifestOf turn_lsn prov blocks).dumps) (fun _ => Q) E) :
    R.Triple i P (snapshot turn_lsn prov blocks) (fun _ => Q) E :=
  (putAll_triple h hE blocks).bind fun _ => hput.bind fun _ => fun _ _ hQ => hQ

end Programs

/-- No invariant and no interference matter here: only what each statement writes. -/
def writes (snaps : ι → Snapshot) : RelyGuarantee ι Stmt KvState where
  Inv _ := True
  Rely _ _ _ := True
  Guar i := Writes (snaps i)

theorem snapshot_writes {snaps : ι → Snapshot} {i : ι} :
    (writes snaps).Triple i (fun _ => True) (snaps i).run (fun _ _ => True) fun _ _ => True := by
  have hfree : FilesFree (writes snaps) i fun _ => True :=
    ⟨fun _ _ _ _ _ _ => trivial, fun _ _ _ _ _ => ⟨rfl, trivial, trivial⟩⟩
  refine snapshot_triple hfree.keep (fun _ _ => trivial) _ _ _ ?_
  exact RelyGuarantee.Triple.modify hfree.stable fun _ _ _ _ => ⟨⟨rfl, rfl, rfl⟩, trivial, trivial⟩

theorem verified (snaps : ι → Snapshot) :
    RelyGuarantee.Verified (system snaps) (writes snaps) fun _ _ => True where
  main _ := snapshot_writes
  pre_stable _ _ _ _ _ _ _ := trivial
  guar_rely _ _ _ _ _ _ _ _ _ := trivial
  abort _ _ _ := ⟨trivial, fun _ _ => trivial⟩
  env _ _ _ _ _ := ⟨trivial, fun _ => trivial⟩

/-! ## The manifest of a turn is its last writer's

By induction on the run, from its end. -/

variable {snaps : ι → Snapshot}

/-- The stores before any snapshot: no manifest, whatever files. -/
def Fresh (s : KvState) : Prop := ∀ t, s.kv_manifest t = none

/-- The snapshot that wrote last took a step. -/
theorem next_mem_of_lastWrite {turn_lsn : String} {i : ι} {ls : List (Label ι FileSys Stmt)}
    (h : lastWrite turn_lsn ls = some i) : ∃ t, Label.next i t ∈ ls := by
  obtain ⟨l, hl, hw⟩ := List.exists_of_findSome?_eq_some h
  unfold writerOf at hw
  split at hw
  · rename_i j t text
    split_ifs at hw
    cases hw
    exact ⟨_, List.mem_reverse.mp hl⟩
  · cases hw

theorem lastWrite_concat (turn_lsn : String) (ls : List (Label ι FileSys Stmt)) (l : Label ι FileSys Stmt) :
    lastWrite turn_lsn (ls ++ [l]) = (writerOf turn_lsn l).or (lastWrite turn_lsn ls) := by
  rw [lastWrite, List.reverse_append, List.reverse_singleton, List.singleton_append, List.findSome?_cons]
  cases writerOf turn_lsn l <;> rfl

variable [DecidableEq ι]

/-- A run of the system that starts from no manifests. -/
abbrev Run (snaps : ι → Snapshot) (c₀ : Config ι Stmt KvState Exn Json)
    (ls : List (Label ι FileSys Stmt)) (c : Config ι Stmt KvState Exn Json) : Prop :=
  System.Start Fresh c₀ ∧ Lts.Exec (Lts.ofFun (system snaps).step) c₀ ls c

/-- **Step.** A statement moves the manifest table as `Writes` says. -/
theorem Run.writes {c₀ c c' : Config ι Stmt KvState Exn Json} {ls : List (Label ι FileSys Stmt)}
    (h : Run snaps c₀ ls c) {i : ι} {t : Stmt} (hstep : (system snaps).step c (.next i t) = some c') :
    Writes (snaps i) t c.shared c'.shared :=
  (verified snaps).guar (fun _ _ _ => trivial) (fun _ _ => ⟨trivial, fun _ => trivial⟩)
    ⟨c₀, ls, h.1, h.2⟩ hstep

/-- Whatever else happens, the manifest table stays. -/
theorem manifest_eq_of_step {c c' : Config ι Stmt KvState Exn Json} {l : Label ι FileSys Stmt}
    (hl : ∀ i t, l ≠ .next i t) (h : (system snaps).step c l = some c') :
    c'.shared.kv_manifest = c.shared.kv_manifest := by
  rcases System.step_cases h with ⟨i, rfl, -, rfl⟩ | ⟨i, t, -, -, -, -, -, rfl, -⟩ | ⟨i, p, rfl, -, rfl⟩ |
    ⟨fs, s, rfl, hs, rfl⟩
  · rfl
  · exact absurd rfl (hl i t)
  · rfl
  · cases hs
    rfl

/-- The manifest row of a turn, after the statements `ls`. -/
structure ManifestOk (snaps : ι → Snapshot) (turn_lsn : String) (ls : List (Label ι FileSys Stmt))
    (c : Config ι Stmt KvState Exn Json) : Prop where
  row : c.shared.kv_manifest turn_lsn = (lastWrite turn_lsn ls).map fun i => (snaps i).manifest.dumps
  turn : ∀ i, lastWrite turn_lsn ls = some i → (snaps i).turn_lsn = turn_lsn

/-- **Run.** The manifest of a turn is the one of the snapshot that wrote it last. -/
theorem Run.manifestOk {c₀ c : Config ι Stmt KvState Exn Json} {ls : List (Label ι FileSys Stmt)}
    (h : Run snaps c₀ ls c) (turn_lsn : String) : ManifestOk snaps turn_lsn ls c := by
  refine h.2.history (ManifestOk snaps turn_lsn) ⟨by rw [h.1.1]; rfl, nofun⟩ ?_
  intro ms u l v hpre ih hstep
  -- a step that does not write the row changes neither the row nor its last writer
  have hother (hw : writerOf turn_lsn l = none)
      (hv : v.shared.kv_manifest turn_lsn = u.shared.kv_manifest turn_lsn) :
      ManifestOk snaps turn_lsn (ms ++ [l]) v := by
    have hlast : lastWrite turn_lsn (ms ++ [l]) = lastWrite turn_lsn ms := by
      rw [lastWrite_concat, hw, Option.none_or]
    exact ⟨by rw [hlast, hv, ih.row], by rw [hlast]; exact ih.turn⟩
  by_cases hl : ∃ i t, l = .next i t
  · obtain ⟨i, t, rfl⟩ := hl
    have hw := Run.writes ⟨h.1, hpre⟩ hstep
    cases t with
    | file c => exact hother rfl (congrFun hw turn_lsn)
    | putManifest t text =>
      obtain ⟨rfl, rfl, hv⟩ := hw
      by_cases ht : (snaps i).turn_lsn = turn_lsn
      · have hlast : lastWrite turn_lsn (ms ++ [.next i (.putManifest (snaps i).turn_lsn
            (snaps i).manifest.dumps)]) = some i := by
          rw [lastWrite_concat, writerOf, if_pos ht, Option.some_or]
        refine ⟨?_, ?_⟩
        · rw [hlast, hv, ← ht, Table.upsert_self]
          rfl
        · rw [hlast]
          rintro j ⟨⟩
          exact ht
      · refine hother (if_neg ht) ?_
        rw [hv, Table.upsert_of_ne _ (Ne.symm ht)]
  · have hv := manifest_eq_of_step (fun i t hit => hl ⟨i, t, hit⟩) hstep
    refine hother ?_ (congrFun hv turn_lsn)
    cases l with
    | next i t => exact absurd ⟨i, t, rfl⟩ hl
    | spawn i => rfl
    | die i => rfl
    | env fs => rfl

/-! ## What restore makes of a manifest

A pure function of the tables and files, so that only what it finds there matters. -/

/-- The hashes that a manifest lists. -/
def hashes (blocks : List (List UInt8)) : List Json := blocks.map fun b => .str (sha256_hex b)

theorem stringKeysItems_hashes (blocks : List (List UInt8)) :
    Json.stringKeysItems (hashes blocks) = hashes blocks := by
  induction blocks with
  | nil => rfl
  | cons b bs ih => exact congrArg (Json.str (sha256_hex b) :: ·) ih

/-- Restore on the manifest of the snapshot `a`. -/
theorem restore_of_manifest {s : KvState} {turn_lsn : String} {a : Snapshot} (P : Provenance)
    (h : s.kv_manifest turn_lsn = some a.manifest.dumps) :
    restore s turn_lsn P =
      if a.prov.key = P.key then
        (getBlocks s.plane.entry (hashes a.blocks)).map fun
          | none => ⟨.FAIL_CLOSED, .block_corrupt_or_missing, []⟩
          | some out => ⟨.RESTORED, .ok, out⟩
      else .ok ⟨.FAIL_CLOSED, .provenance_mismatch, []⟩ := by
  have hkey : subscript a.manifest.stringKeys "prov_key" = .ok (.str a.prov.key) := rfl
  have hblocks : subscript a.manifest.stringKeys "blocks" = .ok (.arr (hashes a.blocks)) :=
    congrArg (fun items => Except.ok (Json.arr items)) (stringKeysItems_hashes a.blocks)
  have hrow : s.plane.kv_manifest turn_lsn = some a.manifest.dumps := h
  simp only [restore, Plane.restore, hrow, json_loads, Json.loads_dumps, Option.elim_some, bind, Except.bind, hkey,
    hblocks, isText, decide_eq_true_eq, iterate]
  split_ifs with hk
  · cases getBlocks s.plane.entry (hashes a.blocks) with
    | error e => rfl
    | ok o => cases o <;> rfl
  · rfl

theorem get_of_missing {s : KvState} {h : String} (hread : s.cas.read (BlockCAS.path h) = none) :
    BlockCAS.get s.plane.entry h = .ok none := by
  simp only [BlockCAS.get, KvState.plane, hread, Option.elim_none]

theorem get_of_file {s : KvState} {h : String} {b : List UInt8} (hread : s.cas.read (BlockCAS.path h) = some b) :
    BlockCAS.get s.plane.entry h = if sha256_hex b ≠ h then .ok none else .ok (some b) := by
  simp only [BlockCAS.get, KvState.plane, hread, Option.elim_some]

section Blocks

variable {s : KvState} {b : List UInt8} (bs : List (List UInt8))

theorem getBlocks_missing (hread : s.cas.read (BlockCAS.path (sha256_hex b)) = none) :
    getBlocks s.plane.entry (hashes (b :: bs)) = .ok none := by
  simp only [hashes, List.map_cons, getBlocks, get_of_missing hread, bind, Except.bind]

theorem getBlocks_corrupt {b' : List UInt8} (hread : s.cas.read (BlockCAS.path (sha256_hex b)) = some b')
    (hsum : sha256_hex b' ≠ sha256_hex b) : getBlocks s.plane.entry (hashes (b :: bs)) = .ok none := by
  simp only [hashes, List.map_cons, getBlocks, get_of_file hread, if_pos hsum, bind, Except.bind]

theorem getBlocks_found {b' : List UInt8} (hread : s.cas.read (BlockCAS.path (sha256_hex b)) = some b')
    (hsum : sha256_hex b' = sha256_hex b) : getBlocks s.plane.entry (hashes (b :: bs)) =
      (getBlocks s.plane.entry (hashes bs)).map (Option.map (b' :: ·)) := by
  simp only [hashes, List.map_cons, getBlocks, get_of_file hread, if_neg (not_not_intro hsum), bind, Except.bind]

end Blocks

/-- The blocks read back under the hashes of `blocks` are `blocks`, or one of them is not there. -/
theorem getBlocks_hashes {s : KvState} {A : Set (List UInt8)} (hsha : Set.InjOn sha256_hex A)
    (hcas : ∀ p b, s.cas.read p = some b → b ∈ A) :
    ∀ {blocks : List (List UInt8)}, (∀ b ∈ blocks, b ∈ A) →
      getBlocks s.plane.entry (hashes blocks) = .ok none ∨
        getBlocks s.plane.entry (hashes blocks) = .ok (some blocks)
  | [], _ => Or.inr rfl
  | b :: bs, hA => by
      have ih := getBlocks_hashes hsha hcas fun x hx => hA x (List.mem_cons_of_mem _ hx)
      cases hread : s.cas.read (BlockCAS.path (sha256_hex b)) with
      | none => exact Or.inl (getBlocks_missing bs hread)
      | some b' =>
        by_cases hsum : sha256_hex b' = sha256_hex b
        · have hb : b' = b := hsha (hcas _ _ hread) (hA b List.mem_cons_self) hsum
          subst hb
          rw [getBlocks_found bs hread rfl]
          rcases ih with ih | ih
          · exact Or.inl (congrArg (Except.map _) ih)
          · exact Or.inr (congrArg (Except.map _) ih)
        · exact Or.inl (getBlocks_corrupt bs hread hsum)

/-- What is restored from the manifest of `a`, when its blocks read back as they were or not at all. -/
theorem restored_blocks {s : KvState} {turn_lsn : String} {P P' : Provenance} {blocks : List (List UInt8)}
    (h : s.kv_manifest turn_lsn = some (manifestOf turn_lsn P' blocks).dumps)
    (hread : getBlocks s.plane.entry (hashes blocks) = .ok none ∨
      getBlocks s.plane.entry (hashes blocks) = .ok (some blocks))
    {r : RestoreResult} (hr : restore s turn_lsn P = .ok r) (hrestored : r.status = .RESTORED) :
    r.blocks = blocks := by
  rw [restore_of_manifest (a := ⟨turn_lsn, P', blocks⟩) P h] at hr
  split_ifs at hr with hk
  · rcases hread with hread | hread
    · rw [hread] at hr
      cases hr
      cases hrestored
    · rw [hread] at hr
      cases hr
      rfl
  · cases hr
    cases hrestored

/-- The inputs hashed in the run `ls` and in a restore for `P` at its end: provenance records, the blocks
    of the snapshots that took a step, and whatever the adversary left in the block store. -/
def Hashed (snaps : ι → Snapshot) (ls : List (Label ι FileSys Stmt))
    (c : Config ι Stmt KvState Exn Json) (P : Provenance) : Set (List UInt8) :=
  fun b => b = P.keyBytes ∨ (∃ p, c.shared.cas.read p = some b) ∨
    ∃ i t, Label.next i t ∈ ls ∧ (b = (snaps i).prov.keyBytes ∨ b ∈ (snaps i).blocks)

/-- **Restore is sound.** It returns `RESTORED` only with the provenance and the blocks, whole and in
    order, of the snapshot that wrote the turn's manifest last; otherwise `FAIL_CLOSED` and no blocks. -/
theorem restore_sound {c₀ c : Config ι Stmt KvState Exn Json} {ls : List (Label ι FileSys Stmt)}
    (h : Run snaps c₀ ls c) (turn_lsn : String) (P : Provenance)
    (hsha : Set.InjOn sha256_hex (Hashed snaps ls c P)) :
    ∃ r, restore c.shared turn_lsn P = .ok r ∧
      ((r.status = .RESTORED ∧ ∃ i, lastWrite turn_lsn ls = some i ∧
          (snaps i).turn_lsn = turn_lsn ∧ (snaps i).prov = P ∧ r.blocks = (snaps i).blocks) ∨
        (r.status = .FAIL_CLOSED ∧ r.blocks = [])) := by
  have hrow := (h.manifestOk turn_lsn).row
  cases hlast : lastWrite turn_lsn ls with
  | none =>
    rw [hlast] at hrow
    have hnone : restore c.shared turn_lsn P = .ok ⟨.FAIL_CLOSED, .manifest_missing, []⟩ := by
      have hnone : c.shared.plane.kv_manifest turn_lsn = none := hrow
      rw [restore, Plane.restore, hnone]
    exact ⟨_, hnone, Or.inr ⟨rfl, rfl⟩⟩
  | some i =>
    rw [hlast] at hrow
    rw [restore_of_manifest P hrow]
    obtain ⟨t, ht⟩ := next_mem_of_lastWrite hlast
    split_ifs with hkey
    · have hprov : (snaps i).prov = P := by
        refine Provenance.keyBytes_injective (hsha ?_ (Or.inl rfl) hkey)
        exact Or.inr (Or.inr ⟨i, t, ht, Or.inl rfl⟩)
      have hread : getBlocks c.shared.plane.entry (hashes (snaps i).blocks) = .ok none ∨
          getBlocks c.shared.plane.entry (hashes (snaps i).blocks) = .ok (some (snaps i).blocks) :=
        getBlocks_hashes hsha (fun p b hp => Or.inr (Or.inl ⟨p, hp⟩))
          fun b hb => Or.inr (Or.inr ⟨i, t, ht, Or.inr hb⟩)
      rcases hread with hread | hread <;> rw [hread]
      · exact ⟨_, rfl, Or.inr ⟨rfl, rfl⟩⟩
      · exact ⟨_, rfl, Or.inl ⟨rfl, i, rfl, (h.manifestOk turn_lsn).turn i hlast, hprov, rfl⟩⟩
    · exact ⟨_, rfl, Or.inr ⟨rfl, rfl⟩⟩

/-- One block, which is in the store already. -/
def oneBlock : Snapshot :=
  ⟨"s/T0", ⟨"m", "t", "bfloat16", 16, 1, 1, 8, "", "", ""⟩, [[7]]⟩

/-- A store that holds that block. -/
def oneBlockCas : FileSys := (FileSys.empty.openTrunc (BlockCAS.path (sha256_hex [7]))).write 0 0 [7]

theorem oneBlockCas_read_self : oneBlockCas.read (BlockCAS.path (sha256_hex [7])) = some [7] := by
  simp [oneBlockCas, FileSys.read, FileSys.openInode, FileSys.empty, FileSys.overwrite, FileSys.openTrunc]

theorem oneBlockCas_read {p : FsPath} {b : List UInt8} (h : oneBlockCas.read p = some b) :
    p = BlockCAS.path (sha256_hex [7]) ∧ b = [7] := by
  by_cases hp : p = BlockCAS.path (sha256_hex [7])
  · subst hp
    rw [oneBlockCas_read_self] at h
    exact ⟨rfl, (Option.some.inj h).symm⟩
  · have hnone : oneBlockCas.read p = none := by
      simp [oneBlockCas, FileSys.read, FileSys.openTrunc_dir_of_ne _ hp, FileSys.empty]
    rw [hnone] at h
    cases h

/-- The run in which the adversary puts the block there and the snapshot only writes its manifest: the block is
    restored. -/
theorem restore_sound_oneBlock :
    ∃ (c₀ c : Config Unit Stmt KvState Exn Json) (ls : List (Label Unit FileSys Stmt)) (r : RestoreResult),
      Run (fun _ => oneBlock) c₀ ls c ∧ restore c.shared "s/T0" oneBlock.prov = .ok r ∧ r.status = .RESTORED ∧
        r.blocks = [[7]] ∧ lastWrite "s/T0" ls = some () := by
  let S := system fun _ : Unit => oneBlock
  let h := sha256_hex [7]
  let found : Label Unit FileSys Stmt := .next () (.file (.pathExists (BlockCAS.path h)))
  let put : Label Unit FileSys Stmt := .next () (.putManifest "s/T0" oneBlock.manifest.dumps)
  let c₀ : Config Unit Stmt KvState Exn Json := ⟨⟨FileSys.empty, fun _ => none⟩, fun _ => .fresh⟩
  have hfound : oneBlockCas.pathExists (BlockCAS.path h) = true := by
    simp [oneBlockCas, FileSys.pathExists, h]
  obtain ⟨c₁, h₁, hs₁, hp₁⟩ : ∃ c₁, S.step c₀ (.env oneBlockCas) = some c₁ ∧
      c₁.shared = ⟨oneBlockCas, fun _ => none⟩ ∧ c₁.procs () = .fresh := ⟨_, rfl, rfl, rfl⟩
  obtain ⟨c₂, h₂, hs₂, hp₂⟩ : ∃ c₂, S.step c₁ (.spawn ()) = some c₂ ∧ c₂.shared = c₁.shared ∧
      c₂.procs () = .running oneBlock.run := by
    refine ⟨⟨c₁.shared, Function.update c₁.procs () (.running oneBlock.run)⟩, ?_, rfl, ?_⟩
    · simp only [System.step, hp₁]
      rfl
    · rfl
  obtain ⟨c₃, h₃, hs₃, hp₃⟩ : ∃ c₃, S.step c₂ found = some c₃ ∧ c₃.shared = c₂.shared ∧
      c₃.procs () = .running (putManifest "s/T0" oneBlock.manifest.dumps >>= fun _ =>
        pure oneBlock.manifest) := by
    refine ⟨_, System.step_next hp₂ (b := true) (s := c₂.shared) ?_, rfl, ?_⟩
    · show some (c₂.shared.cas.pathExists (BlockCAS.path h), c₂.shared) = _
      rw [hs₂, hs₁, hfound]
    · rfl
  obtain ⟨c₄, h₄, hcas, hrow⟩ : ∃ c₄, S.step c₃ put = some c₄ ∧ c₄.shared.cas = oneBlockCas ∧
      c₄.shared.kv_manifest "s/T0" = some oneBlock.manifest.dumps := by
    refine ⟨_, System.step_next hp₃ rfl, ?_, ?_⟩
    · show c₃.shared.cas = _
      rw [hs₃, hs₂, hs₁]
    · show c₃.shared.kv_manifest.upsert "s/T0" (fun _ => oneBlock.manifest.dumps) "s/T0" = _
      exact Table.upsert_self ..
  have hrun : Run (fun _ => oneBlock) c₀ [.env oneBlockCas, .spawn (), found, put] c₄ :=
    ⟨⟨fun _ => rfl, fun _ => rfl⟩, (((Lts.Exec.single h₁).trans (.single h₂)).trans (.single h₃)).trans
      (.single h₄)⟩
  -- two inputs are hashed: the provenance record and the block
  have hinputs : Hashed (fun _ : Unit => oneBlock) [.env oneBlockCas, .spawn (), found, put] c₄
      oneBlock.prov ⊆ {oneBlock.prov.keyBytes, [7]} := by
    intro b hb
    rcases hb with hb | ⟨p, hp⟩ | ⟨i, t, -, hb | hb⟩
    · exact Or.inl hb
    · rw [hcas] at hp
      exact Or.inr (oneBlockCas_read hp).2
    · exact Or.inl hb
    · exact Or.inr (List.mem_singleton.mp hb)
  have hne : sha256_hex oneBlock.prov.keyBytes ≠ sha256_hex [7] := by decide +kernel
  obtain ⟨r, hr, hsound⟩ := restore_sound hrun "s/T0" oneBlock.prov
    (Set.InjOn.mono hinputs (Set.injOn_pair.mpr fun heq => absurd heq hne))
  -- the block is there under its name, so that it does not fail closed
  have hread : c₄.shared.cas.read (BlockCAS.path (sha256_hex [7])) = some [7] := by
    rw [hcas]
    exact oneBlockCas_read_self
  have hrestored : restore c₄.shared "s/T0" oneBlock.prov = .ok ⟨.RESTORED, .ok, [[7]]⟩ := by
    have hblocks : getBlocks c₄.shared.plane.entry (hashes oneBlock.blocks) = .ok (some [[7]]) :=
      getBlocks_found [] hread rfl
    rw [restore_of_manifest oneBlock.prov hrow, if_pos rfl, hblocks]
    rfl
  obtain rfl : _ = r := Except.ok.inj (hrestored.symm.trans hr)
  rcases hsound with ⟨hstatus, i, hlast, -, -, hblocks⟩ | ⟨hstatus, -⟩
  · exact ⟨c₀, c₄, _, _, hrun, hr, hstatus, hblocks, hlast⟩
  · cases hstatus

end AgentTx.Kv
