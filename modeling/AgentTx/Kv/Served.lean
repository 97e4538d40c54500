import AgentTx.Kv.CasTier

/-!
# `Kv.Served` — which KV the gated tier serves

The gate compares a worker with the sidecar, never with the writer of the block. What it protects is
therefore the sidecar's agreement with every block on disk, and three kinds of step break it: a worker
that failed closed still stores; two workers that both found no sidecar publish one over the other; and
they write through one temporary name, so that one may publish, or go on writing into, the record of the
other. `Ok` leaves out exactly these, and `served_provenance` is what holds without them.

Layout of the proof:
* **The condition** — `Ok`, on the steps of a run. Three kinds of statement can break the gate: a store, a write to a
  sidecar that is published already, and the publication.
* **The invariant** — every block on disk was stored under the fingerprint that the sidecar records.
* **The programs** — a worker that does not fail closed has its own fingerprint in the sidecar
  (`checkProvenance_triple`), and the sidecar does not change under it; so a hit is from a worker of its provenance.
* **A worker alone** — the condition is met by workers that open the directory one after the other.

Main results: `served_provenance`, and `not_served_provenance` for two provenances.
-/

namespace AgentTx.CasTier

open AgentTxCASTier

section

variable {π κ : Type} (json : JsonModule π) (files : BlockFiles κ)

/-- A file with this content is the whole record of a worker with fingerprint `fp`. -/
def Records (content : List UInt8) (fp : String) : Prop := matchesFingerprint json content fp = .ok true

/-- The sidecar records `fp`. -/
def Recorded (fs : FileSys) (fp : String) : Prop :=
  ∃ content, fs.read (sidecar files.root_dir) = some content ∧ Records json content fp

variable {json files}

/-- A document has one fingerprint. -/
theorem Records.unique {content : List UInt8} {F G : String} (h : Records json content F)
    (h' : Records json content G) : F = G := by
  unfold Records matchesFingerprint at h h'
  cases hload : json.load content with
  | error e =>
    rw [hload] at h
    cases h
  | ok stored =>
    cases hget : dictGet stored "fingerprint" with
    | error e =>
      simp [hload, hget, bind, Except.bind] at h
    | ok v =>
      simp only [hload, hget, bind, Except.bind, pure, Except.pure, Except.ok.injEq] at h h'
      unfold Kv.isText at h h'
      cases v with
      -- only a text is equal to a fingerprint
      | str s =>
        simp only [decide_eq_true_eq] at h h'
        exact h.symm.trans h'
      | null => cases h
      | bool b => cases h
      | int n => cases h
      | arr items => cases h
      | obj members => cases h

theorem Recorded.unique {fs : FileSys} {F G : String} (h : Recorded json files fs F)
    (h' : Recorded json files fs G) : F = G := by
  obtain ⟨content, hread, hF⟩ := h
  obtain ⟨content', hread', hG⟩ := h'
  have heq : content = content' := Option.some.inj (hread.symm.trans hread')
  subst heq
  exact hF.unique hG

/-- What the sidecar records depends on its content only. -/
theorem Recorded.of_read {fs fs' : FileSys} {F : String} (h : Recorded json files fs F)
    (hread : fs'.read (sidecar files.root_dir) = fs.read (sidecar files.root_dir)) :
    Recorded json files fs' F := by
  obtain ⟨content, hc, hF⟩ := h
  exact ⟨content, hread.trans hc, hF⟩

end

/-! ## The condition on the steps

The condition is on the state before a step and the statement alone, not on what comes of it. -/

section

variable {π κ ι : Type} (json : JsonModule π) (files : BlockFiles κ) (workers : ι → Worker π κ)

/-- Worker `i` has fingerprint `F`. -/
def Fingerprint (i : ι) (F : String) : Prop := provenance_fingerprint json (workers i).provenance = .ok F

/-- The statement `t` of worker `i` is none of those that break the gate. -/
def Ok (i : ι) (t : Stmt κ) (s : CasState) : Prop :=
  match t with
  -- the sidecar records the fingerprint of the worker that stores
  | .store _ => ∀ F, Fingerprint json workers i F → Recorded json files s.files F
  -- a published sidecar is written to only with the bytes that are there already
  | .file (.write n off) => s.files.dir (sidecar files.root_dir) = some n → ∀ F, Fingerprint json workers i F →
      ∀ b, (json.dump F ((workers i).provenance.getD json.emptyDict)).1[off]? = some b →
        (s.files.data n)[off]? = some b
  -- what is published is the whole record of the worker, in place of none or of an equal one
  | .file (.replace _ _) => ∀ F, Fingerprint json workers i F →
      (∀ content, s.files.read (tmp files.root_dir) = some content → Records json content F) ∧
      ((s.files.read (sidecar files.root_dir)).isSome → Recorded json files s.files F)
  | _ => True

/-- The sidecar is whole, agrees with every block on disk, and every hit was right. -/
structure Inv (s : CasState) : Prop where
  no_links : s.files.NoLinks
  whole : (s.files.read (sidecar files.root_dir)).isSome → ∃ F, Recorded json files s.files F
  blocks : ∀ key, s.files.pathExists (files.file key) → ∃ F, s.writer (files.file key) = some F ∧
    Recorded json files s.files F
  served : ∀ hit ∈ s.served, hit.writer = some hit.fp

/-- What is recorded stays recorded. -/
def Keeps (s s' : CasState) : Prop := ∀ F, Recorded json files s.files F → Recorded json files s'.files F

def gate : RelyGuarantee ι (Stmt κ) CasState where
  Inv := Inv json files
  Rely _ := Keeps json files
  Guar _ _ := Keeps json files
  Ok := Ok json files workers

variable {json files workers}

/-! ## What each step preserves

The steps on the files, each as far as the condition lets it go. -/

/-- Steps that leave the sidecar and the names of the blocks alone. -/
theorem Inv.setFiles {s : CasState} (h : Inv json files s) (fs : FileSys) (hlinks : fs.NoLinks)
    (hread : fs.read (sidecar files.root_dir) = s.files.read (sidecar files.root_dir))
    (hdir : ∀ key, fs.dir (files.file key) = s.files.dir (files.file key)) :
    Inv json files { s with files := fs } ∧ Keeps json files s { s with files := fs } := by
  refine ⟨⟨hlinks, fun hsome => ?_, fun key hkey => ?_, h.served⟩, fun F hF => hF.of_read hread⟩
  · obtain ⟨F, hF⟩ := h.whole (hread ▸ hsome)
    exact ⟨F, hF.of_read hread⟩
  · have hkey' : s.files.pathExists (files.file key) := by
      unfold FileSys.pathExists
      rw [← hdir key]
      exact hkey
    obtain ⟨F, hw, hF⟩ := h.blocks key hkey'
    exact ⟨F, hw, hF.of_read hread⟩

/-- The temporary file is opened: nobody's block, and not the sidecar. -/
theorem Inv.openTrunc {s : CasState} (h : Inv json files s) :
    Inv json files { s with files := s.files.openTrunc (tmp files.root_dir) } ∧
      Keeps json files s { s with files := s.files.openTrunc (tmp files.root_dir) } := by
  have honly := FileSys.onlyAt_openTrunc h.no_links (tmp files.root_dir)
  exact h.setFiles _ honly.no_links (honly.read (sidecar_ne_tmp _)) fun key =>
    (honly.elsewhere _ (files.file_ne key).2).1

/-- A byte goes out: to the sidecar only if it is there already. -/
theorem Inv.write {s : CasState} (h : Inv json files s) {n off : Nat} {b : UInt8}
    (hb : s.files.dir (sidecar files.root_dir) = some n → (s.files.data n)[off]? = some b) :
    Inv json files { s with files := s.files.write n off [b] } ∧
      Keeps json files s { s with files := s.files.write n off [b] } := by
  refine h.setFiles _ h.no_links ?_ fun _ => rfl
  unfold FileSys.read
  rw [FileSys.write_dir]
  cases hdir : s.files.dir (sidecar files.root_dir) with
  | none => rfl
  | some m =>
    by_cases hm : m = n
    · subst hm
      simp only [Option.map_some, FileSys.write_data_self, FileSys.overwrite_same (hb hdir)]
    · simp only [Option.map_some, FileSys.write_data_of_ne _ hm]

/-- The record is published. -/
theorem Inv.replace {s : CasState} (h : Inv json files s) {fs : FileSys} {F : String}
    (hr : s.files.replace (tmp files.root_dir) (sidecar files.root_dir) = some fs)
    (hown : ∀ content, s.files.read (tmp files.root_dir) = some content → Records json content F)
    (hover : (s.files.read (sidecar files.root_dir)).isSome → Recorded json files s.files F) :
    Inv json files { s with files := fs } ∧ Keeps json files s { s with files := fs } ∧
      Recorded json files fs F := by
  obtain ⟨n, hn, hdir, -⟩ := FileSys.replace_eq_some hr
  -- the sidecar now has what the temporary file had
  have hF : Recorded json files fs F := by
    have hread : s.files.read (tmp files.root_dir) = some (s.files.data n) := by
      unfold FileSys.read
      rw [hn]
      rfl
    exact ⟨_, (FileSys.read_replace_self hr).trans hread, hown _ hread⟩
  -- a sidecar that is replaced recorded the same fingerprint
  have hkeeps : Keeps json files s { s with files := fs } := by
    intro G hG
    have hsome : (s.files.read (sidecar files.root_dir)).isSome := by
      obtain ⟨content, hread, -⟩ := hG
      rw [hread]
      rfl
    rw [hG.unique (hover hsome)]
    exact hF
  refine ⟨⟨h.no_links.replace hr, fun _ => ⟨F, hF⟩, fun key hkey => ?_, h.served⟩, hkeeps, hF⟩
  have hkey' : s.files.pathExists (files.file key) := by
    have hsame : fs.dir (files.file key) = s.files.dir (files.file key) := by
      rw [hdir, Function.update_of_ne (files.file_ne key).1, Function.update_of_ne (files.file_ne key).2]
    unfold FileSys.pathExists
    rw [← hsame]
    exact hkey
  obtain ⟨G, hw, hG⟩ := h.blocks key hkey'
  exact ⟨G, hw, hkeeps G hG⟩

/-- A block is stored by a worker that the sidecar records. -/
theorem Inv.put {s : CasState} (h : Inv json files s) {F : String} (hF : Recorded json files s.files F)
    (key : κ) (block : List UInt8) :
    Inv json files (s.put (files.file key) F block) ∧ Keeps json files s (s.put (files.file key) F block) := by
  have honly := CasState.onlyAt_put h.no_links (files.file key) F block
  have hread := honly.read (files.file_ne key).1.symm
  refine ⟨⟨honly.no_links, fun _ => ⟨F, hF.of_read hread⟩, fun key' hkey' => ?_, h.served⟩,
    fun G hG => hG.of_read hread⟩
  by_cases heq : files.file key' = files.file key
  · rw [heq]
    exact ⟨F, CasState.put_writer_self .., hF.of_read hread⟩
  · have hold : s.files.pathExists (files.file key') := by
      unfold FileSys.pathExists at hkey' ⊢
      rw [CasState.put_dir_of_ne s heq] at hkey'
      exact hkey'
    obtain ⟨G, hw, hG⟩ := h.blocks key' hold
    exact ⟨G, (CasState.put_writer_of_ne s heq ..).trans hw, hG.of_read hread⟩

/-- A hit of a worker that the sidecar records. -/
theorem Inv.hit {s : CasState} (h : Inv json files s) {F : String} (hF : Recorded json files s.files F)
    {key : κ} (hkey : s.files.pathExists (files.file key)) :
    Inv json files (s.hit (files.file key) F) := by
  refine ⟨h.no_links, h.whole, h.blocks, fun hit hmem => ?_⟩
  rcases List.mem_cons.mp hmem with rfl | hmem
  · obtain ⟨G, hw, hG⟩ := h.blocks key hkey
    rw [hF.unique hG]
    exact hw
  · exact h.served hit hmem

/-! ## The programs

The constructor of a tier, then its calls in any order. -/

/-- Nothing is known. -/
theorem stable_true {i : ι} : (gate json files workers).Stable i fun _ => True := fun _ _ _ _ _ _ => trivial

theorem stable_recorded {i : ι} {p : Prop} {F : String} :
    (gate json files workers).Stable i fun s => p → Recorded json files s.files F :=
  fun _ _ _ _ hkeeps h hp => hkeeps F (h hp)

/-- The record goes out byte by byte to the temporary file, wherever that is by now. -/
theorem writeRecord_triple {i : ι} {F : String} (hi : Fingerprint json workers i F) :
    (gate json files workers).Triple i (fun _ => True)
      (writeRecord json files F (workers i).provenance) (fun _ _ => True) fun _ _ => True := by
  unfold writeRecord
  refine RelyGuarantee.Triple.bind (Q := fun _ _ => True) ?_ fun n => ?_
  · refine RelyGuarantee.Triple.step stable_true fun s n s' hs _ _ hact => ?_
    cases hact
    obtain ⟨hinv, hkeeps⟩ := hs.openTrunc
    exact ⟨hkeeps, hinv, trivial⟩
  · refine RelyGuarantee.Triple.bind (Q := fun _ _ => True) ?_ fun _ => ?_
    · refine RelyGuarantee.Triple.writeBytes (F := fun _ _ => True) (fun _ => stable_true) ?_
      intro k b s hb hs _ hok
      obtain ⟨hinv, hkeeps⟩ := hs.write fun hn => hok hn F hi b hb
      exact ⟨hkeeps, hinv, trivial⟩
    · split
      · exact RelyGuarantee.Triple.raise fun _ _ _ => trivial
      · refine RelyGuarantee.Triple.modify stable_true fun s hs _ _ => ?_
        obtain ⟨hinv, hkeeps⟩ := hs.setFiles (s.files.fsync n) hs.no_links rfl fun _ => rfl
        exact ⟨hkeeps, hinv, trivial⟩

/-- **The gate.** A worker that does not fail closed has its fingerprint in the sidecar. -/
theorem checkProvenance_triple {i : ι} {F : String} (hi : Fingerprint json workers i F) :
    (gate json files workers).Triple i (fun _ => True)
      (checkProvenance json files F (workers i).provenance)
      (fun r s => r.1 = false → Recorded json files s.files F) fun _ _ => True := by
  unfold checkProvenance
  refine RelyGuarantee.Triple.bind (Q := fun _ _ => True) ?_ fun found => ?_
  · exact RelyGuarantee.Triple.read stable_true (fun _ _ h => h) fun _ _ _ _ => trivial
  · cases found with
    | true =>
      -- what matches was the sidecar's content when it was read
      refine RelyGuarantee.Triple.bind (Q := fun found s => ∀ content, found = some content →
        Records json content F → Recorded json files s.files F) ?_ fun found => ?_
      · refine RelyGuarantee.Triple.read stable_true (fun _ _ h => h) fun s _ _ _ => ?_
        exact fun content hread hF => ⟨content, hread, hF⟩
      · refine RelyGuarantee.Triple.bind (Q := fun content s => Records json content F →
          Recorded json files s.files F) ?_ fun content => ?_
        · exact RelyGuarantee.Triple.ofOption (fun content hfound s _ h => h content hfound)
            fun _ _ _ _ => trivial
        · refine RelyGuarantee.Triple.bind (Q := fun same s => same = true → Recorded json files s.files F)
            ?_ fun same => ?_
          · refine RelyGuarantee.Triple.ofExcept (fun same hsame s _ h hs => h ?_) fun _ _ _ _ _ => trivial
            rw [Records, hsame, hs]
          · cases same with
            | true => exact fun _ _ h _ => h rfl
            | false => exact fun _ _ _ h => absurd h (by simp)
    | false =>
      refine (writeRecord_triple hi).bind fun _ => ?_
      refine RelyGuarantee.Triple.bind (Q := fun _ s => Recorded json files s.files F) ?_ fun _ => ?_
      · refine RelyGuarantee.Triple.replace stable_true (fun s hs _ _ => ⟨fun _ h => h, trivial⟩) ?_
        intro s fs hs _ hok hr
        obtain ⟨hown, hover⟩ := hok F hi
        obtain ⟨hinv, hkeeps, hF⟩ := hs.replace hr hown hover
        exact ⟨hkeeps, hinv, hF⟩
      · exact fun _ _ h _ => h

/-- What a worker knows of its tier: the fingerprint, and that the sidecar records it if the gate is
    open. -/
def Opened (workers : ι → Worker π κ) (json : JsonModule π) (files : BlockFiles κ) (i : ι)
    (tier : AgentTxCASTier) (s : CasState) : Prop :=
  Fingerprint json workers i tier.fp ∧ (tier.fail_closed = false → Recorded json files s.files tier.fp)

theorem stable_opened {i : ι} (tier : AgentTxCASTier) :
    (gate json files workers).Stable i (Opened workers json files i tier) :=
  (RelyGuarantee.Stable.const _).and stable_recorded

theorem init_triple (i : ι) :
    (gate json files workers).Triple i (fun _ => True) (init json files (workers i).provenance)
      (Opened workers json files i) fun _ _ => True := by
  unfold init
  refine RelyGuarantee.Triple.bind (Q := fun F _ => Fingerprint json workers i F) ?_ fun F => ?_
  · exact RelyGuarantee.Triple.ofExcept (fun F hF _ _ _ => hF) fun _ _ _ _ _ => trivial
  · intro s hs hi
    have hcheck : (gate json files workers).Triple i (fun _ => True)
        ((checkProvenance json files F (workers i).provenance).tryCatch fun e =>
          pure (true, .provenance_error e))
        (fun r s => r.1 = false → Recorded json files s.files F) fun _ _ => True :=
      (checkProvenance_triple hi).tryCatch fun e _ _ _ h => absurd h (by simp)
    refine (?_ : (gate json files workers).Triple i (fun _ => True) _ (Opened workers json files i)
      fun _ _ => True) s hs trivial
    refine hcheck.bind fun r => ?_
    exact fun _ _ h => ⟨hi, h⟩

/-- **A call.** -/
theorem call_triple {i : ι} (tier : AgentTxCASTier) (call : Call κ) :
    (gate json files workers).Triple i (Opened workers json files i tier) (call.run files tier)
      (fun _ => Opened workers json files i tier) fun _ _ => True := by
  cases call with
  | store key block =>
    refine RelyGuarantee.Triple.modify (stable_opened tier) fun s hs hopen hok => ?_
    have hF : Recorded json files s.files tier.fp := hok tier.fp hopen.1
    obtain ⟨hinv, hkeeps⟩ := hs.put hF key block
    exact ⟨hkeeps, hinv, hopen.1, fun h => hkeeps _ (hopen.2 h)⟩
  | lookup key =>
    refine RelyGuarantee.Triple.bind (Q := fun _ => Opened workers json files i tier) ?_ fun _ _ _ h => h
    unfold lookup
    split
    · exact fun _ _ h => h
    · rename_i hgate
      refine RelyGuarantee.Triple.step (stable_opened tier) fun s hit s' hs hopen _ hact => ?_
      have hF : Recorded json files s.files tier.fp := hopen.2 (by simpa using hgate)
      split_ifs at hact with hkey
      · cases hact
        exact ⟨fun _ h => h, hs.hit hF hkey, hopen⟩
      · cases hact
        exact ⟨fun _ h => h, hs, hopen⟩

theorem run_triple (i : ι) :
    (gate json files workers).Triple i (fun _ => True) ((workers i).run json files) (fun _ _ => True)
      fun _ _ => True := by
  unfold Worker.run
  refine (init_triple i).bind fun tier => ?_
  refine RelyGuarantee.Triple.post (Q := fun _ => Opened workers json files i tier) ?_ fun _ _ _ _ => trivial
  exact RelyGuarantee.Triple.forEach (P := fun _ => Opened workers json files i tier)
    (fun call _ => call_triple tier call) _

theorem verified : RelyGuarantee.Verified (system json files workers) (gate json files workers)
    fun _ _ => True where
  main := run_triple
  pre_stable _ _ _ _ _ _ _ := trivial
  guar_rely _ _ _ _ _ _ _ _ h := h
  abort _ _ hs := ⟨hs, fun _ _ _ h => h⟩
  env _ _ _ _ h := nomatch h

/-- An unused directory. -/
theorem Fresh.inv {s : CasState} (h : Fresh files s) : Inv json files s := by
  obtain ⟨hlinks, hsidecar, hblocks, hserved⟩ := h
  refine ⟨hlinks, fun hsome => ?_, fun key hkey => ?_, fun hit hmem => ?_⟩
  · simp [FileSys.read, hsidecar] at hsome
  · simp [FileSys.pathExists, hblocks key] at hkey
  · rw [hserved] at hmem
    cases hmem

end

/-! ## A worker alone

That the condition is no empty one: a worker that opens a fresh directory meets it at each step. -/

section

variable {π κ : Type} {json : JsonModule π} {files : BlockFiles κ}

/-- The temporary file holds the record. -/
theorem run_writeRecord (files : BlockFiles κ) {prov : Option π} {F : String} {bytes : List UInt8} (s : CasState)
    (hdump : json.dump F (prov.getD json.emptyDict) = (bytes, none)) :
    ∃ fs, (writeRecord json files F prov).run s = some (.ok (), { s with files := fs }) ∧
      fs.dir = (s.files.openTrunc (tmp files.root_dir)).dir ∧
      fs.read (tmp files.root_dir) = some bytes := by
  obtain ⟨fs, hwrite, hdir, -, -, hdata⟩ := Prog.run_writeBytes (τ := Stmt κ) (ε := Exn)
    (s.files.openInode (tmp files.root_dir)) bytes 0 s (s.files.openTrunc (tmp files.root_dir))
  have hempty : (s.files.openTrunc (tmp files.root_dir)).data (s.files.openInode (tmp files.root_dir)) = [] :=
    FileSys.openTrunc_data_self ..
  have hcontent : fs.data (s.files.openInode (tmp files.root_dir)) = bytes := by
    simpa [hempty] using hdata
  refine ⟨fs.fsync (s.files.openInode (tmp files.root_dir)), ?_, hdir, ?_⟩
  · have hwrite' : (Prog.writeBytes (s.files.openInode (tmp files.root_dir)) 0 bytes : CasProg κ Unit).run
        { s with files := s.files.openTrunc (tmp files.root_dir) } = some (.ok (), { s with files := fs }) :=
      hwrite
    simp [writeRecord, hdump, HasFiles.files, HasFiles.setFiles, hwrite']
  · simp [FileSys.read, hdir, hcontent]

/-- **A worker alone** in a directory without a sidecar publishes its own record. -/
theorem run_init_first (files : BlockFiles κ) {prov : Option π} {F : String} {bytes : List UInt8} {s : CasState}
    (hF : provenance_fingerprint json prov = .ok F)
    (hdump : json.dump F (prov.getD json.emptyDict) = (bytes, none))
    (hnone : s.files.dir (sidecar files.root_dir) = none) :
    ∃ fs, (init json files prov).run s = some (.ok ⟨F, false, .ok⟩, { s with files := fs }) ∧
      fs.read (sidecar files.root_dir) = some bytes := by
  obtain ⟨fs, hwrite, hdir, hread⟩ := run_writeRecord files s hdump
  -- the temporary file was just written, so the rename succeeds
  obtain ⟨fs', hr⟩ : ∃ fs', fs.replace (tmp files.root_dir) (sidecar files.root_dir) = some fs' := by
    cases hr : fs.replace (tmp files.root_dir) (sidecar files.root_dir) with
    | some fs' => exact ⟨fs', rfl⟩
    | none =>
      have hmissing := FileSys.replace_eq_none.mp hr
      rw [hdir, FileSys.openTrunc_dir_self] at hmissing
      cases hmissing
  refine ⟨fs', ?_, (FileSys.read_replace_self hr).trans hread⟩
  have hexists : s.files.pathExists (sidecar files.root_dir) = false := by
    simp [FileSys.pathExists, hnone]
  have hreplace : (Prog.replace .FileNotFoundError (tmp files.root_dir) (sidecar files.root_dir) :
      CasProg κ Unit).run { s with files := fs } = some (.ok (), { s with files := fs' }) :=
    Prog.run_replace (s := { s with files := fs }) hr _
  have hcheck : (checkProvenance json files F prov).run s =
      some (.ok (false, .ok), { s with files := fs' }) := by
    simp [checkProvenance, HasFiles.files, hexists, hwrite, hreplace]
  simp [init, hF, hcheck]

/-- A worker that finds the record of another provenance fails closed. -/
theorem run_init_mismatch (files : BlockFiles κ) {prov : Option π} {F G : String} {content : List UInt8}
    {s : CasState}
    (hG : provenance_fingerprint json prov = .ok G)
    (hread : s.files.read (sidecar files.root_dir) = some content) (hF : Records json content F) (hne : F ≠ G) :
    ∃ reason, (init json files prov).run s = some (.ok ⟨G, true, reason⟩, s) := by
  have hexists : s.files.pathExists (sidecar files.root_dir) = true := by
    simpa [FileSys.pathExists, FileSys.read] using congrArg Option.isSome hread
  cases hm : matchesFingerprint json content G with
  | error e =>
    refine ⟨.provenance_error e, ?_⟩
    simp [init, hG, checkProvenance, HasFiles.files, hexists, hread, hm]
  | ok same =>
    cases same with
    | true => exact absurd (hF.unique hm) hne
    | false =>
      refine ⟨.provenance_mismatch, ?_⟩
      simp [init, hG, checkProvenance, HasFiles.files, hexists, hread, hm]

variable {ι : Type} {workers : ι → Worker π κ}

variable (files)

/-- Nobody has published yet: there is no sidecar that the bytes could go to. -/
theorem guarded_writeRecord {i : ι} {F : String} {bytes : List UInt8} {s : CasState}
    (hdump : json.dump F ((workers i).provenance.getD json.emptyDict) = (bytes, none))
    (hnone : s.files.dir (sidecar files.root_dir) = none) :
    (writeRecord json files F (workers i).provenance).Guarded (Ok json files workers i) s := by
  have hopen : (s.files.openTrunc (tmp files.root_dir)).dir (sidecar files.root_dir) = none :=
    (FileSys.openTrunc_dir_of_ne s.files (sidecar_ne_tmp _)).trans hnone
  have hout : (Prog.writeBytes (s.files.openInode (tmp files.root_dir)) 0 bytes : CasProg κ Unit).Guarded
      (Ok json files workers i) { s with files := s.files.openTrunc (tmp files.root_dir) } := by
    refine Prog.guarded_writeBytes (s := s) _ _ _ fun k fs' hdir' hsidecar => ?_
    have hsome : fs'.dir (sidecar files.root_dir) = some _ := hsidecar
    rw [hdir', hopen] at hsome
    cases hsome
  unfold writeRecord
  rw [hdump]
  simp only [Prog.guarded_bind, Prog.openTrunc, Prog.guarded_step, Prog.guarded_fileCall]
  refine ⟨trivial, fun n s' hs' => ?_⟩
  cases hs'
  exact ⟨hout, fun _ _ _ => trivial⟩

/-- The worker's own record, published where there is none. -/
theorem guarded_publish {i : ι} {F : String} {bytes : List UInt8} {s : CasState}
    (hF : Fingerprint json workers i F) (hread : s.files.read (tmp files.root_dir) = some bytes)
    (hrecord : Records json bytes F) (hnone : s.files.dir (sidecar files.root_dir) = none) :
    (Prog.replace .FileNotFoundError (tmp files.root_dir) (sidecar files.root_dir) : CasProg κ Unit).Guarded
      (Ok json files workers i) s := by
  unfold Prog.replace
  simp only [Prog.guarded_bind, Prog.guarded_step]
  refine ⟨fun G hG => ⟨fun content hcontent => ?_, fun hsome => ?_⟩, fun ok s' _ => ?_⟩
  · have heq : content = bytes := Option.some.inj (hcontent.symm.trans hread)
    have hFG : F = G := Except.ok.inj (hF.symm.trans hG)
    rw [heq, ← hFG]
    exact hrecord
  · simp [FileSys.read, hnone] at hsome
  · cases ok <;> simp

/-- **Alone, the gate is not broken.** -/
theorem guarded_init_first {i : ι} {F : String} {bytes : List UInt8} {s : CasState}
    (hF : Fingerprint json workers i F)
    (hdump : json.dump F ((workers i).provenance.getD json.emptyDict) = (bytes, none))
    (hrecord : Records json bytes F) (hnone : s.files.dir (sidecar files.root_dir) = none) :
    (init json files (workers i).provenance).Guarded (Ok json files workers i) s := by
  obtain ⟨fs, hwrite, hdir, hread⟩ := run_writeRecord files s hdump
  have hexists : s.files.pathExists (sidecar files.root_dir) = false := by
    simp [FileSys.pathExists, hnone]
  have hcheck : (checkProvenance json files F (workers i).provenance).Guarded (Ok json files workers i) s := by
    unfold checkProvenance
    simp only [Prog.guarded_bind, Prog.pathExists, Prog.guarded_read]
    refine ⟨trivial, fun found s' hs' => ?_⟩
    -- the sidecar is not there: it is written and renamed into place
    have hstart : found = false ∧ s' = s := by
      simpa [HasFiles.files, hexists, eq_comm] using hs'
    obtain ⟨rfl, rfl⟩ := hstart
    simp only [Bool.false_eq_true, if_false, Prog.guarded_bind]
    refine ⟨guarded_writeRecord files hdump hnone, fun _ s' hs' => ?_⟩
    rw [hwrite] at hs'
    cases hs'
    have hnone' : fs.dir (sidecar files.root_dir) = none := by
      rw [hdir, FileSys.openTrunc_dir_of_ne _ (sidecar_ne_tmp _)]
      exact hnone
    exact ⟨guarded_publish files hF hread hrecord hnone', fun _ _ _ => by simp⟩
  unfold init
  simp only [Prog.guarded_bind, Prog.guarded_tryCatch, Prog.guarded_ofExcept, Prog.run_ofExcept]
  refine ⟨trivial, fun F' s' hs' => ?_⟩
  have hstart : F' = F ∧ s' = s := by
    have hF' : provenance_fingerprint json (workers i).provenance = .ok F := hF
    simpa [hF', eq_comm] using hs'
  obtain ⟨rfl, rfl⟩ := hstart
  exact ⟨⟨hcheck, fun _ _ _ => by simp⟩, fun _ _ _ => by simp⟩

end

section

variable {κ : Type} (files : BlockFiles κ) {ok : Stmt κ → CasState → Prop}

/-- A worker stores a block. -/
theorem steps_store (tier : AgentTxCASTier) (key : κ) (block : List UInt8) (calls : List (Call κ)) {s : CasState}
    (hok : ok (.store key) s) :
    Prog.Steps ok (Prog.forEach (.store key block :: calls) (Call.run files tier)) s
      (Prog.forEach calls (Call.run files tier)) (s.put (files.file key) tier.fp block) :=
  Prog.Steps.head hok rfl .refl

/-- A worker whose gate is open looks up a block that is there. -/
theorem steps_lookup (fp : String) (key : κ) (calls : List (Call κ)) {s : CasState} (hok : ok (.lookup key) s)
    (hkey : s.files.pathExists (files.file key) = true) :
    Prog.Steps ok (Prog.forEach (.lookup key :: calls) (Call.run files ⟨fp, false, .ok⟩)) s
      (Prog.forEach calls (Call.run files ⟨fp, false, .ok⟩)) (s.hit (files.file key) fp) :=
  Prog.Steps.head hok (if_pos hkey) .refl

end

/-- The blocks of one model, in a directory of their own. -/
def modelFiles : BlockFiles String where
  root_dir := "kv"
  file key := ⟨"kv/model", key ++ ".bin"⟩
  file_ne key := by
    have hdir : ("kv/model" : String) ≠ "kv" := by decide
    exact ⟨fun h => hdir (congrArg FsPath.dir h), fun h => hdir (congrArg FsPath.dir h)⟩

/-- A provenance that only says which RoPE. -/
def rope (theta : String) : Json := .obj [(.str "rope", .str theta)]

def ropeFingerprint (theta : String) : String := Sha256.hexdigest (Sha256.encode (rope theta).dumps)

theorem provenance_fingerprint_rope (theta : String) :
    provenance_fingerprint pyJson (some (rope theta)) = .ok (ropeFingerprint theta) := by
  have hsorted : (rope theta).dumpsSorted = some (rope theta).dumps := rfl
  simp [provenance_fingerprint, pyJson, hsorted, bind, Except.bind, pure, Except.pure, ropeFingerprint]

/-- An empty directory. -/
def unused : CasState := ⟨FileSys.empty, fun _ => none, []⟩

theorem fresh_unused : Fresh modelFiles unused := ⟨nofun, rfl, fun _ => rfl, rfl⟩

/-- A worker with that RoPE. -/
def ropeWorker (theta : String) (calls : List (Call String)) : Worker Json String := ⟨some (rope theta), calls⟩

/-- The first one on the directory opens the gate, and leaves its record. -/
theorem steps_open_first {ι : Type} (workers : ι → Worker Json String) (i : ι) (theta : String)
    (calls : List (Call String)) (hi : workers i = ropeWorker theta calls) :
    ∃ fs, Recorded pyJson modelFiles fs (ropeFingerprint theta) ∧
      Prog.Steps (Ok pyJson modelFiles workers i) ((workers i).run pyJson modelFiles) unused
        (Prog.forEach calls (Call.run modelFiles ⟨ropeFingerprint theta, false, .ok⟩))
        { unused with files := fs } := by
  have hF : Fingerprint pyJson workers i (ropeFingerprint theta) := by
    rw [Fingerprint, hi]
    exact provenance_fingerprint_rope theta
  have hrecord := matchesFingerprint_dump (ropeFingerprint theta) ((workers i).provenance.getD pyJson.emptyDict)
  obtain ⟨fs, hinit, hread⟩ := run_init_first modelFiles (s := unused) hF rfl rfl
  have hopen := guarded_init_first modelFiles (s := unused) hF rfl hrecord rfl
  refine ⟨fs, ⟨_, hread, hrecord⟩, ?_⟩
  have hcalls : (workers i).calls = calls := by
    rw [hi]
    rfl
  unfold Worker.run
  rw [hcalls]
  exact Prog.Steps.of_run_bind hopen hinit

/-! ## Whom a hit comes from

For runs that meet the condition; below it, the run of two provenances that does not. -/

section

variable {π κ ι : Type} {json : JsonModule π} {files : BlockFiles κ} {workers : ι → Worker π κ}

variable [DecidableEq ι] [DecidableEq κ]

/-- **No KV is served across provenances** in a run whose steps all meet the condition: whoever gets a hit
    has the fingerprint of the worker that wrote the block. -/
theorem served_provenance {c : Config ι (Stmt κ) CasState Exn Unit}
    (h : (system json files workers).ReachableWhen (Ok json files workers) (Fresh files) c) :
    ∀ hit ∈ c.shared.served, hit.writer = some hit.fp :=
  (verified.invWhen (fun _ hs => ⟨hs.inv, fun _ => trivial⟩) h).served

end

/-- A worker that stores a block and looks it up gets its own. -/
theorem served_provenance_own :
    ∃ c : Config Unit (Stmt String) CasState Exn Unit,
      (system pyJson modelFiles fun _ => ropeWorker "theta=5e5" [.store "k" [7], .lookup "k"]).ReachableWhen
          (Ok pyJson modelFiles fun _ => ropeWorker "theta=5e5" [.store "k" [7], .lookup "k"])
          (Fresh modelFiles) c ∧
        c.shared.served = [⟨ropeFingerprint "theta=5e5", some (ropeFingerprint "theta=5e5")⟩] ∧
        ∀ hit ∈ c.shared.served, hit.writer = some hit.fp := by
  let workers : Unit → Worker Json String := fun _ => ropeWorker "theta=5e5" [.store "k" [7], .lookup "k"]
  let F := ropeFingerprint "theta=5e5"
  obtain ⟨fs, hrecorded, hopen⟩ := steps_open_first workers () "theta=5e5" _ rfl
  have hstart : (system pyJson modelFiles workers).ReachableWhen (Ok pyJson modelFiles workers)
      (Fresh modelFiles) ⟨unused, fun _ => .fresh⟩ := Lts.Reachable.start ⟨fresh_unused, fun _ => rfl⟩
  have hown : ∀ G, Fingerprint pyJson workers () G → Recorded pyJson modelFiles fs G := by
    intro G hG
    have heq : F = G := Except.ok.inj ((provenance_fingerprint_rope "theta=5e5").symm.trans hG)
    rw [← heq]
    exact hrecorded
  let s₁ : CasState := { unused with files := fs }
  let s₂ := s₁.put (modelFiles.file "k") F [7]
  have hthere : s₂.files.pathExists (modelFiles.file "k") = true := by
    simp [FileSys.pathExists, s₂]
  have hsteps : Prog.Steps (Ok pyJson modelFiles workers ()) ((system pyJson modelFiles workers).main ()) unused
      (Prog.forEach [] (Call.run modelFiles ⟨F, false, .ok⟩)) (s₂.hit (modelFiles.file "k") F) := by
    have hok : Ok pyJson modelFiles workers () (.store "k") s₁ := hown
    have hok' : Ok pyJson modelFiles workers () (.lookup "k") s₂ := trivial
    have hstore := steps_store modelFiles ⟨F, false, .ok⟩ "k" [7] [.lookup "k"] hok
    have hlookup := steps_lookup modelFiles F "k" [] hok' hthere
    exact hopen.trans (hstore.trans hlookup)
  have hreach := (hstart.spawn (i := ()) rfl).steps rfl hsteps
  refine ⟨_, hreach, ?_, served_provenance hreach⟩
  simp [CasState.hit, s₂, s₁, unused, F]

/-- **It fails with two provenances.** A worker that fails closed still stores, and the one whose record is
    in the sidecar gets its block. -/
theorem not_served_provenance :
    ¬ ∀ (workers : Bool → Worker Json String) (c : Config Bool (Stmt String) CasState Exn Unit),
      (system pyJson modelFiles workers).Reachable (Fresh modelFiles) c →
        ∀ hit ∈ c.shared.served, hit.writer = some hit.fp := by
  intro hall
  let workers : Bool → Worker Json String := fun i =>
    if i then ropeWorker "theta=5e5" [.lookup "k"] else ropeWorker "theta=1e6" [.store "k" [7]]
  let F := ropeFingerprint "theta=5e5"
  let G := ropeFingerprint "theta=1e6"
  have hne : F ≠ G := by
    have hdigest : ropeFingerprint "theta=5e5" ≠ ropeFingerprint "theta=1e6" := by decide +kernel
    exact hdigest
  obtain ⟨fs, ⟨content, hread, hrecord⟩, hopen⟩ := steps_open_first workers true "theta=5e5" _ rfl
  let s₁ : CasState := { unused with files := fs }
  let s₂ := s₁.put (modelFiles.file "k") G [7]
  -- the other worker finds the record
  obtain ⟨reason, hclosed⟩ := run_init_mismatch modelFiles (s := s₁)
    (provenance_fingerprint_rope "theta=1e6") hread hrecord hne
  have hstore : ((system pyJson modelFiles workers).main false).run s₁ = some (.ok (), s₂) := by
    have hrun : ((ropeWorker "theta=1e6" [.store "k" [7]]).run pyJson modelFiles).run s₁ = some (.ok (), s₂) := by
      simp [Worker.run, ropeWorker, hclosed, Call.run, store, s₂, G]
    exact hrun
  have hthere : s₂.files.pathExists (modelFiles.file "k") = true := by
    simp [FileSys.pathExists, s₂]
  have hstart : (system pyJson modelFiles workers).Reachable (Fresh modelFiles) ⟨unused, fun _ => .fresh⟩ :=
    Lts.Reachable.start ⟨fresh_unused, fun _ => rfl⟩
  have hopened : Prog.Steps (fun _ _ => True) ((system pyJson modelFiles workers).main true) unused
      (Prog.forEach [.lookup "k"] (Call.run modelFiles ⟨F, false, .ok⟩)) s₁ := hopen.mono fun _ _ _ => trivial
  have hlookup : Prog.Steps (fun _ _ => True) (Prog.forEach [.lookup "k"] (Call.run modelFiles ⟨F, false, .ok⟩)) s₂
      (Prog.forEach [] (Call.run modelFiles ⟨F, false, .ok⟩)) (s₂.hit (modelFiles.file "k") F) :=
    steps_lookup modelFiles F "k" [] trivial hthere
  have h₁ := (hstart.spawn (i := true) rfl).steps (Function.update_self ..) hopened
  have h₂ := (h₁.spawn (i := false) rfl).run (Function.update_self ..) hstore
  have h₃ := h₂.steps (i := true) rfl hlookup
  have hwriter : (some G : Option String) = some F :=
    hall workers _ h₃ ⟨F, some G⟩ (by simp [CasState.hit, s₂])
  exact hne (Option.some.inj hwriter).symm

end AgentTx.CasTier
