import AgentTx.Kv.RoundTrip

/-!
# `Kv.Publish` — when blocks are published whole

`put` writes a block to a temporary file and renames it. All the writers of a block share one temporary
name, so that a writer may truncate, or go on writing into, the file that another one is about to publish
or has published, and the second to rename finds nothing. `put_atomic` is what holds in the runs in which
nobody opens a temporary file that a live process has opened and not renamed yet: the history variable
`filling` says which these are, and the proof keeps each process the sole owner of the file it fills.

Layout of the proof:
* **Files being filled** — each process and the temporary file that it has open. `Leaves` says what the others may do:
  nothing to that file.
* **The invariant** — `Owned`: what is filled is a temporary file, by one process, and what has the name of a block is
  that block.
* **The programs** — `Partial` counts the bytes written; `fill_triple` is an induction on the bytes, `rename_triple`
  the publication.

Main results: `put_atomic`, under the condition `Alone` on every open, and `not_put_atomic` without it.
-/

namespace AgentTx.Kv

variable {ι : Type}

/-- Processes that store blocks, each its own list, one after the other. -/
def putters (contents : ι → List (List UInt8)) : System ι Empty Stmt KvState Exn Unit where
  main i := putAll (contents i)
  abort _ s := s
  env _ _ := none
  kills _ := false

/-- Every file under a block's name is that block. -/
def Whole (fs : FileSys) : Prop :=
  ∀ h content, (∀ q, BlockCAS.path h ≠ BlockCAS.tmp q) → fs.read (BlockCAS.path h) = some content →
    sha256_hex content = h

/-- A block store in which nothing is wrong; it may hold temporary files of processes that died. -/
def Sound (s : KvState) : Prop := s.cas.NoLinks ∧ Whole s.cas

/-! ## The files being filled

This is history, since the tables and files do not say who has a file open. -/

variable [DecidableEq ι]

/-- What a statement changes: a process opens a file, renames it, or dies. -/
def opens : Label ι Empty Stmt → (ι → Option FsPath) → ι → Option FsPath
  | .next i (.file (.openTrunc p)), g => Function.update g i (some p)
  | .next i (.file (.replace _ _)), g => Function.update g i none
  | .die i, g => Function.update g i none
  | _, g => g

/-- The file that each live process has opened and not renamed, after the statements `ls`. -/
def filling (ls : List (Label ι Empty Stmt)) : ι → Option FsPath := history opens (fun _ => none) ls

omit [DecidableEq ι] in
/-- Nobody opens a file that another process is filling. -/
def Alone (i : ι) : Stmt → (ι → Option FsPath) → Prop
  | .file (.openTrunc p), g => ∀ j, j ≠ i → g j ≠ some p
  | _, _ => True

/-! ## The invariant

A process knows that the file it fills is its own, and has so far what it wrote. -/

/-- The store, and who fills which file. -/
abbrev Filling (ι : Type) := KvState × (ι → Option FsPath)

/-- What is published is right, and what is filled is a temporary file, by one process. -/
structure Owned (s : Filling ι) : Prop where
  no_links : s.1.cas.NoLinks
  whole : Whole s.1.cas
  temp : ∀ i p, s.2 i = some p → ∃ q, p = BlockCAS.tmp q
  apart : ∀ i j p, s.2 i = some p → s.2 j = some p → i = j

/-- What a process lets the others do: the file it fills stays as it is. -/
def Leaves (j : ι) (s s' : Filling ι) : Prop :=
  s'.2 j = s.2 j ∧ ∀ p, s.2 j = some p → s'.1.cas.dir p = s.1.cas.dir p ∧
    ∀ n, s.1.cas.dir p = some n → s'.1.cas.data n = s.1.cas.data n

omit [DecidableEq ι] in
theorem Leaves.refl (j : ι) (s : Filling ι) : Leaves j s s := ⟨rfl, fun _ _ => ⟨rfl, fun _ _ => rfl⟩⟩

def publishing : RelyGuarantee ι Stmt (Filling ι) where
  Inv := Owned
  Rely := Leaves
  Guar i _ s s' := ∀ j, j ≠ i → Leaves j s s'
  Ok i t s := Alone i t s.2

/-! ## What each step preserves

A step inside the file of its own, the end of a process, and the rename. -/

/-- A process changes its own temporary file. -/
theorem Owned.own {s : KvState} {g : ι → Option FsPath} (h : Owned (s, g)) {i : ι} {p q : FsPath} {fs : FileSys}
    (hp : p = BlockCAS.tmp q) (hothers : ∀ j, j ≠ i → g j ≠ some p) (honly : s.cas.OnlyAt p fs) :
    (∀ j, j ≠ i → Leaves j (s, g) ({ s with cas := fs }, Function.update g i (some p))) ∧
      Owned ({ s with cas := fs }, Function.update g i (some p)) := by
  refine ⟨?_, honly.no_links, ?_, ?_, ?_⟩
  · -- the others own other paths
    intro j hj
    refine ⟨Function.update_of_ne hj .., ?_⟩
    intro r hr
    have hrp : r ≠ p := by
      rintro rfl
      exact hothers j hj hr
    exact honly.elsewhere r hrp
  · intro h' content hfinal hread
    have hne : BlockCAS.path h' ≠ p := hp ▸ hfinal q
    exact h.whole h' content hfinal ((honly.read hne).symm.trans hread)
  · intro j r hr
    have hr' : Function.update g i (some p) j = some r := hr
    by_cases hj : j = i
    · subst hj
      rw [Function.update_self] at hr'
      exact ⟨q, (Option.some.inj hr').symm.trans hp⟩
    · rw [Function.update_of_ne hj] at hr'
      exact h.temp j r hr'
  · -- two owners of one temporary file: not this process and another one
    intro j k r hjr hkr
    have hjr' : Function.update g i (some p) j = some r := hjr
    have hkr' : Function.update g i (some p) k = some r := hkr
    by_cases hj : j = i <;> by_cases hk : k = i
    · rw [hj, hk]
    · subst hj
      rw [Function.update_self] at hjr'
      rw [Function.update_of_ne hk, ← hjr'] at hkr'
      exact absurd hkr' (hothers k hk)
    · subst hk
      rw [Function.update_self] at hkr'
      rw [Function.update_of_ne hj, ← hkr'] at hjr'
      exact absurd hjr' (hothers j hj)
    · rw [Function.update_of_ne hj] at hjr'
      rw [Function.update_of_ne hk] at hkr'
      exact h.apart j k r hjr' hkr'

/-- A process stops filling. -/
theorem Owned.drop {s : KvState} {g : ι → Option FsPath} (h : Owned (s, g)) (i : ι) :
    Owned (s, Function.update g i none) := by
  have hold : ∀ j p, Function.update g i none j = some p → g j = some p := by
    intro j p hp
    by_cases hj : j = i
    · subst hj
      rw [Function.update_self] at hp
      cases hp
    · rwa [Function.update_of_ne hj] at hp
  exact ⟨h.no_links, h.whole, fun j p hp => h.temp j p (hold j p hp), fun j k p hj hk =>
    h.apart j k p (hold j p hj) (hold k p hk)⟩

/-- **A process publishes** the file that it has filled with a block, under the block's name. -/
theorem Owned.publish {s : KvState} {g : ι → Option FsPath} (h : Owned (s, g)) {i : ι} {content : List UInt8}
    {fs : FileSys} (hfilling : g i = some (BlockCAS.tmp (final content)))
    (hread : s.cas.read (BlockCAS.tmp (final content)) = some content)
    (hr : s.cas.replace (BlockCAS.tmp (final content)) (final content) = some fs) :
    (∀ j, j ≠ i → Leaves j (s, g) ({ s with cas := fs }, Function.update g i none)) ∧
      Owned ({ s with cas := fs }, Function.update g i none) := by
  obtain ⟨n, -, hdir, hdata, -⟩ := FileSys.replace_eq_some hr
  refine ⟨?_, Owned.drop (s := { s with cas := fs }) (g := g) ⟨h.no_links.replace hr, ?_, h.temp, h.apart⟩ i⟩
  · intro j hj
    refine ⟨Function.update_of_ne hj .., ?_⟩
    intro r hjr
    have hrtmp : r ≠ BlockCAS.tmp (final content) := by
      rintro rfl
      exact hj (h.apart j i _ hjr hfilling)
    have hrfinal : r ≠ final content := by
      rintro rfl
      obtain ⟨q, hq⟩ := h.temp j _ hjr
      exact final_ne_tmp content q hq
    refine ⟨?_, fun m _ => congrFun hdata m⟩
    show fs.dir r = s.cas.dir r
    rw [hdir, Function.update_of_ne hrfinal, Function.update_of_ne hrtmp]
  · intro h' content' hfinal hread'
    have hread'' : fs.read (BlockCAS.path h') = some content' := hread'
    by_cases hp : BlockCAS.path h' = final content
    · rw [hp, FileSys.read_replace_self hr, hread] at hread''
      have hname : h' = sha256_hex content := congrArg FsPath.name hp
      rw [hname, Option.some.inj hread'']
    · rw [FileSys.read_replace_of_ne hr (hfinal _) hp] at hread''
      exact h.whole h' content' hfinal hread''

/-! ## The programs

`put` with the history beside it, in the order of its statements. -/

section

variable {i : ι} {content : List UInt8}

/-- The statements of process `i`, with who fills what. -/
def noted {α : Type} (i : ι) (p : KvProg α) : Prog Stmt (Filling ι) Exn α := p.noting fun t => opens (.next i t)

/-- The process fills no file. -/
def Idle (i : ι) (s : Filling ι) : Prop := s.2 i = none

/-- The temporary file of the block has its first `k` bytes, in inode `n`, and is the process's own. -/
def Partial (i : ι) (content : List UInt8) (n k : Nat) (s : Filling ι) : Prop :=
  s.2 i = some (BlockCAS.tmp (final content)) ∧ s.1.cas.dir (BlockCAS.tmp (final content)) = some n ∧
    s.1.cas.data n = content.take k

omit [DecidableEq ι]

theorem Idle.stable : (publishing (ι := ι)).Stable i (Idle i) := by
  intro s s' _ _ hleaves h
  exact hleaves.1.trans h

theorem Partial.stable (n k : Nat) : (publishing (ι := ι)).Stable i (Partial i content n k) := by
  rintro s s' - - ⟨hsame, hfile⟩ ⟨hg, hdir, hdata⟩
  obtain ⟨hdir', hdata'⟩ := hfile _ hg
  exact ⟨hsame.trans hg, hdir'.trans hdir, (hdata' n hdir).trans hdata⟩

theorem Partial.read {n : Nat} {s : Filling ι} (h : Partial i content n content.length s) :
    s.1.cas.read (BlockCAS.tmp (final content)) = some content := by
  obtain ⟨-, hdir, hdata⟩ := h
  unfold FileSys.read
  rw [hdir, Option.map_some, hdata, List.take_length]

/-- A call on the file that the process is filling. -/
theorem Partial.call [DecidableEq ι] {n k : Nat} {s : Filling ι} {fs : FileSys} (h : Partial i content n k s)
    (hs : Owned s) (honly : s.1.cas.OnlyAt (BlockCAS.tmp (final content)) fs) :
    (∀ j, j ≠ i → Leaves j s ({ s.1 with cas := fs }, s.2)) ∧ Owned ({ s.1 with cas := fs }, s.2) := by
  have hown := Owned.own (s := s.1) (g := s.2) hs rfl (fun j hj hgj => hj (hs.apart j i _ hgj h.1)) honly
  rw [← h.1, Function.update_eq_self] at hown
  exact hown

/-- The block is written to the temporary file, which nobody else fills. -/
theorem fill_triple [DecidableEq ι] :
    (publishing (ι := ι)).Triple i (Idle i) (noted i (Prog.writeFile (BlockCAS.tmp (final content)) content))
      (fun _ s => ∃ n, Partial i content n content.length s) fun _ _ => False := by
  unfold noted Prog.writeFile
  rw [Prog.noting_bind]
  refine RelyGuarantee.Triple.bind (Q := fun n => Partial i content n 0) ?_ fun n => ?_
  · refine RelyGuarantee.Triple.step Idle.stable fun s n s' hs hidle hok hact => ?_
    cases hact
    have hothers : ∀ j, j ≠ i → s.2 j ≠ some (BlockCAS.tmp (final content)) := hok
    have hopen := FileSys.onlyAt_openTrunc hs.no_links (BlockCAS.tmp (final content))
    obtain ⟨hleaves, hinv⟩ := Owned.own (s := s.1) (g := s.2) hs rfl hothers hopen
    refine ⟨hleaves, hinv, ?_, ?_, ?_⟩
    · exact Function.update_self ..
    · exact FileSys.openTrunc_dir_self ..
    · rw [List.take_zero]
      exact FileSys.openTrunc_data_self ..
  · rw [Prog.noting_bind, Prog.noting_writeBytes fun _ _ _ => rfl]
    refine RelyGuarantee.Triple.bind (Q := fun _ => Partial i content n content.length) ?_ fun _ => ?_
    · refine RelyGuarantee.Triple.writeBytes (F := Partial i content n) (Partial.stable n) ?_
      intro k b s hb hs hk _
      obtain ⟨hleaves, hinv⟩ := hk.call hs (FileSys.onlyAt_write hs.no_links hk.2.1 k [b])
      refine ⟨hleaves, hinv, hk.1, hk.2.1, ?_⟩
      show (s.1.cas.write n k [b]).data n = _
      rw [FileSys.write_data_self, hk.2.2, FileSys.overwrite_take hb]
    · rw [Prog.noting_fileCall fun _ => rfl]
      refine RelyGuarantee.Triple.modify (Partial.stable n _) fun s hs hk _ => ?_
      obtain ⟨hleaves, hinv⟩ := hk.call hs (FileSys.onlyAt_fsync hs.no_links n)
      exact ⟨hleaves, hinv, n, hk⟩

/-- The file is renamed: it is there, and it is the block. -/
theorem rename_triple [DecidableEq ι] {n : Nat} {e : Exn} :
    (publishing (ι := ι)).Triple i (Partial i content n content.length)
      (noted i (Prog.replace e (BlockCAS.tmp (final content)) (final content))) (fun _ => Idle i)
      fun _ _ => False := by
  unfold noted Prog.replace
  rw [Prog.noting_bind, Prog.noting_step]
  refine RelyGuarantee.Triple.bind (Q := fun ok s => ok = true ∧ Idle i s) ?_ fun ok => ?_
  · refine RelyGuarantee.Triple.step (Partial.stable n _) fun s ok s' hs hk _ hact => ?_
    cases hr : s.1.cas.replace (BlockCAS.tmp (final content)) (final content) with
    | none =>
      have hmissing := FileSys.replace_eq_none.mp hr
      rw [hk.2.1] at hmissing
      cases hmissing
    | some fs =>
      have hr' : (HasFiles.files Stmt s.1).replace (BlockCAS.tmp (final content)) (final content) = some fs := hr
      simp only [hr', Option.map_some] at hact
      cases hact
      obtain ⟨hleaves, hinv⟩ := Owned.publish (s := s.1) (g := s.2) hs hk.1 hk.read hr
      refine ⟨hleaves, hinv, rfl, ?_⟩
      exact Function.update_self ..
  · rintro s - ⟨rfl, hidle⟩
    exact hidle

/-- **A block is stored**, and the process fills nothing when it is done. -/
theorem put_publishes [DecidableEq ι] (content : List UInt8) :
    (publishing (ι := ι)).Triple i (Idle i) (noted i (BlockCAS.put content)) (fun _ => Idle i)
      fun _ _ => False := by
  unfold noted BlockCAS.put
  rw [Prog.noting_bind, Prog.noting_pathExists fun _ => rfl]
  refine RelyGuarantee.Triple.bind (Q := fun _ => Idle i) ?_ fun found => ?_
  · exact RelyGuarantee.Triple.read Idle.stable (fun s j _ => Leaves.refl j s) fun _ _ h _ => h
  · cases found with
    | true => exact fun _ _ h => h
    | false =>
      rw [if_neg Bool.false_ne_true, Prog.noting_bind]
      refine fill_triple.bind fun _ => ?_
      rintro s hs ⟨n, hk⟩
      rw [Prog.noting_bind]
      refine (rename_triple.bind fun _ => ?_) s hs hk
      exact fun _ _ h => h

theorem putAll_publishes [DecidableEq ι] : ∀ blocks : List (List UInt8),
    (publishing (ι := ι)).Triple i (Idle i) (noted i (putAll blocks)) (fun _ => Idle i) fun _ _ => False
  | [] => fun _ _ h => h
  | b :: bs => by
      unfold noted putAll
      rw [Prog.noting_bind]
      exact (put_publishes b).bind fun _ => putAll_publishes bs

end

/-- The obligations of the system that carries who fills what. -/
theorem verified_putters (contents : ι → List (List UInt8)) :
    RelyGuarantee.Verified ((putters contents).noting opens) publishing Idle where
  main i := (putAll_publishes (contents i)).conseq (fun _ _ h => h) (fun _ _ _ _ => trivial) fun _ _ _ h => h.elim
  pre_stable i := Idle.stable
  guar_rely i j t s s' hij _ _ h := h j (Ne.symm hij)
  abort i s hs := by
    refine ⟨Owned.drop (s := s.1) (g := s.2) hs i, ?_⟩
    intro j hij
    exact ⟨Function.update_of_ne (Ne.symm hij) .., fun p _ => ⟨rfl, fun _ _ => rfl⟩⟩
  env e := nomatch e

/-! ## What is published

For runs that meet the condition; below it, the two writers that do not. -/

/-- **Blocks are published whole, and no writer fails**, in the runs in which nobody opens the temporary
    file that another live process has opened and not renamed yet. -/
theorem put_atomic {contents : ι → List (List UInt8)} {c₀ c : Config ι Stmt KvState Exn Unit}
    {ls : List (Label ι Empty Stmt)} (h₀ : System.Start Sound c₀)
    (h : Lts.Exec (Lts.ofFun (putters contents).step) c₀ ls c)
    (halone : ∀ ms i t rest, ls = ms ++ .next i t :: rest → Alone i t (filling ms)) :
    Whole c.shared.cas ∧ ∀ i e, c.procs i ≠ .running (.raise e) := by
  have hreach : ((putters contents).noting opens).ReachableWhen (fun i t s => Alone i t s.2)
      (fun s => Sound s.1 ∧ s.2 = fun _ => none) (System.withHistory opens (filling ls) c) :=
    System.reachableWhen_noting (fun _ _ => rfl) h₀ h halone
  have hinit : ∀ s : Filling ι, Sound s.1 ∧ s.2 = (fun _ => none) → Owned s ∧ ∀ i, Idle i s := by
    rintro ⟨s, g⟩ ⟨⟨hlinks, hwhole⟩, rfl⟩
    exact ⟨⟨hlinks, hwhole, nofun, nofun⟩, fun _ => rfl⟩
  have hverified := verified_putters contents
  refine ⟨(hverified.invWhen hinit hreach).whole, ?_⟩
  intro i e he
  have hends : RelyGuarantee.Ends ((putters contents).noting opens) publishing Idle (fun _ _ => True)
      fun _ _ => False := fun j => (putAll_publishes (contents j)).post fun _ _ _ _ => trivial
  exact hverified.raised hends hinit hreach ((Proc.noting_eq_raise _).mpr he)

/-- An empty block store. -/
def noBlocks : KvState := ⟨FileSys.empty, fun _ => none⟩

theorem sound_noBlocks : Sound noBlocks := ⟨nofun, nofun⟩

/-- Two processes that store one block. -/
def both : System Bool Empty Stmt KvState Exn Unit := putters fun _ => [[7]]

/-- Process `i` finds that the block is not there. -/
def look (i : Bool) : Label Bool Empty Stmt := .next i (.file (.pathExists (final [7])))

/-- It publishes the block, from inode `n`. -/
def publish (i : Bool) (n : Nat) : List (Label Bool Empty Stmt) :=
  [.next i (.file (.openTrunc (BlockCAS.tmp (final [7])))), .next i (.file (.write n 0)), .next i (.file (.fsync n)),
    .next i (.file (.replace (BlockCAS.tmp (final [7])) (final [7])))]

/-- Two processes store the same block: both look for it first, and so both write it, the one after the other. -/
theorem put_atomic_two :
    ∃ (c₀ c : Config Bool Stmt KvState Exn Unit) (ls : List (Label Bool Empty Stmt)),
      System.Start Sound c₀ ∧ Lts.Exec (Lts.ofFun both.step) c₀ ls c ∧
        (∀ i, .next i (.file (.openTrunc (BlockCAS.tmp (final [7])))) ∈ ls) ∧
        c.shared.cas.read (final [7]) = some [7] ∧
        Whole c.shared.cas ∧ ∀ i e, c.procs i ≠ .running (.raise e) := by
  let c₀ : Config Bool Stmt KvState Exn Unit := ⟨noBlocks, fun _ => .fresh⟩
  let ls : List (Label Bool Empty Stmt) :=
    [.spawn true, .spawn false, look true, look false] ++ publish true 0 ++ publish false 1
  have hread : (Lts.runAll both.step c₀ ls).map (·.shared.cas.read (final [7])) = some (some [7]) := by
    decide +kernel
  obtain ⟨c, hc, hread⟩ := Option.map_eq_some_iff.mp hread
  have h₀ : System.Start Sound c₀ := ⟨sound_noBlocks, fun _ => rfl⟩
  have h : Lts.Exec (Lts.ofFun both.step) c₀ ls c := Lts.runAll_exec hc
  -- when the second one opens the file, the first has renamed its own
  have halone : HistoryOk opens Alone (fun _ => none) ls := by
    simp [ls, look, publish, HistoryOk, opens, Alone]
  refine ⟨c₀, c, ls, h₀, h, ?_, hread, put_atomic h₀ h halone.of_split⟩
  intro i
  cases i <;> simp [ls, publish]

/-- **Two writers of one block are not atomic.** The second truncates the file that the first has written,
    and the first publishes it empty. -/
theorem not_put_atomic :
    ¬ ∀ (contents : Bool → List (List UInt8)) (c : Config Bool Stmt KvState Exn Unit),
      (putters contents).Reachable Sound c →
        Whole c.shared.cas ∧ ∀ i e, c.procs i ≠ .running (.raise e) := by
  intro hall
  let contents : Bool → List (List UInt8) := fun _ => [[7]]
  let tmp := BlockCAS.tmp (final [7])
  let publish : KvProg Unit := (Prog.replace .FileNotFoundError tmp (final [7]) >>= fun _ =>
    pure (sha256_hex [7])) >>= fun _ => putAll []
  have hstart : (putters contents).Reachable Sound ⟨noBlocks, fun _ => .fresh⟩ :=
    Lts.Reachable.start ⟨sound_noBlocks, fun _ => rfl⟩
  -- both find that the block is not there
  have hlook : Prog.Steps (fun _ _ => True) (putAll [[7]]) noBlocks
      (Prog.writeFile tmp [7] >>= fun _ => publish) noBlocks := Prog.Steps.head trivial rfl .refl
  have h₁ := (hstart.spawn (i := true) rfl).steps (Function.update_self ..) hlook
  have h₂ := (h₁.spawn (i := false) rfl).steps (Function.update_self ..) hlook
  -- the first writes its file
  obtain ⟨fs₁, hwrite, -⟩ := Prog.run_writeFile (τ := Stmt) (ε := Exn) tmp [7] noBlocks
  have h₃ := h₂.steps (i := true) rfl (Prog.Steps.part hwrite)
  -- the second truncates it
  have hopen : Prog.Steps (fun _ _ => True) (Prog.writeFile tmp [7] >>= fun _ => publish)
      ({ noBlocks with cas := fs₁ } : KvState)
      (Prog.writeBytes (fs₁.openInode tmp) 0 [7] >>= fun _ =>
        Prog.fileCall (.fsync (fs₁.openInode tmp)) (fun fs => fs.fsync (fs₁.openInode tmp)) >>= fun _ => publish)
      { noBlocks with cas := fs₁.openTrunc tmp } := Prog.Steps.head trivial rfl .refl
  have h₄ := h₃.steps (i := false) rfl hopen
  -- the first publishes it
  obtain ⟨fs₂, hr⟩ : ∃ fs₂, (fs₁.openTrunc tmp).replace tmp (final [7]) = some fs₂ := by
    cases hr : (fs₁.openTrunc tmp).replace tmp (final [7]) with
    | some fs₂ => exact ⟨fs₂, rfl⟩
    | none =>
      have hmissing := FileSys.replace_eq_none.mp hr
      rw [FileSys.openTrunc_dir_self] at hmissing
      cases hmissing
  have hreplace := Prog.run_replace (τ := Stmt) (s := ({ noBlocks with cas := fs₁.openTrunc tmp } : KvState)) hr
    Exn.FileNotFoundError
  have h₅ := h₄.steps (i := true) rfl ((Prog.Steps.part hreplace).bind fun _ => putAll [])
  have hread : fs₂.read (final [7]) = some [] := by
    rw [FileSys.read_replace_self hr, FileSys.read, FileSys.openTrunc_dir_self, Option.map_some,
      FileSys.openTrunc_data_self]
  have hhash := (hall contents _ h₅).1 (sha256_hex [7]) [] (fun q => final_ne_tmp [7] q) hread
  have hne : sha256_hex [] ≠ sha256_hex [7] := by decide +kernel
  exact hne hhash

end AgentTx.Kv
