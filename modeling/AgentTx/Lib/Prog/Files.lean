import AgentTx.Lib.FileSys
import AgentTx.Lib.Prog.Ghost
import AgentTx.Lib.Prog.Run

/-!
# `Lib.Prog.Files` — proof rules for programs that use files

A write of many bytes and a rename, as triples of any rely-guarantee proof, and what they do when nobody
else runs.

Layout:
* **Triples** — `writeBytes` by induction on the bytes that are left, with an assertion for each number of bytes
  written; `writeFile` and `replace` after it.
* **Files that nobody reads** — `FilesKeep`: when any call on files keeps what is known, a program of such calls does.
* **With a history** — the same programs in a system that carries a history, for conditions on a run that depend on
  who has a file open.
* **Alone** — what is in the files after a program that nobody interferes with: `run_writeFile`, `run_publish`.
-/

/-- Setting the files of a state changes nothing else of it. -/
class LawfulFiles (τ σ : Type) [HasFiles τ σ] : Prop where
  files_set : ∀ (s : σ) fs, HasFiles.files τ (HasFiles.setFiles τ s fs) = fs
  set_set : ∀ (s : σ) fs fs', HasFiles.setFiles τ (HasFiles.setFiles τ s fs) fs' = HasFiles.setFiles τ s fs'

namespace RelyGuarantee.Triple

variable {ι τ σ ε : Type} [HasFiles τ σ] {R : RelyGuarantee ι τ σ} {i : ι} {E : ε → σ → Prop}

open HasFiles

/-- **The bytes of a file go out one by one.** `F k` is what is known when `k` of them are written. -/
theorem writeBytes {F : Nat → σ → Prop} {n : Nat} {bytes : List UInt8} (hF : ∀ k, R.Stable i (F k))
    (h : ∀ k b s, bytes[k]? = some b → R.Inv s → F k s → R.Ok i (tag σ (.write n k)) s →
      let s' := setFiles τ s ((files τ s).write n k [b])
      R.Guar i (tag σ (.write n k)) s s' ∧ R.Inv s' ∧ F (k + 1) s') :
    R.Triple i (F 0) (Prog.writeBytes n 0 bytes) (fun _ => F bytes.length) E := by
  -- by induction on the bytes to come
  have hrest : ∀ (bs : List UInt8) (k : Nat), bytes.drop k = bs →
      R.Triple i (F k) (Prog.writeBytes n k bs) (fun _ => F (k + bs.length)) E := by
    intro bs
    induction bs with
    | nil => exact fun _ _ _ _ hk => hk
    | cons b bs ih =>
      intro k hbs
      have hget : bytes[k]? = some b := by
        rw [← List.head?_drop, hbs]
        rfl
      have htail : bytes.drop (k + 1) = bs := by
        rw [← List.tail_drop, hbs]
        rfl
      have hlen : k + (b :: bs).length = k + 1 + bs.length := by
        rw [List.length_cons]
        omega
      rw [hlen]
      exact (modify (hF k) fun s hs hk hok => h k b s hget hs hk hok).bind fun _ => ih (k + 1) htail
  have hall := hrest bytes 0 rfl
  rw [Nat.zero_add] at hall
  exact hall

/-- **A file is written**, of which `P` says nothing. -/
theorem writeFile [LawfulFiles τ σ] {P : σ → Prop} {p : FsPath} {bytes : List UInt8} (hP : R.Stable i P)
    (hwriting : ∀ n bs, R.Stable i fun s => P s ∧ (files τ s).dir p = some n ∧ (files τ s).data n = bs)
    (hlinks : ∀ s, P s → (files τ s).NoLinks)
    (h : ∀ c s fs, R.Inv s → P s → (files τ s).OnlyAt p fs →
      R.Guar i (tag σ c) s (setFiles τ s fs) ∧ R.Inv (setFiles τ s fs) ∧ P (setFiles τ s fs)) :
    R.Triple i P (Prog.writeFile p bytes) (fun _ s => P s ∧ (files τ s).read p = some bytes) E := by
  let writing (n : Nat) (bs : List UInt8) (s : σ) : Prop :=
    P s ∧ (files τ s).dir p = some n ∧ (files τ s).data n = bs
  unfold Prog.writeFile
  refine bind (Q := fun n => writing n []) ?_ fun n => ?_
  · refine step hP fun s n s' hs hPs _ hact => ?_
    cases hact
    obtain ⟨hg, hi, hP'⟩ := h (.openTrunc p) s _ hs hPs (FileSys.onlyAt_openTrunc (hlinks s hPs) p)
    refine ⟨hg, hi, hP', ?_, ?_⟩
    · rw [LawfulFiles.files_set]
      exact FileSys.openTrunc_dir_self _ _
    · rw [LawfulFiles.files_set]
      exact FileSys.openTrunc_data_self _ _
  refine bind (Q := fun _ => writing n bytes) ?_ fun _ => ?_
  · have hbytes : R.Triple i (writing n (bytes.take 0)) (Prog.writeBytes n 0 bytes)
        (fun _ => writing n (bytes.take bytes.length)) E := by
      refine writeBytes (F := fun k => writing n (bytes.take k)) (fun k => hwriting n _) ?_
      rintro k b s hb hs ⟨hPs, hn, hdata⟩ -
      obtain ⟨hg, hi, hP'⟩ := h (.write n k) s _ hs hPs (FileSys.onlyAt_write (hlinks s hPs) hn k [b])
      refine ⟨hg, hi, hP', ?_, ?_⟩
      · rw [LawfulFiles.files_set]
        exact hn
      · rw [LawfulFiles.files_set, FileSys.write_data_self, hdata, FileSys.overwrite_take hb]
    rw [List.take_length] at hbytes
    exact hbytes
  · refine modify (hwriting n bytes) ?_
    rintro s hs ⟨hPs, hn, hdata⟩ -
    obtain ⟨hg, hi, hP'⟩ := h (.fsync n) s _ hs hPs (FileSys.onlyAt_fsync (hlinks s hPs) n)
    refine ⟨hg, hi, hP', ?_⟩
    rw [LawfulFiles.files_set, FileSys.read, FileSys.fsync_dir, hn, Option.map_some, FileSys.fsync_data, hdata]

/-- **A rename**, which raises when there is nothing to rename. -/
theorem replace {P Q : σ → Prop} {e : ε} {p q : FsPath} (hP : R.Stable i P)
    (hmissing : ∀ s, R.Inv s → P s → (files τ s).replace p q = none →
      R.Guar i (tag σ (.replace p q)) s s ∧ E e s)
    (h : ∀ s fs, R.Inv s → P s → R.Ok i (tag σ (.replace p q)) s → (files τ s).replace p q = some fs →
      R.Guar i (tag σ (.replace p q)) s (setFiles τ s fs) ∧ R.Inv (setFiles τ s fs) ∧ Q (setFiles τ s fs)) :
    R.Triple i P (Prog.replace e p q) (fun _ => Q) E := by
  unfold Prog.replace
  refine bind (Q := fun ok s => if ok then Q s else E e s) ?_ fun ok => ?_
  · refine step hP fun s ok s' hs hp hok hact => ?_
    cases hr : (files τ s).replace p q with
    | none =>
      rw [hr] at hact
      cases hact
      obtain ⟨hg, he⟩ := hmissing s hs hp hr
      exact ⟨hg, hs, he⟩
    | some fs =>
      rw [hr] at hact
      cases hact
      exact h s fs hs hp hok hr
  · cases ok with
    | true => exact fun _ _ hq => hq
    | false => exact fun _ _ he => he

end RelyGuarantee.Triple

namespace RelyGuarantee

/-! ## Programs in which any call on files will do -/

variable {ι τ σ ε : Type} [HasFiles τ σ]

open HasFiles

/-- Every call on files is allowed, and keeps `P`. -/
structure FilesKeep (R : RelyGuarantee ι τ σ) (i : ι) (P : σ → Prop) : Prop where
  stable : R.Stable i P
  same : ∀ c s, R.Inv s → P s → R.Guar i (tag σ c) s s
  call : ∀ (c : FileCall) s fs, R.Inv s → P s → c.Does (files τ s) fs →
    R.Guar i (tag σ c) s (setFiles τ s fs) ∧ R.Inv (setFiles τ s fs) ∧ P (setFiles τ s fs)

namespace FilesKeep

variable {R : RelyGuarantee ι τ σ} {i : ι} {P : σ → Prop} {E : ε → σ → Prop} (h : FilesKeep R i P)

include h

theorem fileCall {c : FileCall} {f : FileSys → FileSys} (hf : ∀ fs, c.Does fs (f fs)) :
    R.Triple i P (Prog.fileCall c f) (fun _ => P) E :=
  Triple.modify h.stable fun s hs hP _ => h.call c s _ hs hP (hf _)

theorem pathExists (p : FsPath) : R.Triple i P (Prog.pathExists p) (fun _ => P) E := by
  refine Triple.step h.stable fun s a s' hs hP _ hact => ?_
  cases hact
  exact ⟨h.same _ s hs hP, hs, hP⟩

theorem openTrunc (p : FsPath) : R.Triple i P (Prog.openTrunc p) (fun _ => P) E := by
  refine Triple.step h.stable fun s a s' hs hP _ hact => ?_
  cases hact
  exact h.call _ s _ hs hP rfl

theorem writeBytes (n : Nat) : ∀ (bytes : List UInt8) (off : Nat),
    R.Triple i P (Prog.writeBytes n off bytes) (fun _ => P) E
  | [], _ => fun _ _ hP => hP
  | b :: bs, off => by
      have hone : R.Triple i P (Prog.fileCall (.write n off) fun fs => fs.write n off [b]) (fun _ => P) E :=
        h.fileCall fun _ => ⟨[b], rfl⟩
      exact hone.bind fun _ => FilesKeep.writeBytes n bs (off + 1)

theorem writeFile (p : FsPath) (bytes : List UInt8) :
    R.Triple i P (Prog.writeFile p bytes) (fun _ => P) E := by
  refine (h.openTrunc p).bind fun n => (h.writeBytes n bytes 0).bind fun _ => ?_
  exact h.fileCall fun _ => rfl

theorem replace (hE : ∀ e s, E e s) (e : ε) (p q : FsPath) :
    R.Triple i P (Prog.replace e p q) (fun _ => P) E :=
  Triple.replace h.stable (fun s hs hP _ => ⟨h.same _ s hs hP, hE e s⟩)
    fun s fs hs hP _ hr => h.call _ s fs hs hP hr

end FilesKeep

end RelyGuarantee

/-! ## With a history -/

instance {τ σ γ : Type} [HasFiles τ σ] : HasFiles τ (σ × γ) where
  files s := HasFiles.files τ s.1
  setFiles s fs := (HasFiles.setFiles τ s.1 fs, s.2)
  tag := HasFiles.tag σ

namespace Prog

variable {τ σ γ ε : Type} [HasFiles τ σ] {note : τ → γ → γ}

/-! Calls that leave the history as it is are the same calls of the state that carries it. -/

theorem noting_fileCall {c : FileCall} (hc : ∀ g, note (HasFiles.tag σ c) g = g) (f : FileSys → FileSys) :
    (fileCall c f : Prog τ σ ε Unit).noting note = fileCall c f := by
  unfold fileCall modify
  rw [noting_step]
  simp only [hc, Option.map_some]
  rfl

theorem noting_pathExists {p : FsPath} (hp : ∀ g, note (HasFiles.tag σ (.pathExists p)) g = g) :
    (pathExists p : Prog τ σ ε Bool).noting note = pathExists p := by
  unfold pathExists read
  rw [noting_step]
  simp only [hp, Option.map_some]
  rfl

theorem noting_writeBytes (hw : ∀ n k g, note (HasFiles.tag σ (.write n k)) g = g) (n : Nat) :
    ∀ (bytes : List UInt8) (off : Nat),
      (writeBytes n off bytes : Prog τ σ ε Unit).noting note = writeBytes n off bytes
  | [], _ => rfl
  | b :: bs, off => by
      unfold writeBytes
      rw [noting_bind, noting_fileCall (hw n off)]
      congr 1
      funext _
      exact noting_writeBytes hw n bs (off + 1)

end Prog

namespace Prog

/-! ## Alone -/

variable {τ σ ε : Type} [HasFiles τ σ]

open HasFiles

@[simp] theorem run_fileCall (t : FileCall) (f : FileSys → FileSys) (s : σ) :
    (fileCall t f : Prog τ σ ε Unit).run s = some (.ok (), setFiles τ s (f (files τ s))) := rfl

@[simp] theorem guarded_fileCall {ok : τ → σ → Prop} (t : FileCall) (f : FileSys → FileSys) (s : σ) :
    (fileCall t f : Prog τ σ ε Unit).Guarded ok s ↔ ok (HasFiles.tag σ t) s := guarded_step ..

@[simp] theorem run_pathExists (p : FsPath) (s : σ) :
    (pathExists p : Prog τ σ ε Bool).run s = some (.ok ((files τ s).pathExists p), s) := rfl

@[simp] theorem run_openTrunc (p : FsPath) (s : σ) : (openTrunc p : Prog τ σ ε Nat).run s =
    some (.ok ((files τ s).openInode p), setFiles τ s ((files τ s).openTrunc p)) := rfl

theorem run_replace {p q : FsPath} {s : σ} {fs : FileSys} (h : (files τ s).replace p q = some fs) (e : ε) :
    (replace e p q : Prog τ σ ε Unit).run s = some (.ok (), setFiles τ s fs) := by
  simp [replace, h]

/-- Writing changes no entry and no other file, and at the end of the file it appends. -/
theorem run_writeBytes [LawfulFiles τ σ] (n : Nat) (bs : List UInt8) (off : Nat) (s : σ) (fs : FileSys) :
    ∃ fs', (writeBytes n off bs : Prog τ σ ε Unit).run (setFiles τ s fs) = some (.ok (), setFiles τ s fs') ∧
      fs'.dir = fs.dir ∧ fs'.durable = fs.durable ∧ (∀ m, m ≠ n → fs'.data m = fs.data m) ∧
      (off = (fs.data n).length → fs'.data n = fs.data n ++ bs) := by
  induction bs generalizing off fs with
  | nil => exact ⟨fs, rfl, rfl, rfl, fun _ _ => rfl, fun _ => (List.append_nil _).symm⟩
  | cons b bs ih =>
    obtain ⟨fs', hrun, hdir, hdurable, hothers, hdata⟩ := ih (off + 1) (fs.write n off [b])
    refine ⟨fs', ?_, hdir, hdurable, fun m hm => ?_, fun hoff => ?_⟩
    · simp only [writeBytes, run_bind, run_fileCall, Option.bind_some, andThen_ok, LawfulFiles.files_set,
        LawfulFiles.set_set]
      exact hrun
    · rw [hothers m hm, FileSys.write_data_of_ne fs hm]
    · subst hoff
      have hone : (fs.write n (fs.data n).length [b]).data n = fs.data n ++ [b] := by
        rw [FileSys.write_data_self, FileSys.overwrite_append]
      rw [hone] at hdata
      rw [hdata (by simp)]
      simp

/-- A file is written, and no other. -/
theorem run_writeFile [LawfulFiles τ σ] (p : FsPath) (bytes : List UInt8) (s : σ) :
    ∃ fs, (writeFile p bytes : Prog τ σ ε Unit).run s = some (.ok (), setFiles τ s fs) ∧
      fs.dir = ((files τ s).openTrunc p).dir ∧ fs.durable = (files τ s).durable ∧ fs.read p = some bytes ∧
      ((files τ s).NoLinks → (files τ s).OnlyAt p fs) := by
  let n := (files τ s).openInode p
  obtain ⟨fs, hwrite, hdir, hdurable, hothers, hdata⟩ := run_writeBytes (τ := τ) (ε := ε) n bytes 0 s
    ((files τ s).openTrunc p)
  have hempty : ((files τ s).openTrunc p).data n = [] := FileSys.openTrunc_data_self ..
  have hcontent : fs.data n = bytes := by
    simpa [hempty] using hdata
  have hn : fs.dir p = some n := by
    rw [hdir, FileSys.openTrunc_dir_self]
  refine ⟨fs.fsync n, ?_, hdir, hdurable, ?_, fun hlinks => ?_⟩
  · simp only [writeFile, run_bind, run_openTrunc, Option.bind_some, andThen_ok]
    rw [hwrite]
    simp only [Option.bind_some, andThen_ok, run_fileCall, LawfulFiles.files_set, LawfulFiles.set_set]
    rfl
  · simp [FileSys.read, hn, hcontent]
  · have hopen := FileSys.onlyAt_openTrunc hlinks p
    refine ⟨?_, fun q hq => ⟨?_, fun m hm => ?_⟩⟩
    · have hlinks' : fs.NoLinks := by
        unfold FileSys.NoLinks
        rw [hdir]
        exact hopen.no_links
      exact hlinks'
    · rw [FileSys.fsync_dir, hdir]
      exact (hopen.elsewhere q hq).1
    · rw [FileSys.fsync_data, hothers m (hlinks.ne_openInode hq hm)]
      exact (hopen.elsewhere q hq).2 m hm

/-- **A file is published**: it is written under a temporary name and renamed. -/
theorem run_publish [LawfulFiles τ σ] (e : ε) (tmp p : FsPath) (bytes : List UInt8) (s : σ) :
    ∃ fs n, (writeFile tmp bytes >>= fun _ => replace e tmp p : Prog τ σ ε Unit).run s =
        some (.ok (), setFiles τ s fs) ∧
      fs.dir = Function.update (Function.update (files τ s).dir tmp none) p (some n) ∧
      fs.durable = (files τ s).durable ∧ fs.read p = some bytes ∧
      ((files τ s).NoLinks → fs.NoLinks ∧ ∀ q, q ≠ tmp → q ≠ p → fs.read q = (files τ s).read q) := by
  obtain ⟨fs₁, hwrite, hdir, hdurable, hread, honly⟩ := run_writeFile (τ := τ) (ε := ε) tmp bytes s
  cases hr : fs₁.replace tmp p with
  | none =>
    have hnone := FileSys.replace_eq_none.mp hr
    rw [hdir, FileSys.openTrunc_dir_self] at hnone
    cases hnone
  | some fs =>
    have hr' : (files τ (setFiles τ s fs₁)).replace tmp p = some fs := by
      rw [LawfulFiles.files_set]
      exact hr
    obtain ⟨n, -, hentries, -, -, -, hsame, -⟩ := FileSys.replace_eq_some hr
    refine ⟨fs, n, ?_, ?_, hsame.trans hdurable, ?_, fun hlinks => ⟨(honly hlinks).no_links.replace hr, ?_⟩⟩
    · simp only [run_bind, hwrite, Option.bind_some, andThen_ok, run_replace hr', LawfulFiles.set_set]
    · rw [hentries, hdir]
      unfold FileSys.openTrunc
      simp only [Function.update_idem]
    · rw [FileSys.read_replace_self hr, hread]
    · intro q hq hqp
      rw [FileSys.read_replace_of_ne hr hq hqp, (honly hlinks).read hq]

/-- The writes of a file meet a condition that only looks at the entries. -/
theorem guarded_writeBytes [LawfulFiles τ σ] {ok : τ → σ → Prop} {s : σ} (n : Nat) (bs : List UInt8) (off : Nat)
    {fs : FileSys} (h : ∀ k fs', fs'.dir = fs.dir → ok (tag σ (.write n k)) (setFiles τ s fs')) :
    (writeBytes n off bs : Prog τ σ ε Unit).Guarded ok (setFiles τ s fs) := by
  induction bs generalizing off fs with
  | nil => trivial
  | cons b bs ih =>
    simp only [writeBytes, guarded_bind, guarded_fileCall, run_fileCall, LawfulFiles.files_set,
      LawfulFiles.set_set]
    refine ⟨h off fs rfl, fun _ s' hs' => ?_⟩
    cases hs'
    exact ih (off + 1) fun k fs' hdir => h k fs' hdir

/-- A file that is written: all calls are about it. -/
theorem only_writeFile {T : τ → Prop} (p : FsPath) (bytes : List UInt8)
    (h : ∀ c, (∀ q, c ≠ .pathExists q) → T (tag σ c)) : (writeFile p bytes : Prog τ σ ε Unit).Only T := by
  have hbytes : ∀ n off, (writeBytes n off bytes : Prog τ σ ε Unit).Only T := by
    induction bytes with
    | nil => exact fun _ _ => trivial
    | cons b bs ih =>
      exact fun n off => only_bind ((only_modify ..).mpr (h _ nofun)) fun _ => ih n (off + 1)
  exact only_bind ((only_step ..).mpr (h _ nofun)) fun n =>
    only_bind (hbytes n 0) fun _ => (only_modify ..).mpr (h _ nofun)

/-- The same of a rename. -/
theorem only_replace {T : τ → Prop} (e : ε) (p q : FsPath) (h : T (tag σ (.replace p q))) :
    (replace e p q : Prog τ σ ε Unit).Only T := by
  refine only_bind ((only_step ..).mpr h) fun found => ?_
  cases found <;> simp

end Prog
