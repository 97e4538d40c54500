import AgentTx.Lib.Prog.Basic

/-!
# `Lib.FileSys` — a POSIX-like file system: directory entries name inodes

An entry (`dir`) names an inode, and a file that is open keeps writing to its inode whatever happens to
the name: this is what a rename, or a second `open(…, "w")` of the same name, does to a writer that is
under way. `durable` and `unsynced` say what a machine crash may leave of an entry: what the last fsync
of its directory saw, or any later change of it; `synced` says which inodes' data were fsynced.

The second half lifts the calls to programs over any shared state that holds a file system (`HasFiles`).

Layout: the calls one by one, each with what it changes; entries that share no inode (`NoLinks`), without which a
write may change two files; files that differ at one path (`OnlyAt`); entries that survive a crash (`Survives`);
damage; and the calls as statements of a program.
-/

/-- A path: the directory, and the name in it. -/
structure FsPath where
  dir : String
  name : String
  deriving DecidableEq, Repr

/-- A file system. No entry, current or left by a crash, names an inode not allocated yet. -/
structure FileSys where
  dir : FsPath → Option Nat
  data : Nat → List UInt8
  fresh : Nat
  synced : Nat → Bool
  durable : FsPath → Option Nat
  unsynced : FsPath → List (Option Nat)
  bounded : ∀ p n, some n ∈ dir p :: durable p :: unsynced p → n < fresh

namespace FileSys

/-- No files. -/
def empty : FileSys where
  dir _ := none
  data _ := []
  fresh := 0
  synced _ := false
  durable _ := none
  unsynced _ := []
  bounded := by simp

/-- `os.path.exists(p)`. -/
def pathExists (fs : FileSys) (p : FsPath) : Bool := (fs.dir p).isSome

/-- The content of the file at `p`. -/
def read (fs : FileSys) (p : FsPath) : Option (List UInt8) := (fs.dir p).map fs.data

theorem lt_fresh {fs : FileSys} {p : FsPath} {n : Nat} (h : fs.dir p = some n) : n < fs.fresh :=
  fs.bounded p n (by rw [h]; exact List.mem_cons_self)

/-- The inode `open(p, "w")` gives: the one there is, or a new one. -/
def openInode (fs : FileSys) (p : FsPath) : Nat := (fs.dir p).getD fs.fresh

/-- `open(p, "w")`: the file is created or truncated. -/
def openTrunc (fs : FileSys) (p : FsPath) : FileSys where
  dir := Function.update fs.dir p (some (fs.openInode p))
  data := Function.update fs.data (fs.openInode p) []
  fresh := fs.fresh + 1
  synced := Function.update fs.synced (fs.openInode p) false
  durable := fs.durable
  unsynced := Function.update fs.unsynced p (some (fs.openInode p) :: fs.unsynced p)
  bounded := by
    have hnew : fs.openInode p < fs.fresh + 1 := by
      unfold openInode
      cases h : fs.dir p with
      | none => exact Nat.lt_succ_self _
      | some n => exact Nat.lt_succ_of_lt (lt_fresh h)
    intro q n hn
    by_cases hq : q = p
    · subst hq
      simp only [Function.update_self, List.mem_cons, Option.some.injEq] at hn
      rcases hn with rfl | hn | rfl | hn
      · exact hnew
      · exact Nat.lt_succ_of_lt (fs.bounded q n (by simp [hn]))
      · exact hnew
      · exact Nat.lt_succ_of_lt (fs.bounded q n (by simp [hn]))
    · rw [Function.update_of_ne hq, Function.update_of_ne hq] at hn
      exact Nat.lt_succ_of_lt (fs.bounded q n hn)

/-- A write of `bytes` at offset `off`; a gap is filled with zeros. -/
def overwrite (old : List UInt8) (off : Nat) (bytes : List UInt8) : List UInt8 :=
  old.take off ++ List.replicate (off - old.length) 0 ++ bytes ++ old.drop (off + bytes.length)

/-- `write` on an open file. -/
def write (fs : FileSys) (n off : Nat) (bytes : List UInt8) : FileSys :=
  { fs with
    data := Function.update fs.data n (overwrite (fs.data n) off bytes)
    synced := Function.update fs.synced n false }

/-- `os.fsync` of an open file. -/
def fsync (fs : FileSys) (n : Nat) : FileSys := { fs with synced := Function.update fs.synced n true }

/-- `os.replace(p, q)`; `none` when `p` is missing (`FileNotFoundError`). -/
def replace (fs : FileSys) (p q : FsPath) : Option FileSys :=
  match h : fs.dir p with
  | none => none
  | some n => some
      { fs with
        dir := Function.update (Function.update fs.dir p none) q (some n)
        unsynced := Function.update (Function.update fs.unsynced p (none :: fs.unsynced p)) q
          (some n :: fs.unsynced q)
        bounded := by
          have hn : n < fs.fresh := lt_fresh h
          intro r m hm
          by_cases hq : r = q
          · subst hq
            simp only [Function.update_self, List.mem_cons, Option.some.injEq] at hm
            rcases hm with rfl | hm | rfl | hm
            · exact hn
            · exact fs.bounded r m (by simp [hm])
            · exact hn
            · exact fs.bounded r m (by simp [hm])
          · rw [Function.update_of_ne hq, Function.update_of_ne hq] at hm
            by_cases hp : r = p
            · subst hp
              simp only [Function.update_self, List.mem_cons, reduceCtorEq, false_or] at hm
              exact fs.bounded r m (by simp [hm])
            · rw [Function.update_of_ne hp, Function.update_of_ne hp] at hm
              exact fs.bounded r m hm }

/-- `fsync` of a directory: its entries are what a crash leaves. -/
def fsyncDir (fs : FileSys) (d : String) : FileSys :=
  { fs with
    durable := fun p => if p.dir = d then fs.dir p else fs.durable p
    unsynced := fun p => if p.dir = d then [] else fs.unsynced p
    bounded := by
      intro p n hn
      by_cases hp : p.dir = d
      · simp only [hp, if_true, List.mem_cons, List.not_mem_nil, or_false, or_self] at hn
        exact fs.bounded p n (by simp [hn])
      · simp only [hp, if_false] at hn
        exact fs.bounded p n hn }

/-- What a machine crash may leave of the entry at `p`: the durable one, or one of those since. -/
def candidates (fs : FileSys) (p : FsPath) : List (Option Nat) := fs.durable p :: fs.unsynced p

/-- The candidate at position `pick p`, for each entry. -/
def crashDir (fs : FileSys) (pick : FsPath → Nat) (p : FsPath) : Option Nat :=
  (fs.candidates p).getD (pick p) (fs.durable p)

theorem crashDir_mem (fs : FileSys) (pick : FsPath → Nat) (p : FsPath) : fs.crashDir pick p ∈ fs.candidates p := by
  rw [crashDir, List.getD_eq_getElem?_getD]
  cases hget : (fs.candidates p)[pick p]? with
  | none => exact List.mem_cons_self
  | some x => exact List.mem_of_getElem? hget

/-- A machine crash: `pick` says which candidate each entry falls back to, `lost` what becomes of data
    that was not fsynced. -/
def crash (fs : FileSys) (pick : FsPath → Nat) (lost : Nat → List UInt8) : FileSys where
  dir := fs.crashDir pick
  data n := if fs.synced n then fs.data n else lost n
  fresh := fs.fresh
  synced _ := true
  durable := fs.crashDir pick
  unsynced _ := []
  bounded p n hn := by
    have hdir : fs.crashDir pick p = some n := by
      simpa [eq_comm] using hn
    have hmem := fs.crashDir_mem pick p
    rw [hdir] at hmem
    exact fs.bounded p n (List.mem_cons_of_mem _ hmem)

/-! ## What each call changes -/

@[simp] theorem openTrunc_dir_self (fs : FileSys) (p : FsPath) :
    (fs.openTrunc p).dir p = some (fs.openInode p) := Function.update_self ..

theorem openTrunc_dir_of_ne (fs : FileSys) {p q : FsPath} (h : q ≠ p) :
    (fs.openTrunc p).dir q = fs.dir q := Function.update_of_ne h ..

@[simp] theorem openTrunc_data_self (fs : FileSys) (p : FsPath) :
    (fs.openTrunc p).data (fs.openInode p) = [] := Function.update_self ..

theorem openTrunc_data_of_ne (fs : FileSys) {p : FsPath} {n : Nat} (h : n ≠ fs.openInode p) :
    (fs.openTrunc p).data n = fs.data n := Function.update_of_ne h ..

theorem openInode_of_none {fs : FileSys} {p : FsPath} (h : fs.dir p = none) : fs.openInode p = fs.fresh := by
  rw [openInode, h]
  rfl

@[simp] theorem write_dir (fs : FileSys) (n off : Nat) (b : List UInt8) : (fs.write n off b).dir = fs.dir := rfl

@[simp] theorem write_fresh (fs : FileSys) (n off : Nat) (b : List UInt8) :
    (fs.write n off b).fresh = fs.fresh := rfl

@[simp] theorem write_data_self (fs : FileSys) (n off : Nat) (b : List UInt8) :
    (fs.write n off b).data n = overwrite (fs.data n) off b := Function.update_self ..

theorem write_data_of_ne (fs : FileSys) {n m : Nat} (h : m ≠ n) (off : Nat) (b : List UInt8) :
    (fs.write n off b).data m = fs.data m := Function.update_of_ne h ..

@[simp] theorem fsync_dir (fs : FileSys) (n : Nat) : (fs.fsync n).dir = fs.dir := rfl

@[simp] theorem fsync_data (fs : FileSys) (n : Nat) : (fs.fsync n).data = fs.data := rfl

@[simp] theorem fsyncDir_dir (fs : FileSys) (d : String) : (fs.fsyncDir d).dir = fs.dir := rfl

@[simp] theorem fsyncDir_data (fs : FileSys) (d : String) : (fs.fsyncDir d).data = fs.data := rfl

/-- A writer that appends at the end extends the file. -/
theorem overwrite_append (old bytes : List UInt8) : overwrite old old.length bytes = old ++ bytes := by
  simp [overwrite]

/-- The next byte of a text whose first `k` bytes are written. -/
theorem overwrite_take {bytes : List UInt8} {k : Nat} {b : UInt8} (h : bytes[k]? = some b) :
    overwrite (bytes.take k) k [b] = bytes.take (k + 1) := by
  have hlen : (bytes.take k).length = k := by
    obtain ⟨hlt, -⟩ := List.getElem?_eq_some_iff.mp h
    rw [List.length_take]
    omega
  have happend := overwrite_append (bytes.take k) [b]
  rw [hlen] at happend
  rw [happend, List.take_add_one, h]
  rfl

/-- A byte that is there already. -/
theorem overwrite_same {old : List UInt8} {k : Nat} {b : UInt8} (h : old[k]? = some b) :
    overwrite old k [b] = old := by
  obtain ⟨hlt, hget⟩ := List.getElem?_eq_some_iff.mp h
  have hgap : k - old.length = 0 := by omega
  have hdrop : old.drop k = b :: old.drop (k + 1) := by
    rw [List.drop_eq_getElem_cons hlt, hget]
  have hsplit : old.take k ++ b :: old.drop (k + 1) = old := by
    rw [← hdrop, List.take_append_drop]
  simpa [overwrite, hgap] using hsplit

/-- **Inversion** of a rename that succeeds. -/
theorem replace_eq_some {fs fs' : FileSys} {p q : FsPath} (h : fs.replace p q = some fs') :
    ∃ n, fs.dir p = some n ∧ fs'.dir = Function.update (Function.update fs.dir p none) q (some n) ∧
      fs'.data = fs.data ∧ fs'.fresh = fs.fresh ∧ fs'.synced = fs.synced ∧ fs'.durable = fs.durable ∧
      fs'.unsynced = Function.update (Function.update fs.unsynced p (none :: fs.unsynced p)) q
        (some n :: fs.unsynced q) := by
  unfold replace at h
  split at h
  · cases h
  · rename_i n hn
    cases h
    exact ⟨n, hn, rfl, rfl, rfl, rfl, rfl, rfl⟩

/-- The new name has the content of the old one. -/
theorem read_replace_self {fs fs' : FileSys} {p q : FsPath} (h : fs.replace p q = some fs') :
    fs'.read q = fs.read p := by
  obtain ⟨n, hn, hdir, hdata, -⟩ := replace_eq_some h
  rw [read, read, hdir, hdata, Function.update_self, hn]

theorem read_replace_of_ne {fs fs' : FileSys} {p q r : FsPath} (h : fs.replace p q = some fs') (hp : r ≠ p)
    (hq : r ≠ q) : fs'.read r = fs.read r := by
  obtain ⟨n, -, hdir, hdata, -⟩ := replace_eq_some h
  rw [read, read, hdir, hdata, Function.update_of_ne hq, Function.update_of_ne hp]

theorem replace_eq_none {fs : FileSys} {p q : FsPath} : fs.replace p q = none ↔ fs.dir p = none := by
  unfold replace
  split
  · rename_i h
    simp [h]
  · rename_i n h
    simp [h]

end FileSys

namespace FileSys

/-! ## Entries do not share inodes -/

/-- No two entries name one inode: there are no hard links. -/
def NoLinks (fs : FileSys) : Prop := ∀ p q n, fs.dir p = some n → fs.dir q = some n → p = q

variable {fs fs' : FileSys} {p q : FsPath} {n : Nat}

/-- The inode that `open(p, "w")` gives has no other name. -/
theorem NoLinks.ne_openInode (h : fs.NoLinks) (hqp : q ≠ p) (hq : fs.dir q = some n) : n ≠ fs.openInode p := by
  intro hn
  cases hp : fs.dir p with
  | none =>
    have hlt := lt_fresh hq
    rw [openInode_of_none hp] at hn
    omega
  | some m =>
    rw [openInode, hp, Option.getD_some] at hn
    exact hqp (h q p n hq (hn ▸ hp))

theorem NoLinks.openTrunc (h : fs.NoLinks) (p : FsPath) : (fs.openTrunc p).NoLinks := by
  intro q r n hq hr
  by_cases hqp : q = p <;> by_cases hrp : r = p
  · rw [hqp, hrp]
  · subst hqp
    rw [openTrunc_dir_self] at hq
    rw [openTrunc_dir_of_ne fs hrp] at hr
    exact absurd (Option.some.inj hq).symm (h.ne_openInode hrp hr)
  · subst hrp
    rw [openTrunc_dir_self] at hr
    rw [openTrunc_dir_of_ne fs hqp] at hq
    exact absurd (Option.some.inj hr).symm (h.ne_openInode hqp hq)
  · rw [openTrunc_dir_of_ne fs hqp] at hq
    rw [openTrunc_dir_of_ne fs hrp] at hr
    exact h q r n hq hr

/-- A rename moves the name. -/
theorem NoLinks.replace (h : fs.NoLinks) (hr : fs.replace p q = some fs') : fs'.NoLinks := by
  obtain ⟨m, hp, hdir, -⟩ := replace_eq_some hr
  -- whoever names `m` afterwards is `q`
  have hm : ∀ r, r ≠ q → fs'.dir r ≠ some m := by
    intro r hrq hrm
    rw [hdir, Function.update_of_ne hrq] at hrm
    by_cases hrp : r = p
    · rw [hrp, Function.update_self] at hrm
      cases hrm
    · rw [Function.update_of_ne hrp] at hrm
      exact hrp (h r p m hrm hp)
  have hq : fs'.dir q = some m := by
    rw [hdir, Function.update_self]
  intro r r' k hr hr'
  by_cases hrq : r = q <;> by_cases hrq' : r' = q
  · rw [hrq, hrq']
  · rw [hrq, hq] at hr
    exact absurd (hr ▸ hr') (hm r' hrq')
  · rw [hrq', hq] at hr'
    exact absurd (hr' ▸ hr) (hm r hrq)
  · rw [hdir, Function.update_of_ne hrq] at hr
    rw [hdir, Function.update_of_ne hrq'] at hr'
    by_cases hrp : r = p
    · rw [hrp, Function.update_self] at hr
      cases hr
    · by_cases hrp' : r' = p
      · rw [hrp', Function.update_self] at hr'
        cases hr'
      · rw [Function.update_of_ne hrp] at hr
        rw [Function.update_of_ne hrp'] at hr'
        exact h r r' k hr hr'

end FileSys

namespace FileSys

/-! ## Calls on one file -/

/-- The files of `fs'` are those of `fs` but for the file at `p`. -/
structure OnlyAt (fs : FileSys) (p : FsPath) (fs' : FileSys) : Prop where
  no_links : fs'.NoLinks
  elsewhere : ∀ q, q ≠ p → fs'.dir q = fs.dir q ∧ ∀ n, fs.dir q = some n → fs'.data n = fs.data n

section OnlyAt

variable {fs fs' : FileSys} {p q : FsPath}

theorem OnlyAt.read (h : fs.OnlyAt p fs') (hq : q ≠ p) : fs'.read q = fs.read q := by
  obtain ⟨hdir, hdata⟩ := h.elsewhere q hq
  rw [FileSys.read, FileSys.read, hdir]
  cases hn : fs.dir q with
  | none => rfl
  | some n => simp [hdata n hn]

theorem onlyAt_openTrunc (h : fs.NoLinks) (p : FsPath) : fs.OnlyAt p (fs.openTrunc p) :=
  ⟨h.openTrunc p, fun _ hq => ⟨openTrunc_dir_of_ne fs hq, fun _ hn =>
    openTrunc_data_of_ne fs (h.ne_openInode hq hn)⟩⟩

theorem onlyAt_write (h : fs.NoLinks) {n : Nat} (hn : fs.dir p = some n) (off : Nat) (b : List UInt8) :
    fs.OnlyAt p (fs.write n off b) := by
  refine ⟨h, fun q hq => ⟨rfl, fun m hm => write_data_of_ne fs ?_ off b⟩⟩
  rintro rfl
  exact hq (h q p m hm hn)

theorem onlyAt_fsync (h : fs.NoLinks) (n : Nat) : fs.OnlyAt p (fs.fsync n) :=
  ⟨h, fun _ _ => ⟨rfl, fun _ _ => rfl⟩⟩

theorem onlyAt_fsyncDir (h : fs.NoLinks) (d : String) : fs.OnlyAt p (fs.fsyncDir d) :=
  ⟨h, fun _ _ => ⟨rfl, fun _ _ => rfl⟩⟩

end OnlyAt

/-! ## Entries that survive a crash -/

/-- There is a file at `p`, now and whatever a crash leaves of the entry. -/
def Survives (fs : FileSys) (p : FsPath) : Prop :=
  (fs.dir p).isSome ∧ ∀ e ∈ fs.candidates p, e.isSome

variable {fs fs' : FileSys} {p q : FsPath}

theorem Survives.openTrunc (h : fs.Survives q) (p : FsPath) : (fs.openTrunc p).Survives q := by
  by_cases hq : q = p
  · subst hq
    refine ⟨by rw [openTrunc_dir_self, Option.isSome_some], fun e he => ?_⟩
    have hmem : e ∈ fs.durable q :: Function.update fs.unsynced q (some (fs.openInode q) :: fs.unsynced q) q := he
    rw [Function.update_self] at hmem
    rcases List.mem_cons.mp hmem with rfl | hmem
    · exact h.2 _ List.mem_cons_self
    · rcases List.mem_cons.mp hmem with rfl | hmem
      · rfl
      · exact h.2 e (List.mem_cons_of_mem _ hmem)
  · refine ⟨by rw [openTrunc_dir_of_ne fs hq]; exact h.1, fun e he => ?_⟩
    have hmem : e ∈ fs.durable q :: Function.update fs.unsynced p (some (fs.openInode p) :: fs.unsynced p) q := he
    rw [Function.update_of_ne hq] at hmem
    exact h.2 e hmem

/-- A rename, but for the name that it takes away. -/
theorem Survives.replace {r : FsPath} (h : fs.Survives r) (hr : fs.replace p q = some fs') (hrp : r ≠ p) :
    fs'.Survives r := by
  obtain ⟨n, -, hdir, -, -, -, hdurable, hunsynced⟩ := replace_eq_some hr
  rw [Survives, candidates, hdir, hdurable, hunsynced]
  by_cases hrq : r = q
  · subst hrq
    rw [Function.update_self, Function.update_self]
    refine ⟨rfl, fun e he => ?_⟩
    rcases List.mem_cons.mp he with rfl | he
    · exact h.2 _ List.mem_cons_self
    · rcases List.mem_cons.mp he with rfl | he
      · rfl
      · exact h.2 e (List.mem_cons_of_mem _ he)
  · rw [Function.update_of_ne hrq, Function.update_of_ne hrp, Function.update_of_ne hrq,
      Function.update_of_ne hrp]
    exact h

theorem Survives.fsyncDir (h : fs.Survives p) (d : String) : (fs.fsyncDir d).Survives p := by
  refine ⟨h.1, fun e he => ?_⟩
  have hmem : e ∈ (if p.dir = d then fs.dir p else fs.durable p) :: if p.dir = d then [] else fs.unsynced p := he
  split_ifs at hmem with hd
  · rw [List.mem_singleton.mp hmem]
    exact h.1
  · exact h.2 e hmem

/-- **What an fsync of the directory finds, survives.** -/
theorem survives_fsyncDir (h : (fs.dir p).isSome) : (fs.fsyncDir p.dir).Survives p := by
  refine ⟨h, fun e he => ?_⟩
  have hmem : e ∈ (if p.dir = p.dir then fs.dir p else _) :: if p.dir = p.dir then [] else fs.unsynced p := he
  rw [if_pos rfl, if_pos rfl, List.mem_singleton] at hmem
  rw [hmem]
  exact h

theorem Survives.crash (h : fs.Survives p) (pick : FsPath → Nat) (lost : Nat → List UInt8) :
    (fs.crash pick lost).Survives p := by
  have hdir : ((fs.crash pick lost).dir p).isSome := h.2 _ (fs.crashDir_mem pick p)
  refine ⟨hdir, fun e he => ?_⟩
  rw [List.mem_singleton.mp he]
  exact hdir

/-! ## Damage -/

/-- The file at `p` has other bytes: a flipped bit, a truncation, anything. -/
def corrupt (fs : FileSys) (p : FsPath) (bytes : List UInt8) : FileSys :=
  match fs.dir p with
  | none => fs
  | some n => { fs with data := Function.update fs.data n bytes }

/-- `os.remove(p)`. -/
def remove (fs : FileSys) (p : FsPath) : FileSys :=
  { fs with
    dir := Function.update fs.dir p none
    unsynced := Function.update fs.unsynced p (none :: fs.unsynced p)
    bounded := by
      intro q n hn
      by_cases hq : q = p
      · subst hq
        simp only [Function.update_self, List.mem_cons, reduceCtorEq, false_or] at hn
        exact fs.bounded q n (by simp [hn])
      · rw [Function.update_of_ne hq, Function.update_of_ne hq] at hn
        exact fs.bounded q n hn }

@[simp] theorem corrupt_dir (fs : FileSys) (p : FsPath) (bytes : List UInt8) : (fs.corrupt p bytes).dir = fs.dir := by
  unfold corrupt
  split <;> rfl

theorem NoLinks.corrupt (h : fs.NoLinks) (p : FsPath) (bytes : List UInt8) : (fs.corrupt p bytes).NoLinks := by
  unfold NoLinks
  rw [corrupt_dir]
  exact h

theorem read_corrupt_self {n : Nat} (h : fs.dir p = some n) (bytes : List UInt8) :
    (fs.corrupt p bytes).read p = some bytes := by
  simp [read, corrupt, h]

theorem NoLinks.remove (h : fs.NoLinks) (p : FsPath) : (fs.remove p).NoLinks := by
  have hold : ∀ q n, (fs.remove p).dir q = some n → fs.dir q = some n := by
    intro q n hq
    have hupd : Function.update fs.dir p none q = some n := hq
    by_cases hqp : q = p
    · subst hqp
      rw [Function.update_self] at hupd
      cases hupd
    · rwa [Function.update_of_ne hqp] at hupd
  exact fun q r n hq hr => h q r n (hold q n hq) (hold r n hr)

end FileSys

/-! ## Programs that use files -/

/-- The calls on files, as the statements of a program. -/
inductive FileCall where
  | pathExists (p : FsPath)
  | openTrunc (p : FsPath)
  | write (n off : Nat)
  | fsync (n : Nat)
  | replace (p q : FsPath)
  | fsyncDir (d : String)
  deriving DecidableEq

/-- What a call makes of the files. -/
def FileCall.Does (fs fs' : FileSys) : FileCall → Prop
  | .pathExists _ => fs' = fs
  | .openTrunc p => fs' = fs.openTrunc p
  | .write n off => ∃ bytes, fs' = fs.write n off bytes
  | .fsync n => fs' = fs.fsync n
  | .replace p q => fs.replace p q = some fs'
  | .fsyncDir d => fs' = fs.fsyncDir d

/-- No call makes a link. -/
theorem FileSys.NoLinks.does {fs fs' : FileSys} {c : FileCall} (h : fs.NoLinks) (hc : c.Does fs fs') :
    fs'.NoLinks := by
  cases c with
  | pathExists p => exact hc ▸ h
  | openTrunc p => exact hc ▸ h.openTrunc p
  | write n off =>
    obtain ⟨bytes, rfl⟩ := hc
    exact h
  | fsync n => exact hc ▸ h
  | replace p q => exact h.replace hc
  | fsyncDir d => exact hc ▸ h

/-- A shared state that holds a file system, in a system whose statements include the calls on it. -/
class HasFiles (τ σ : Type) where
  files : σ → FileSys
  setFiles : σ → FileSys → σ
  tag : FileCall → τ

namespace Prog

variable {τ σ ε : Type} [HasFiles τ σ]

open HasFiles

/-- A call that only changes the file system. -/
def fileCall (t : FileCall) (f : FileSys → FileSys) : Prog τ σ ε Unit :=
  modify (HasFiles.tag σ t) fun s => setFiles τ s (f (files τ s))

def pathExists (p : FsPath) : Prog τ σ ε Bool :=
  read (HasFiles.tag σ (.pathExists p)) fun s => (files τ s).pathExists p

/-- `open(p, "w")`; the result is the inode of the open file. -/
def openTrunc (p : FsPath) : Prog τ σ ε Nat :=
  step (HasFiles.tag σ (.openTrunc p)) fun s =>
    some ((files τ s).openInode p, setFiles τ s ((files τ s).openTrunc p))

/-- `write` of one byte after the other from offset `off`, so that any prefix may be left behind. -/
def writeBytes (n : Nat) : Nat → List UInt8 → Prog τ σ ε Unit
  | _, [] => .ret ()
  | off, b :: bs => do
      fileCall (.write n off) fun fs => fs.write n off [b]
      writeBytes n (off + 1) bs

/-- `with open(p, "w") as f: f.write(bytes); f.flush(); os.fsync(f.fileno())`. -/
def writeFile (p : FsPath) (bytes : List UInt8) : Prog τ σ ε Unit := do
  let n ← openTrunc p
  writeBytes n 0 bytes
  fileCall (.fsync n) fun fs => fs.fsync n

/-- `os.replace(p, q)`, which raises `e` when `p` is missing. -/
def replace (e : ε) (p q : FsPath) : Prog τ σ ε Unit := do
  let ok ← step (HasFiles.tag σ (.replace p q)) fun s =>
    match (files τ s).replace p q with
    | some fs => some (true, setFiles τ s fs)
    | none => some (false, s)
  if ok then pure () else raise e

def fsyncDir (d : String) : Prog τ σ ε Unit := fileCall (.fsyncDir d) fun fs => fs.fsyncDir d

end Prog
