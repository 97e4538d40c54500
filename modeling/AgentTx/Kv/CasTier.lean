import AgentTx.Kv.View
import AgentTx.Lib.Prog.Files

/-!
# `Kv.CasTier` — the provenance-gated KV tier (`agenttx/kv_cas_tier.py`)

A worker that opens the tier on `root_dir` compares its provenance with the one a sidecar file there
records, and writes the sidecar when there is none. The comparison is made once, in the constructor, and
gates `lookup`. Stores are vLLM's own: a block goes to the file of its key, whoever writes it.

The file system has no directories, so that `os.makedirs` is no step here, and no call on it fails but
for a file that is missing.
-/

namespace AgentTx.CasTier

/-- The `json` module, as the tier uses it on provenance dicts `π`. A dict may hold floats, and objects that
    only `default=str` can write. -/
structure JsonModule (π : Type) where
  /-- `{}` -/
  emptyDict : π
  /-- `json.dumps(prov, sort_keys=True, default=str)` -/
  dumps : π → Except Exn String
  /-- `json.dump({"fingerprint": fp, "provenance": prov}, f)`: what goes to the file, up to the exception
      if there is one -/
  dump : String → π → List UInt8 × Option Exn
  /-- `json.load` of a file with this content -/
  load : List UInt8 → Except Exn Json

/-- `os.path.join(root_dir, PROV_SIDECAR)`. -/
def sidecar (root_dir : String) : FsPath := ⟨root_dir, "agenttx_provenance.json"⟩

/-- `sidecar + ".tmp"`, the same for every worker. -/
def tmp (root_dir : String) : FsPath := ⟨root_dir, "agenttx_provenance.json.tmp"⟩

theorem sidecar_ne_tmp (root_dir : String) : sidecar root_dir ≠ tmp root_dir := by
  intro h
  have hname : "agenttx_provenance.json" = "agenttx_provenance.json.tmp" := congrArg FsPath.name h
  revert hname
  decide

/-- vLLM's `FileSystemTierManager` on one `root_dir`: where the block of a key is. Block files are `.bin`
    files, hence not the sidecar. -/
structure BlockFiles (κ : Type) where
  root_dir : String
  file : κ → FsPath
  file_ne : ∀ key, file key ≠ sidecar root_dir ∧ file key ≠ tmp root_dir

/-! ## The shared state -/

/-- The statements of a worker. -/
inductive Stmt (κ : Type) where
  | file (c : FileCall)
  | load (p : FsPath)
  | store (key : κ)
  | lookup (key : κ)
  deriving DecidableEq

/-- A hit of `lookup`: the fingerprint of the worker that gets it, and that of the worker that wrote the
    block. -/
structure Hit where
  fp : String
  writer : Option String
  deriving DecidableEq, Repr

/-- The files. `writer` and `served` only observe: who wrote the file at a path last, and the hits. -/
structure CasState where
  files : FileSys
  writer : FsPath → Option String
  served : List Hit

namespace CasState

/-- The file at `p` is written by a worker with fingerprint `fp`. -/
def put (s : CasState) (p : FsPath) (fp : String) (block : List UInt8) : CasState :=
  { s with
    files := (s.files.openTrunc p).write (s.files.openInode p) 0 block
    writer := Function.update s.writer p (some fp) }

/-- A worker with fingerprint `fp` is told that the file at `p` is there. -/
def hit (s : CasState) (p : FsPath) (fp : String) : CasState := { s with served := ⟨fp, s.writer p⟩ :: s.served }

@[simp] theorem put_dir_self (s : CasState) (p : FsPath) (fp : String) (block : List UInt8) :
    (s.put p fp block).files.dir p = some (s.files.openInode p) := FileSys.openTrunc_dir_self ..

theorem put_dir_of_ne (s : CasState) {p q : FsPath} (h : q ≠ p) (fp : String) (block : List UInt8) :
    (s.put p fp block).files.dir q = s.files.dir q := FileSys.openTrunc_dir_of_ne _ h

@[simp] theorem put_writer_self (s : CasState) (p : FsPath) (fp : String) (block : List UInt8) :
    (s.put p fp block).writer p = some fp := Function.update_self ..

theorem put_writer_of_ne (s : CasState) {p q : FsPath} (h : q ≠ p) (fp : String) (block : List UInt8) :
    (s.put p fp block).writer q = s.writer q := Function.update_of_ne h ..

@[simp] theorem put_served (s : CasState) (p : FsPath) (fp : String) (block : List UInt8) :
    (s.put p fp block).served = s.served := rfl

/-- A block file is nobody else's. -/
theorem onlyAt_put {s : CasState} (h : s.files.NoLinks) (p : FsPath) (fp : String) (block : List UInt8) :
    s.files.OnlyAt p (s.put p fp block).files := by
  have hopen := FileSys.onlyAt_openTrunc h p
  have hwrite := FileSys.onlyAt_write hopen.no_links (FileSys.openTrunc_dir_self s.files p) 0 block
  refine ⟨hwrite.no_links, fun q hq => ?_⟩
  obtain ⟨hdir, hdata⟩ := hopen.elsewhere q hq
  obtain ⟨hdir', hdata'⟩ := hwrite.elsewhere q hq
  refine ⟨hdir'.trans hdir, fun n hn => ?_⟩
  exact (hdata' n (hdir.trans hn)).trans (hdata n hn)

end CasState

instance {κ : Type} : HasFiles (Stmt κ) CasState where
  files s := s.files
  setFiles s fs := { s with files := fs }
  tag := .file

instance {κ : Type} : LawfulFiles (Stmt κ) CasState where
  files_set _ _ := rfl
  set_set _ _ _ := rfl

/-- A program of a worker. -/
abbrev CasProg (κ : Type) := Prog (Stmt κ) CasState Exn

/-! ## `AgentTxCASTier` -/

section

variable {π κ : Type} (json : JsonModule π) (files : BlockFiles κ)

def provenance_fingerprint (prov : Option π) : Except Exn String := do
  let text ← json.dumps (prov.getD json.emptyDict)
  pure (Sha256.hexdigest (Sha256.encode text))

inductive Reason where
  | ok
  | provenance_mismatch
  | provenance_error (e : Exn)
  deriving DecidableEq, Repr

structure AgentTxCASTier where
  fp : String
  fail_closed : Bool
  reason : Reason
  deriving DecidableEq, Repr

namespace AgentTxCASTier

/-- `stored.get("fingerprint") == fp`, for the document that a file with this content holds. -/
def matchesFingerprint (content : List UInt8) (fp : String) : Except Exn Bool := do
  let stored ← json.load content
  let v ← dictGet stored "fingerprint"
  pure (Kv.isText v fp)

/-- `with open(tmp, "w") as f: json.dump(…, f); f.flush(); os.fsync(f.fileno())`. -/
def writeRecord (fp : String) (provenance : Option π) : CasProg κ Unit := do
  let n ← Prog.openTrunc (tmp files.root_dir)
  let (bytes, raised) := json.dump fp (provenance.getD json.emptyDict)
  Prog.writeBytes n 0 bytes
  match raised with
  | some e => Prog.raise e
  | none => Prog.fileCall (.fsync n) fun fs => fs.fsync n

/-- The `try` of the constructor: whether the tier fails closed, and why. -/
def checkProvenance (fp : String) (provenance : Option π) : CasProg κ (Bool × Reason) := do
  if ← Prog.pathExists (sidecar files.root_dir) then
    let found ← Prog.read (.load (sidecar files.root_dir)) fun s => s.files.read (sidecar files.root_dir)
    let content ← Prog.ofOption .FileNotFoundError found
    if ← Prog.ofExcept (matchesFingerprint json content fp) then pure (false, .ok)
    else pure (true, .provenance_mismatch)
  else
    writeRecord json files fp provenance
    Prog.replace .FileNotFoundError (tmp files.root_dir) (sidecar files.root_dir)
    pure (false, .ok)

/-- `__init__`. Any exception under the `try` fails closed; the fingerprint is taken before it. -/
def init (provenance : Option π) : CasProg κ AgentTxCASTier := do
  let fp ← Prog.ofExcept (provenance_fingerprint json provenance)
  let (fail_closed, reason) ← (checkProvenance json files fp provenance).tryCatch fun e =>
    pure (true, .provenance_error e)
  pure ⟨fp, fail_closed, reason⟩

/-- vLLM's `store`, which the tier inherits: the file of the key holds the block. -/
def store (tier : AgentTxCASTier) (key : κ) (block : List UInt8) : CasProg κ Unit :=
  Prog.modify (.store key) fun s => s.put (files.file key) tier.fp block

/-- `lookup`, over vLLM's: whether the file of the key exists. -/
def lookup (tier : AgentTxCASTier) (key : κ) : CasProg κ Bool :=
  if tier.fail_closed then pure false
  else Prog.step (.lookup key) fun s =>
    if s.files.pathExists (files.file key) then some (true, s.hit (files.file key) tier.fp)
    else some (false, s)

end AgentTxCASTier

/-! ## JSON dicts -/

/-- `{"fingerprint": fp, "provenance": prov}`. -/
def record (fp : String) (prov : Json) : Json := .obj [(.str "fingerprint", .str fp), (.str "provenance", prov)]

/-- `json` on the dicts that `Json` holds, for which `default` is not called. -/
def pyJson : JsonModule Json where
  emptyDict := .obj []
  dumps prov := prov.dumpsSorted.elim (.error .TypeError) .ok
  dump fp prov := (Sha256.encode (record fp prov).dumps, none)
  load content := (Sha256.decode content).elim (.error .ValueError) json_loads

/-- **A record that is written whole is read back**, with the fingerprint it was written for. -/
theorem matchesFingerprint_dump (fp : String) (prov : Json) :
    AgentTxCASTier.matchesFingerprint pyJson (pyJson.dump fp prov).1 fp = .ok true := by
  have hload : pyJson.load (pyJson.dump fp prov).1 = .ok (record fp prov).stringKeys := by
    simp [pyJson, json_loads, Json.loads_dumps]
  have hget : dictGet (record fp prov).stringKeys "fingerprint" = .ok (.str fp) := by
    simp [record, dictGet, Json.stringKeys, Json.stringKeysMembers, Json.stringKeysMember, Json.get?, Json.lookup,
      Json.Key.text]
  simp [AgentTxCASTier.matchesFingerprint, hload, hget, bind, Except.bind, pure, Except.pure, Kv.isText]

/-! ## Workers -/

/-- What a worker asks of its tier. -/
inductive Call (κ : Type) where
  | store (key : κ) (block : List UInt8)
  | lookup (key : κ)

def Call.run (tier : AgentTxCASTier) : Call κ → CasProg κ Unit
  | .store key block => tier.store files key block
  | .lookup key => do
      let _ ← tier.lookup files key
      pure ()

/-- A worker: its provenance, and what it asks for, in order. -/
structure Worker (π κ : Type) where
  provenance : Option π
  calls : List (Call κ)

/-- Open the tier, then use it. -/
def Worker.run (w : Worker π κ) : CasProg κ Unit := do
  let tier ← AgentTxCASTier.init json files w.provenance
  Prog.forEach w.calls (Call.run files tier)

/-- Workers on one `root_dir`. One that dies leaves the files as they are. -/
def system {ι : Type} (workers : ι → Worker π κ) : System ι Empty (Stmt κ) CasState Exn Unit where
  main i := (workers i).run json files
  abort _ s := s
  env _ _ := none
  kills _ := false

/-- No worker has used `root_dir` yet. -/
def Fresh (s : CasState) : Prop :=
  s.files.NoLinks ∧ s.files.dir (sidecar files.root_dir) = none ∧
    (∀ key, s.files.dir (files.file key) = none) ∧ s.served = []

end

end AgentTx.CasTier
