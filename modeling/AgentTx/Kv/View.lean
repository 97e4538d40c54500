import Mathlib.Algebra.GroupWithZero.Nat
import AgentTx.Lib.FileSys
import AgentTx.Lib.Sha256
import AgentTx.Lib.Table
import AgentTx.Python

/-!
# `Kv.View` — the KV cache as a materialized view of the turn log (`agenttx/kvview.py`)

A snapshot publishes the blocks of a turn in a content-addressed store and then writes a manifest that
names them by hash, together with the fingerprint of the engine's provenance. `restore` checks both.
-/

namespace AgentTx.Kv

/-- `hashlib.sha256(b).hexdigest()`. -/
abbrev sha256_hex (b : List UInt8) : String := Sha256.hexdigest b

/-- Everything that must match for a restored KV to be valid. -/
structure Provenance where
  model : String
  tokenizer : String
  dtype : String
  block_size : Int
  num_layers : Int
  num_kv_heads : Int
  head_dim : Int
  rope : String
  adapter : String
  prefix_hash : String
  deriving DecidableEq, Repr

namespace Provenance

/-- `dataclasses.asdict`. -/
def asdict (p : Provenance) : Json :=
  .obj [(.str "model", .str p.model), (.str "tokenizer", .str p.tokenizer), (.str "dtype", .str p.dtype),
    (.str "block_size", .int p.block_size), (.str "num_layers", .int p.num_layers),
    (.str "num_kv_heads", .int p.num_kv_heads), (.str "head_dim", .int p.head_dim),
    (.str "rope", .str p.rope), (.str "adapter", .str p.adapter), (.str "prefix_hash", .str p.prefix_hash)]

/-- The record with its keys in order. -/
def sorted (p : Provenance) : Json :=
  .obj [(.str "adapter", .str p.adapter), (.str "block_size", .int p.block_size),
    (.str "dtype", .str p.dtype), (.str "head_dim", .int p.head_dim), (.str "model", .str p.model),
    (.str "num_kv_heads", .int p.num_kv_heads), (.str "num_layers", .int p.num_layers),
    (.str "prefix_hash", .str p.prefix_hash), (.str "rope", .str p.rope),
    (.str "tokenizer", .str p.tokenizer)]

/-- What `key` hashes: `json.dumps(asdict(self), sort_keys=True).encode()`. The keys are all strings, so
    that sorting does not fail (`dumpsSorted_asdict`). -/
def keyBytes (p : Provenance) : List UInt8 := Sha256.encode (p.asdict.dumpsSorted.getD "")

def key (p : Provenance) : String := sha256_hex p.keyBytes

theorem sortKeys_asdict (p : Provenance) : p.asdict.sortKeys = some p.sorted := by
  rfl

theorem dumpsSorted_asdict (p : Provenance) : p.asdict.dumpsSorted = some p.sorted.dumps := by
  rw [Json.dumpsSorted, sortKeys_asdict]
  rfl

/-- The canonical text determines the record in every field. -/
theorem keyBytes_injective : Function.Injective keyBytes := by
  intro p q h
  rw [keyBytes, keyBytes, dumpsSorted_asdict, dumpsSorted_asdict] at h
  have hdoc : p.sorted.stringKeys = q.sorted.stringKeys :=
    Json.stringKeys_eq_of_dumps_eq (Sha256.encode_injective h)
  cases p
  cases q
  simpa [sorted, Json.stringKeys, Json.stringKeysMembers, Json.stringKeysMember, and_comm, and_left_comm,
    and_assoc] using hdoc

end Provenance

/-! ## The stores -/

/-- The statements of a snapshot: calls on block files, and the write of the manifest row with its commit. -/
inductive Stmt where
  | file (c : FileCall)
  | putManifest (turn_lsn manifest : String)
  deriving DecidableEq

/-- The directory of the block store, and the table `kv_manifest(turn_lsn, manifest)`. -/
structure KvState where
  cas : FileSys
  kv_manifest : Table String String

instance : HasFiles Stmt KvState where
  files s := s.cas
  setFiles s fs := { s with cas := fs }
  tag := .file

/-- A program of the KV view. -/
abbrev KvProg := Prog Stmt KvState Exn

/-- What lies at a path, as `os.path.exists` and `open` see it. -/
inductive Entry where
  | missing
  | file (content : List UInt8)
  | directory

namespace BlockCAS

/-- `<root>/<h[:2]>/<h>`. -/
def path (h : String) : FsPath := ⟨String.ofList (h.toList.take 2), h⟩

/-- `p + ".tmp"`. -/
def tmp (p : FsPath) : FsPath := ⟨p.dir, p.name ++ ".tmp"⟩

/-- Store a block under its hash, unless it is there. -/
def put (content : List UInt8) : KvProg String := do
  let h := sha256_hex content
  let p := path h
  if ← Prog.pathExists p then
    pure h
  else
    Prog.writeFile (tmp p) content
    Prog.replace .FileNotFoundError (tmp p) p
    pure h

/-- The block named `h`, if it is there and its content has that hash. `entry` is what lies at the path of
    a name. -/
def get (entry : String → Entry) (h : String) : Except Exn (Option (List UInt8)) :=
  match entry h with
  | .missing => .ok none
  | .file b => if sha256_hex b ≠ h then .ok none else .ok (some b)
  | .directory => .error .IsADirectoryError

end BlockCAS

/-! ## `KVView` -/

/-- The document that binds a snapshot: `snapshot`'s `manifest`. -/
def manifestOf (turn_lsn : String) (prov : Provenance) (blocks : List (List UInt8)) : Json :=
  .obj [(.str "turn_lsn", .str turn_lsn), (.str "prov", prov.asdict), (.str "prov_key", .str prov.key),
    (.str "blocks", .arr (blocks.map fun b => .str (sha256_hex b))),
    (.str "n_blocks", .int blocks.length), (.str "total_bytes", .int (blocks.map List.length).sum)]

/-- `[self.cas.put(b) for b in blocks]`. -/
def putAll : List (List UInt8) → KvProg Unit
  | [] => .ret ()
  | b :: bs => do
      let _ ← BlockCAS.put b
      putAll bs

/-- `ManifestStore.put`: one row, inserted or replaced, and committed. -/
def putManifest (turn_lsn manifest : String) : KvProg Unit :=
  Prog.modify (.putManifest turn_lsn manifest) fun s =>
    { s with kv_manifest := s.kv_manifest.upsert turn_lsn fun _ => manifest }

/-- Store the blocks of a turn and then the manifest that binds them to the provenance. -/
def snapshot (turn_lsn : String) (prov : Provenance) (blocks : List (List UInt8)) : KvProg Json := do
  putAll blocks
  putManifest turn_lsn (manifestOf turn_lsn prov blocks).dumps
  pure (manifestOf turn_lsn prov blocks)

inductive Status where
  | RESTORED
  | FAIL_CLOSED
  deriving DecidableEq, Repr

inductive Reason where
  | ok
  | provenance_mismatch
  | block_corrupt_or_missing
  | manifest_missing
  deriving DecidableEq, Repr

structure RestoreResult where
  status : Status
  reason : Reason
  blocks : List (List UInt8)
  deriving DecidableEq, Repr

/-- What `restore` reads: the table of manifests, and what lies at the path of each block name. A name is
    any text that a manifest may list, so that its path can lead anywhere. -/
structure Plane where
  kv_manifest : Table String String
  entry : String → Entry

/-- The loop of `restore`: the verified blocks, or `none` at the first that is missing or corrupt. -/
def getBlocks (entry : String → Entry) : List Json → Except Exn (Option (List (List UInt8)))
  | [] => .ok (some [])
  | .str h :: hs => do
      match ← BlockCAS.get entry h with
      | none => .ok none
      | some b => (getBlocks entry hs).map (Option.map (b :: ·))
  | _ :: _ => .error .TypeError

/-- `m["prov_key"] == key`. -/
def isText (v : Json) (key : String) : Bool :=
  match v with
  | .str s => s = key
  | _ => false

/-- Verify the provenance and every block; restore only if all is right. `loads` is `json.loads`. -/
def Plane.restore (loads : String → Except Exn Json) (kv : Plane) (turn_lsn : String) (current : Provenance) :
    Except Exn RestoreResult :=
  match kv.kv_manifest turn_lsn with
  | none => .ok ⟨.FAIL_CLOSED, .manifest_missing, []⟩
  | some raw => do
      let m ← loads raw
      let prov_key ← subscript m "prov_key"
      if isText prov_key current.key then
        let hs ← subscript m "blocks"
        match ← getBlocks kv.entry (← iterate hs) with
        | none => .ok ⟨.FAIL_CLOSED, .block_corrupt_or_missing, []⟩
        | some out => .ok ⟨.RESTORED, .ok, out⟩
      else .ok ⟨.FAIL_CLOSED, .provenance_mismatch, []⟩

/-- The stores, as `restore` reads them. -/
def KvState.plane (s : KvState) : Plane where
  kv_manifest := s.kv_manifest
  entry h := (s.cas.read (BlockCAS.path h)).elim .missing .file

def restore (s : KvState) (turn_lsn : String) (current : Provenance) : Except Exn RestoreResult :=
  s.plane.restore json_loads turn_lsn current

end AgentTx.Kv
