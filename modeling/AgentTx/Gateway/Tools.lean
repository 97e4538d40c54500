import AgentTx.Gateway.Protocol
import AgentTx.Lib.Prog.Files

/-!
# `Gateway.Tools` — the tools with an exactly-once mechanism (`agenttx/tools.py`)

The outside world of these tools is a file system and the services that they send requests to. `str` is
Python's `str()`.
-/

namespace AgentTx.Gateway

/-- The files, and the state of the services. -/
structure Outside (S : Type) where
  files : FileSys
  service : S

instance (S : Type) : HasFiles Unit (Outside S) where
  files := Outside.files
  setFiles x fs := { x with files := fs }
  tag _ := ()

instance (S : Type) : LawfulFiles Unit (Outside S) := ⟨fun _ _ => rfl, fun _ _ _ => rfl⟩

/-- `args[k]`, in a tool. -/
def argument (args : Json) (k : String) : Except String Json :=
  match subscript args k with
  | .ok v => .ok v
  | .error .KeyError => .error "KeyError"
  | .error _ => .error "TypeError"

/-! ## Rows -/

/-- A row of `charges`, with the values that were bound. -/
structure ChargeRow where
  order_id : Json
  amount : Json

/-- `ChargeTool`. -/
def ChargeTool [Driver] (str : Json → String) (X : Type) : Tool ChargeRow X where
  name := "charge"
  klass := .transactional
  db_effect _ args _ := do
    let order ← argument args "order"
    let amount ← argument args "amount"
    -- the `INSERT` raises for values that its columns do not take
    if billable order amount then
      pure (.str ("charged:" ++ str order), [⟨order, amount⟩])
    else
      .error "DataError"

/-! ## Receipts -/

namespace ReceiptTool

/-- `<store>/committed/<key>.receipt`. -/
def final (store key : String) : FsPath := ⟨store ++ "/committed", key ++ ".receipt"⟩

/-- `<store>/overlay/<key>.tmp`. -/
def tmp (store key : String) : FsPath := ⟨store ++ "/overlay", key ++ ".tmp"⟩

theorem ne_tmp (store key name : String) : (⟨store ++ "/committed", name⟩ : FsPath) ≠ tmp store key := by
  intro hp
  have hlist := congrArg (fun p => p.dir.toList) hp
  simp only [tmp, String.toList_append] at hlist
  exact absurd (List.append_cancel_left hlist) (by decide)

/-- The path of the receipt as one text. -/
def path (store key : String) : String := store ++ "/committed/" ++ key ++ ".receipt"

/-- The value returned. -/
def value (store key : String) : Json := .str (path store key)

/-- `f"{args['order']}\n"`. -/
def content (str : Json → String) (order : Json) : List UInt8 := Sha256.encode (str order ++ "\n")

end ReceiptTool

/-- `ReceiptTool`. -/
def ReceiptTool {R S : Type} (str : Json → String) (store : String) : Tool R (Outside S) where
  name := "receipt"
  klass := .overlay
  effect key args := do
    if ← Prog.pathExists (ReceiptTool.final store key) then
      pure (ReceiptTool.value store key)
    else
      let f ← Prog.openTrunc (ReceiptTool.tmp store key)
      -- the argument is looked up with the file open
      let order ← Prog.ofExcept (argument args "order")
      Prog.writeBytes f 0 (ReceiptTool.content str order)
      Prog.fileCall (.fsync f) fun fs => fs.fsync f
      Prog.replace "FileNotFoundError" (ReceiptTool.tmp store key) (ReceiptTool.final store key)
      pure (ReceiptTool.value store key)

/-! ## Requests -/

/-- An effect of a service: the URL and the `Idempotency-Key` it was performed for, and its result, which may be
    any JSON value. -/
structure Request where
  url : String
  key : String
  result : Json
  deriving DecidableEq

/-- Services with an `Idempotency-Key`. A request may go unanswered, performed or not. -/
structure IdempotentService (S : Type) where
  /-- a `POST` to this URL, with this key -/
  post : String → String → S → Option Json × S
  /-- the effects, in order -/
  performed : S → List Request
  /-- one effect a key -/
  once : ∀ url key s, performed (post url key s).2 = performed s ∨
    (∀ q ∈ performed s, q.url = url → q.key ≠ key) ∧
      ∃ result, performed (post url key s).2 = performed s ++ [⟨url, key, result⟩]
  /-- the answer is the result of that effect -/
  answers : ∀ url key s result, (post url key s).1 = some result →
    ⟨url, key, result⟩ ∈ performed (post url key s).2

/-- `HttpIdempotentTool`. -/
def HttpIdempotentTool {R S : Type} (svc : IdempotentService S) (base_url : String) : Tool R (Outside S) where
  name := "http_charge"
  klass := .idempotent
  effect key _ := do
    let answer ← Prog.step () fun x =>
      let r := svc.post (base_url ++ "/charge") key x.service
      some (r.1, { x with service := r.2 })
    Prog.ofOption "URLError" answer

end AgentTx.Gateway
