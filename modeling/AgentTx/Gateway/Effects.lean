import AgentTx.Gateway.Tools

/-!
# `Gateway.Effects` — what a turn does to the outside, said without the gateway

`External` is what the effects of tools can be seen in. `Happened plan … values e` says that `e` is the
state at the start and, after it, the effects of the first `values.length` positions of the plan, in
order, each once and each giving the value listed.
-/

namespace AgentTx.Gateway

variable {R S : Type}

/-- The application's rows, the committed receipts by their file name, and the requests performed. -/
structure External (R : Type) where
  rows : List R
  receipts : String → Option (List UInt8)
  requests : List Request

/-- The tools with an exactly-once mechanism: any transactional one, `ReceiptTool`, and
    `HttpIdempotentTool` for any service. -/
inductive SafeTool (R S : Type) where
  | transactional (tool : Tool R (Outside S)) (hk : tool.klass = .transactional)
  | receipt
  | http (base_url : String)

section Effects

variable (svc : IdempotentService S) (str : Json → String) (store : String)

def SafeTool.tool : SafeTool R S → Tool R (Outside S)
  | .transactional tool _ => tool
  | .receipt => ReceiptTool str store
  | .http base_url => HttpIdempotentTool svc base_url

/-- A plan, as the coordinator is given it. -/
def tools (plan : List (SafeTool R S × Json)) : List (Tool R (Outside S) × Json) :=
  plan.map fun step => (step.1.tool svc str store, step.2)

/-- The external state of a world. -/
def external (d : Db R) (x : Outside S) : External R where
  rows := d.app
  receipts name := x.files.read ⟨store ++ "/committed", name⟩
  requests := svc.performed x.service

/-- Nothing outside the database was done under this key. -/
structure Fresh (key : String) (e : External R) : Prop where
  receipt : e.receipts (key ++ ".receipt") = none
  request : ∀ q ∈ e.requests, q.key ≠ key

/-- The effect of a call under `key`, with the value it produces. A receipt and a request are new. -/
inductive Effect (key : String) (args : Json) (e : External R) : SafeTool R S → Json → External R → Prop
  | rows {tool : Tool R (Outside S)} {hk : tool.klass = .transactional} {v : Json} {rows : List R}
      (h : tool.db_effect key args e.rows = .ok (v, rows)) :
      Effect key args e (.transactional tool hk) v { e with rows := e.rows ++ rows }
  | receipt {order : Json} (hnew : e.receipts (key ++ ".receipt") = none)
      (horder : argument args "order" = .ok order) :
      Effect key args e .receipt (ReceiptTool.value store key)
        { e with
          receipts :=
            Function.update e.receipts (key ++ ".receipt") (some (ReceiptTool.content str order)) }
  | request {base_url : String} {v : Json} (hnew : ∀ q ∈ e.requests, q.key ≠ key) :
      Effect key args e (.http base_url) v
        { e with requests := e.requests ++ [⟨base_url ++ "/charge", key, v⟩] }

variable (plan : List (SafeTool R S × Json)) (key : Nat → String) (e₀ : External R)

/-- The effects of the first positions, in order, with the values they produced. -/
inductive Happened : List Json → External R → Prop
  | start : Happened [] e₀
  | next {vs : List Json} {e e' : External R} {tool : SafeTool R S} {args v : Json}
      (h : Happened vs e) (hget : plan[vs.length]? = some (tool, args))
      (heff : Effect str store (key vs.length) args e tool v e') : Happened (vs ++ [v]) e'

end Effects

variable {svc : IdempotentService S} {str : Json → String} {store : String}
  {plan : List (SafeTool R S × Json)} {key : Nat → String} {e₀ e e' : External R}
  {tool : SafeTool R S} {args v : Json} {k : String} {vs ws : List Json}

theorem SafeTool.klass (tool : SafeTool R S) : (tool.tool svc str store).klass = .transactional ∨
    (tool.tool svc str store).klass = .overlay ∨ (tool.tool svc str store).klass = .idempotent := by
  cases tool with
  | transactional tool hk => exact Or.inl hk
  | receipt => exact Or.inr (Or.inl rfl)
  | http base_url => exact Or.inr (Or.inr rfl)

@[simp] theorem length_tools : (tools svc str store plan).length = plan.length := by
  simp [tools]

/-- What a position of the plan holds. -/
theorem getElem?_tools {o : Nat} {t : Tool R (Outside S)} (h : (tools svc str store plan)[o]? = some (t, args)) :
    ∃ tool : SafeTool R S, plan[o]? = some (tool, args) ∧ t = tool.tool svc str store := by
  unfold tools at h
  rw [List.getElem?_map, Option.map_eq_some_iff] at h
  obtain ⟨⟨tool, args'⟩, hget, heq⟩ := h
  cases heq
  exact ⟨tool, hget, rfl⟩

/-! ## Inversion, tool by tool -/

theorem Effect.rows_cases {tool : Tool R (Outside S)} {hk : tool.klass = .transactional}
    (h : Effect str store k args e (.transactional tool hk) v e') :
    ∃ rows, tool.db_effect k args e.rows = .ok (v, rows) ∧ e'.rows = e.rows ++ rows := by
  cases h with
  | rows heffect => exact ⟨_, heffect, rfl⟩

theorem Effect.receipt_cases (h : Effect str store k args e (.receipt : SafeTool R S) v e') :
    v = ReceiptTool.value store k ∧ (e'.receipts (k ++ ".receipt")).isSome := by
  cases h with
  | receipt => exact ⟨rfl, by simp⟩

theorem Effect.request_cases {base_url : String}
    (h : Effect str store k args e (.http base_url : SafeTool R S) v e') :
    e'.requests = e.requests ++ [⟨base_url ++ "/charge", k, v⟩] ∧ ∀ q ∈ e.requests, q.key ≠ k := by
  cases h with
  | request hnew => exact ⟨rfl, hnew⟩

/-! ## Order -/

theorem Happened.length_le (h : Happened str store plan key e₀ vs e) : vs.length ≤ plan.length := by
  cases h with
  | start => exact Nat.zero_le _
  | next h hget heff =>
    rw [List.length_append]
    exact (List.getElem?_eq_some_iff.mp hget).1

/-- The last effect. -/
theorem Happened.last {o : Nat} (h : Happened str store plan key e₀ ws e) (hlen : ws.length = o + 1)
    (hget : plan[o]? = some (tool, args)) :
    ∃ vs v e₁, ws = vs ++ [v] ∧ vs.length = o ∧ Effect str store (key o) args e₁ tool v e := by
  cases h with
  | start => cases hlen
  | @next vs e₁ _ tool' args' v h hget' heff =>
    obtain rfl : vs.length = o := by simpa using hlen
    rw [hget] at hget'
    cases hget'
    exact ⟨vs, v, e₁, rfl, rfl, heff⟩

theorem receiptName_injective {k k' : String} (h : k ++ ".receipt" = k' ++ ".receipt") : k = k' := by
  have hlist := congrArg String.toList h
  rw [String.toList_append, String.toList_append] at hlist
  exact String.toList_inj.mp (List.append_cancel_right hlist)

/-- An effect leaves the other keys fresh. -/
theorem Effect.fresh {k' : String} (h : Effect str store k args e tool v e') (hne : k' ≠ k)
    (hf : Fresh k' e) : Fresh k' e' := by
  cases h with
  | rows => exact ⟨hf.receipt, hf.request⟩
  | receipt =>
    refine ⟨?_, hf.request⟩
    show Function.update e.receipts _ _ _ = none
    rw [Function.update_of_ne fun heq => hne (receiptName_injective heq)]
    exact hf.receipt
  | request =>
    refine ⟨hf.receipt, fun q hq => ?_⟩
    rcases List.mem_append.mp hq with hq | hq
    · exact hf.request q hq
    · rw [List.mem_singleton.mp hq]
      exact Ne.symm hne

/-- The positions of a plan of this length have distinct keys. -/
def Distinct (length : Nat) (key : Nat → String) : Prop :=
  ∀ i j, i < length → j < length → key i = key j → i = j

/-- **The positions to come are fresh**, when the keys of the turn are distinct. -/
theorem Happened.fresh (hkey : Distinct plan.length key) (h₀ : ∀ o < plan.length, Fresh (key o) e₀)
    (h : Happened str store plan key e₀ vs e) :
    ∀ o, vs.length ≤ o → o < plan.length → Fresh (key o) e := by
  induction h with
  | start => exact fun o _ hlt => h₀ o hlt
  | @next vs e e' tool args v h hget heff ih =>
    intro o hle hlt
    rw [List.length_append] at hle
    have hle' : vs.length + 1 ≤ o := hle
    have hi : vs.length < plan.length := by omega
    refine heff.fresh (fun heq => ?_) (ih o (by omega) hlt)
    have hio := hkey o vs.length hlt hi heq
    omega

end AgentTx.Gateway
