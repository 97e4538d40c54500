import AgentTx.Gateway.Alone
import AgentTx.Gateway.Effects
import AgentTx.Gateway.Turn
import AgentTx.Lib.Text

/-!
# `Gateway.ExactlyOnce` — every effect of a turn takes place exactly once

In any number of attempts at a turn, each killed or stopped anywhere, the effects that have happened are
those of the first positions of the plan, in order and once each. The gateway's records follow: they are
level with the effects or, for a tool that works outside the database, one behind.

`Progress` is the invariant: what has happened outside, and which calls are recorded. `At` adds what the attempt
under way has returned. One lemma for each tool says that its effect keeps it (`receipt_spec`, `http_spec`, and for
a transactional tool the case of `callOk`), and `turnOk` carries it through the loop. A result is recorded as its
column holds it, so an answer from the row is the value of the effect only where the column gives that back
(`Answers`): `effects_exactly_once` says so, and `not_effects_exactly_once` is a charge whose result is a number.
-/

namespace AgentTx.Gateway.ExactlyOnce

variable {R S : Type}

section Contract

variable [Driver] (svc : IdempotentService S) (str : Json → String) (store session turn : String)
  (plan : List (SafeTool R S × Json)) (key : Nat → String) (e₀ : External R)

/-- Where a turn is: the effects that happened gave `vs`, and the calls before position `r` are recorded. -/
structure Progress (vs : List Json) (r : Nat) (d : Db R) (x : Outside S) : Prop where
  happened : Happened str store plan key e₀ vs (external svc store d x)
  recorded : ∀ o < r, ∃ row v, d.gw_keys (key o) = some row ∧ row.status = .committed ∧ vs[o]? = some v ∧
    Driver.text v = some row.result
  unrecorded : ∀ o, r ≤ o → o < plan.length → d.gw_keys (key o) = none
  level : vs.length = r ∨ vs.length = r + 1 ∧
    ∀ tool args, plan[r]? = some (tool, args) → (tool.tool svc str store).klass ≠ .transactional
  no_links : x.files.NoLinks

/-- The results returned so far are those of the effects. -/
def Returned (rs : List Result) (vs : List Json) : Prop :=
  ∀ o res, rs[o]? = some res → res.key = key o ∧ ∃ v, vs[o]? = some v ∧ Contract.Answers res v

/-- The first `o` positions are observed. -/
def Observed (o : Nat) (d : Db R) : Prop :=
  ∀ i < o, ⟨session, turn, .OBSERVATION_COMMITTED, key i⟩ ∈ d.wal

/-- The calls before `o` have returned `rs`, and `obs` of them are observed. -/
structure At (o obs : Nat) (rs : List Result) (vs : List Json) (r : Nat) (d : Db R) (x : Outside S) : Prop where
  progress : Progress svc str store plan key e₀ vs r d x
  behind : o ≤ r
  length : rs.length = o
  returned : Returned key rs vs
  observed : Observed session turn key obs d

def contract : Contract R (Outside S) where
  inv d x := ∃ vs r, Progress svc str store plan key e₀ vs r d x
  may _ _ _ _ := True
  may_refl _ _ := trivial

end Contract

section Attempts

variable [Driver]

variable {svc : IdempotentService S} {str : Json → String} {store session turn : String}
  {plan : List (SafeTool R S × Json)} {key : Nat → String} {e₀ : External R} {vs ws : List Json}
  {r o obs : Nat} {d d' : Db R} {x x' : Outside S} {rs : List Result} {tool : SafeTool R S} {args : Json}

/-! ## Progress

The number of calls that are recorded is at most one behind the number of effects: a tool that works in the database
records its effect with it, the others afterwards. That is all the room there is between the two. -/

theorem Progress.le_length (h : Progress svc str store plan key e₀ vs r d x) : r ≤ vs.length := by
  rcases h.level with hlevel | hlevel <;> omega

/-- The WAL says nothing about progress. -/
theorem Progress.wal (h : Progress svc str store plan key e₀ vs r d x) (wal : List WalRecord) :
    Progress svc str store plan key e₀ vs r { d with wal := wal } x :=
  ⟨h.happened, h.recorded, h.unrecorded, h.level, h.no_links⟩

/-- Nor does what is outside, but for the effects. -/
theorem Progress.outside (h : Progress svc str store plan key e₀ vs r d x)
    (hexternal : external svc store d x' = external svc store d x) (hlinks : x'.files.NoLinks) :
    Progress svc str store plan key e₀ vs r d x' := by
  refine ⟨?_, h.recorded, h.unrecorded, h.level, hlinks⟩
  rw [hexternal]
  exact h.happened

/-- The temporary file of a receipt is no effect. -/
theorem Progress.tmp {k : String} {fs : FileSys}
    (h : Progress svc str store plan key e₀ vs r d x)
    (hfs : x.files.OnlyAt (ReceiptTool.tmp store k) fs) :
    Progress svc str store plan key e₀ vs r d { x with files := fs } := by
  refine h.outside ?_ hfs.no_links
  unfold external
  congr 1
  funext name
  exact hfs.read (ReceiptTool.ne_tmp store k name)

/-- The state outside moves on by the effect of position `r`. -/
theorem Progress.effect {v : Json} (h : Progress svc str store plan key e₀ vs r d x)
    (hlen : vs.length = r) (hget : plan[r]? = some (tool, args))
    (hk : (tool.tool svc str store).klass ≠ .transactional)
    (hlinks : x'.files.NoLinks)
    (heff : Effect str store (key r) args (external svc store d x) tool v
      (external svc store d x')) :
    Progress svc str store plan key e₀ (vs ++ [v]) r d x' := by
  subst hlen
  refine ⟨h.happened.next hget heff, ?_, h.unrecorded, Or.inr ⟨by simp, ?_⟩, hlinks⟩
  · intro o ho
    obtain ⟨row, v', hrow, hst, hv', hstored⟩ := h.recorded o ho
    exact ⟨row, v', hrow, hst, by rw [List.getElem?_append_left ho, hv'], hstored⟩
  · intro tool' args' hget'
    rw [hget] at hget'
    cases hget'
    exact hk

/-- The call at position `r` is recorded, when its effect has happened. -/
theorem Progress.record {app : List R} {afp : String} {v : Json} {stored : Option String} {klass : ToolClass}
    (h : Progress svc str store plan key e₀ vs r d x)
    (hkey : Distinct plan.length key) (hr : r < plan.length) (hmore : vs <+: ws) (hlen : ws.length = r + 1)
    (hv : ws[r]? = some v) (hstored : Driver.text v = some stored)
    (hhappened : Happened str store plan key e₀ ws
      (external svc store { d with app := app } x)) :
    Progress svc str store plan key e₀ ws (r + 1)
      (Db.record { d with app := app } (key r) afp .committed klass stored) x := by
  have hnone : ({ d with app := app } : Db R).gw_keys (key r) = none :=
    h.unrecorded r (Nat.le_refl r) hr
  have hkeys : (Db.record { d with app := app } (key r) afp .committed klass stored).gw_keys =
      Function.update d.gw_keys (key r) (some ⟨some afp, .committed, klass, stored⟩) := by
    unfold Db.record
    rw [hnone]
  refine ⟨hhappened, ?_, ?_, Or.inl hlen, h.no_links⟩
  · -- the rows below stay, and their values are still in place in the longer list
    intro o ho
    rw [hkeys]
    by_cases hor : o = r
    · subst hor
      exact ⟨_, v, Function.update_self .., rfl, hv, hstored⟩
    · have ho' : o < r := by omega
      obtain ⟨row, v', hrow, hst, hv', hstored'⟩ := h.recorded o ho'
      refine ⟨row, v', ?_, hst, ?_, hstored'⟩
      · rw [Function.update_of_ne fun heq => hor (hkey o r (by omega) hr heq)]
        exact hrow
      · obtain ⟨more, rfl⟩ := hmore
        rw [List.getElem?_append_left (Nat.lt_of_lt_of_le ho' h.le_length), hv']
  · intro o hle hlt
    have hor : o ≠ r := by omega
    rw [hkeys, Function.update_of_ne fun heq => hor (hkey o r hlt hr heq)]
    exact h.unrecorded o (by omega) hlt

/-! ## Results

A call that is repeated answers from the row. `Returned` is what can be said of the answers of an attempt, whether
they come from effects or from rows. -/

theorem Returned.mono (h : Returned key rs vs) (hmore : vs <+: ws)
    (hlen : rs.length ≤ vs.length) : Returned key rs ws := by
  intro o res hres
  obtain ⟨hk, v, hv, hanswers⟩ := h o res hres
  obtain ⟨more, rfl⟩ := hmore
  have ho : o < vs.length := Nat.lt_of_lt_of_le (List.getElem?_eq_some_iff.mp hres).1 hlen
  exact ⟨hk, v, by rw [List.getElem?_append_left ho, hv], hanswers⟩

theorem Returned.snoc {res : Result} {v : Json} (h : Returned key rs vs) (hk : res.key = key rs.length)
    (hv : vs[rs.length]? = some v) (hanswers : Contract.Answers res v) : Returned key (rs ++ [res]) vs := by
  intro o res' hres'
  rcases Nat.lt_trichotomy o rs.length with ho | ho | ho
  · rw [List.getElem?_append_left ho] at hres'
    exact h o res' hres'
  · subst ho
    rw [List.getElem?_concat_length] at hres'
    cases hres'
    exact ⟨hk, v, hv, hanswers⟩
  · rw [List.getElem?_eq_none (by simp; omega)] at hres'
    cases hres'

/-- The values of the effects, where the column keeps them. -/
theorem Returned.values (h : Returned key rs vs) (hlen : rs.length = vs.length) (hkeeps : ∀ v ∈ vs, Driver.Keeps v) :
    rs.map Result.value = vs := by
  refine List.ext_getElem? fun o => ?_
  rw [List.getElem?_map]
  cases hres : rs[o]? with
  | none =>
    rw [List.getElem?_eq_none_iff, hlen] at hres
    rw [List.getElem?_eq_none hres, Option.map_none]
  | some res =>
    obtain ⟨-, v, hv, hanswers⟩ := h o res hres
    rw [Option.map_some, hv, hanswers.value_iff.2.mpr fun _ => hkeeps v (List.mem_of_getElem? hv)]

omit [Driver] in
theorem getElem?_snoc {v : Json} (h : vs.length = o) : (vs ++ [v])[o]? = some v := by
  subst h
  exact List.getElem?_concat_length

/-! ## The tools

Each of the three tools has one step that is its effect: the commit, the rename, and the request that is performed.
The other steps of its program leave the effects that can be seen as they are. -/

section Tools

variable (hkey : Distinct plan.length key) (h₀ : ∀ o < plan.length, Fresh (key o) e₀)

include hkey h₀

/-- The receipt of the call under way is there if its effect has happened. -/
theorem At.found (hget : plan[o]? = some (.receipt, args))
    (h : At svc str store session turn plan key e₀ o obs rs vs o d x) :
    if x.files.pathExists (ReceiptTool.final store (key o)) then
      vs.length = o + 1 ∧ vs[o]? = some (ReceiptTool.value store (key o))
    else vs.length = o := by
  have hlt : o < plan.length := (List.getElem?_eq_some_iff.mp hget).1
  have hread : (x.files.pathExists (ReceiptTool.final store (key o))) =
      ((external svc store d x).receipts (key o ++ ".receipt")).isSome := by
    show (x.files.dir _).isSome = ((x.files.dir _).map _).isSome
    rw [Option.isSome_map]
    rfl
  rw [hread]
  rcases h.progress.level with hlevel | ⟨hlevel, -⟩
  · rw [(h.progress.happened.fresh hkey h₀ o (by omega) hlt).receipt]
    exact hlevel
  · obtain ⟨vs', v, e, rfl, hlen, heff⟩ := h.progress.happened.last hlevel hget
    obtain ⟨rfl, hsome⟩ := heff.receipt_cases
    rw [if_pos hsome]
    exact ⟨hlevel, getElem?_snoc hlen⟩

omit hkey h₀ in
/-- The effect of the call under way happens. -/
theorem At.effect {v : Json} (h : At svc str store session turn plan key e₀ o obs rs vs o d x)
    (hlen : vs.length = o) (hprogress : Progress svc str store plan key e₀ (vs ++ [v]) o d x') :
    ∃ ws, At svc str store session turn plan key e₀ o obs rs ws o d x' ∧ ws.length = o + 1 ∧
      ws[o]? = some v := by
  have hmore : vs <+: vs ++ [v] := List.prefix_append _ _
  refine ⟨vs ++ [v], ⟨hprogress, h.behind, h.length, ?_, h.observed⟩, ?_, getElem?_snoc hlen⟩
  · exact h.returned.mono hmore (by rw [h.length, hlen])
  · rw [List.length_append, hlen]
    rfl

variable (svc str store session turn plan key e₀ o obs d rs) in
/-- The receipt is written to the temporary file `n`: the effect has not happened. -/
structure Writing (n : Nat) (bytes : List UInt8) (x : Outside S) : Prop where
  before : ∃ vs, At svc str store session turn plan key e₀ o obs rs vs o d x ∧ vs.length = o
  inode : x.files.dir (ReceiptTool.tmp store (key o)) = some n
  content : x.files.data n = bytes

omit hkey h₀ in
/-- A call on the temporary file is none on a receipt. -/
theorem At.tmp {fs : FileSys} (h : At svc str store session turn plan key e₀ o obs rs vs o d x)
    (hfs : x.files.OnlyAt (ReceiptTool.tmp store (key o)) fs) :
    At svc str store session turn plan key e₀ o obs rs vs o d { x with files := fs } :=
  ⟨h.progress.tmp hfs, h.behind, h.length, h.returned, h.observed⟩

omit hkey h₀ in
/-- The whole content goes to the temporary file. -/
theorem content_spec (n : Nat) (content : List UInt8) :
    ((contract svc str store plan key e₀).toolRules d).Triple ()
      (Writing svc str store session turn plan key e₀ o obs d rs n [])
      (Prog.writeBytes n 0 content : Prog Unit (Outside S) String Unit)
      (fun _ => Writing svc str store session turn plan key e₀ o obs d rs n content) fun _ _ => True := by
  have hbytes : ((contract svc str store plan key e₀).toolRules d).Triple ()
      (Writing svc str store session turn plan key e₀ o obs d rs n (content.take 0))
      (Prog.writeBytes n 0 content : Prog Unit (Outside S) String Unit)
      (fun _ => Writing svc str store session turn plan key e₀ o obs d rs n (content.take content.length))
      fun _ _ => True := by
    refine RelyGuarantee.Triple.writeBytes
      (F := fun k => Writing svc str store session turn plan key e₀ o obs d rs n (content.take k))
      (fun _ => Serial.stable_alone _) ?_
    rintro k b x hb - ⟨⟨vs, hat, hlen⟩, hn, hdata⟩ -
    have hat' := hat.tmp (FileSys.onlyAt_write hat.progress.no_links hn k [b])
    refine ⟨trivial, ⟨vs, o, hat'.progress⟩, ⟨vs, hat', hlen⟩, hn, ?_⟩
    show (x.files.write n k [b]).data n = _
    rw [FileSys.write_data_self, hdata, FileSys.overwrite_take hb]
  rw [List.take_length] at hbytes
  exact hbytes

omit hkey h₀ [Driver] in
/-- The rename puts a receipt there. -/
theorem external_replace {k : String} {fs : FileSys} {content : List UInt8}
    (hreplace : x.files.replace (ReceiptTool.tmp store k) (ReceiptTool.final store k) = some fs)
    (hread : x.files.read (ReceiptTool.tmp store k) = some content) :
    external svc store d { x with files := fs } = { external svc store d x with
      receipts := Function.update (external svc store d x).receipts (k ++ ".receipt") (some content) } := by
  unfold external
  congr 1
  funext name
  by_cases hname : name = k ++ ".receipt"
  · subst hname
    rw [Function.update_self]
    exact (FileSys.read_replace_self hreplace).trans hread
  · rw [Function.update_of_ne hname]
    exact FileSys.read_replace_of_ne hreplace (ReceiptTool.ne_tmp store k name)
      fun hp => hname (congrArg FsPath.name hp)

/-- **The rename is the effect.** -/
theorem Writing.renamed {n : Nat} {order : Json} {fs : FileSys} (hget : plan[o]? = some (.receipt, args))
    (horder : argument args "order" = .ok order)
    (h : Writing svc str store session turn plan key e₀ o obs d rs n (ReceiptTool.content str order) x)
    (hreplace : x.files.replace (ReceiptTool.tmp store (key o)) (ReceiptTool.final store (key o)) = some fs) :
    (∃ vs r, Progress svc str store plan key e₀ vs r d { x with files := fs }) ∧
      ∃ vs, At svc str store session turn plan key e₀ o obs rs vs o d { x with files := fs } ∧
        vs.length = o + 1 ∧ vs[o]? = some (ReceiptTool.value store (key o)) := by
  obtain ⟨vs, hat, hlen⟩ := h.before
  have hlt : o < plan.length := (List.getElem?_eq_some_iff.mp hget).1
  have hfresh := hat.progress.happened.fresh hkey h₀ o (by omega) hlt
  have hread : x.files.read (ReceiptTool.tmp store (key o)) = some (ReceiptTool.content str order) := by
    rw [FileSys.read, h.inode, Option.map_some, h.content]
  have hprogress : Progress svc str store plan key e₀ (vs ++ [ReceiptTool.value store (key o)]) o d
      { x with files := fs } :=
    hat.progress.effect hlen hget (by simp [SafeTool.tool, ReceiptTool]) (hat.progress.no_links.replace hreplace)
      (by rw [external_replace hreplace hread]; exact .receipt hfresh.receipt horder)
  exact ⟨⟨_, o, hprogress⟩, hat.effect hlen hprogress⟩

/-- **`ReceiptTool.effect`.** -/
theorem receipt_spec (hget : plan[o]? = some (.receipt, args)) (d : Db R) :
    ((contract svc str store plan key e₀).toolRules d).Triple ()
      (fun x => ∃ vs, At svc str store session turn plan key e₀ o obs rs vs o d x)
      (((.receipt : SafeTool R S).tool svc str store).effect (key o) args)
      (fun v x => ∃ vs, At svc str store session turn plan key e₀ o obs rs vs o d x ∧ vs.length = o + 1 ∧
        vs[o]? = some v) fun _ _ => True := by
  let writing := Writing svc str store session turn plan key e₀ o obs d rs
  -- the receipt is there exactly if this effect has happened
  have hexists : ((contract svc str store plan key e₀).toolRules d).Triple ()
      (fun x => ∃ vs, At svc str store session turn plan key e₀ o obs rs vs o d x)
      (Prog.pathExists (ReceiptTool.final store (key o)) : Prog Unit (Outside S) String Bool)
      (fun found x => ∃ vs, At svc str store session turn plan key e₀ o obs rs vs o d x ∧
        if found then vs.length = o + 1 ∧ vs[o]? = some (ReceiptTool.value store (key o)) else vs.length = o)
      fun _ _ => True := by
    refine RelyGuarantee.Triple.read (Serial.stable_alone _) (fun _ => trivial) ?_
    rintro x - ⟨vs, hat⟩ -
    exact ⟨vs, hat, hat.found hkey h₀ hget⟩
  refine hexists.bind fun found => ?_
  cases found with
  | true =>
    rintro x - ⟨vs, hat, hlen, hv⟩
    exact ⟨vs, hat, hlen, hv⟩
  | false =>
    -- it is written under its temporary name, which is no effect
    refine RelyGuarantee.Triple.bind (Q := fun n => writing n []) ?_ fun n => ?_
    · refine RelyGuarantee.Triple.step (Serial.stable_alone _) fun x n x' hx hat _ hact => ?_
      cases hact
      obtain ⟨vs, hat, hlen⟩ := hat
      have hat' := hat.tmp (FileSys.onlyAt_openTrunc hat.progress.no_links _)
      exact ⟨trivial, ⟨vs, o, hat'.progress⟩, ⟨vs, hat', hlen⟩, FileSys.openTrunc_dir_self _ _,
        FileSys.openTrunc_data_self _ _⟩
    refine RelyGuarantee.Triple.bind (Q := fun order x => argument args "order" = .ok order ∧ writing n [] x)
      ?_ fun order => ?_
    · exact .ofExcept (fun order horder x _ hx => ⟨horder, hx⟩) fun _ _ _ _ _ => trivial
    rintro x hx ⟨horder, hwriting⟩
    refine RelyGuarantee.Triple.bind (content_spec n (ReceiptTool.content str order)) (fun _ => ?_) x hx hwriting
    refine RelyGuarantee.Triple.bind (Q := fun _ => writing n (ReceiptTool.content str order)) ?_ fun _ => ?_
    · refine RelyGuarantee.Triple.modify (Serial.stable_alone _) ?_
      rintro x - ⟨⟨vs, hat, hlen⟩, hn, hdata⟩ -
      have hat' := hat.tmp (FileSys.onlyAt_fsync hat.progress.no_links n)
      exact ⟨trivial, ⟨vs, o, hat'.progress⟩, ⟨vs, hat', hlen⟩, hn, hdata⟩
    refine RelyGuarantee.Triple.bind (Q := fun _ x => ∃ vs,
      At svc str store session turn plan key e₀ o obs rs vs o d x ∧ vs.length = o + 1 ∧
        vs[o]? = some (ReceiptTool.value store (key o))) ?_ fun _ => fun _ _ h => h
    refine RelyGuarantee.Triple.replace (Serial.stable_alone _) (fun _ _ _ _ => ⟨trivial, trivial⟩) ?_
    exact fun x fs _ hwriting _ hreplace => ⟨trivial, hwriting.renamed hkey h₀ hget horder hreplace⟩

/-- The service has performed the request of the call under way: the effect has happened. -/
theorem At.performed {base_url : String} (hget : plan[o]? = some (.http base_url, args)) {q : Request}
    (h : At svc str store session turn plan key e₀ o obs rs vs o d x) (hq : q ∈ svc.performed x.service)
    (hqkey : q.key = key o) : vs.length = o + 1 ∧ vs[o]? = some q.result := by
  have hlt : o < plan.length := (List.getElem?_eq_some_iff.mp hget).1
  rcases h.progress.level with hlevel | ⟨hlevel, -⟩
  · exact absurd hqkey ((h.progress.happened.fresh hkey h₀ o (by omega) hlt).request q hq)
  · obtain ⟨vs', v, e, rfl, hlen, heff⟩ := h.progress.happened.last hlevel hget
    obtain ⟨hrequests, hfresh⟩ := heff.request_cases
    have hmem : q ∈ e.requests ++ [⟨base_url ++ "/charge", key o, v⟩] := by
      rw [← hrequests]
      exact hq
    rcases List.mem_append.mp hmem with hmem | hmem
    · exact absurd hqkey (hfresh q hmem)
    · rw [List.mem_singleton.mp hmem]
      exact ⟨hlevel, getElem?_snoc hlen⟩

omit hkey h₀ in
/-- The service has not: nor has the effect happened. -/
theorem At.unperformed {base_url : String} (hget : plan[o]? = some (.http base_url, args))
    (h : At svc str store session turn plan key e₀ o obs rs vs o d x)
    (hnew : ∀ q ∈ svc.performed x.service, q.url = base_url ++ "/charge" → q.key ≠ key o) : vs.length = o := by
  rcases h.progress.level with hlevel | ⟨hlevel, -⟩
  · exact hlevel
  · obtain ⟨vs', v, e, rfl, -, heff⟩ := h.progress.happened.last hlevel hget
    obtain ⟨hrequests, -⟩ := heff.request_cases
    have hmem : ⟨base_url ++ "/charge", key o, v⟩ ∈ svc.performed x.service := by
      rw [show svc.performed x.service = _ from hrequests]
      exact List.mem_append_right _ (List.mem_singleton.mpr rfl)
    exact absurd rfl (hnew _ hmem rfl)

/-- **The request.** The service performs it, if it has not performed it before. -/
theorem At.posted {base_url : String} (hget : plan[o]? = some (.http base_url, args))
    (h : At svc str store session turn plan key e₀ o obs rs vs o d x) :
    let post := svc.post (base_url ++ "/charge") (key o) x.service
    let x' : Outside S := { x with service := post.2 }
    (∃ vs r, Progress svc str store plan key e₀ vs r d x') ∧ ∀ v, post.1 = some v →
      ∃ vs, At svc str store session turn plan key e₀ o obs rs vs o d x' ∧ vs.length = o + 1 ∧
        vs[o]? = some v := by
  intro post x'
  have hlt : o < plan.length := (List.getElem?_eq_some_iff.mp hget).1
  have hanswer := svc.answers (base_url ++ "/charge") (key o) x.service
  -- the service has performed the request before, or performs it now
  rcases svc.once (base_url ++ "/charge") (key o) x.service with hsame | ⟨hnew, result, hperformed⟩
  · -- it has: nothing changes
    have hexternal : external svc store d x' = external svc store d x := by
      unfold external
      congr 1
    have hprogress := h.progress.outside hexternal h.progress.no_links
    refine ⟨⟨vs, o, hprogress⟩, fun v hv => ?_⟩
    have hmem := hanswer v hv
    rw [hsame] at hmem
    obtain ⟨hlen, hget'⟩ := h.performed hkey h₀ hget hmem rfl
    exact ⟨vs, ⟨hprogress, h.behind, h.length, h.returned, h.observed⟩, hlen, hget'⟩
  · have hlen : vs.length = o := h.unperformed hget hnew
    have hfresh := h.progress.happened.fresh hkey h₀ o (by omega) hlt
    have hexternal : external svc store d x' = { external svc store d x with
        requests := (external svc store d x).requests ++ [⟨base_url ++ "/charge", key o, result⟩] } := by
      unfold external
      congr 1
    have hprogress : Progress svc str store plan key e₀ (vs ++ [result]) o d x' :=
      h.progress.effect hlen hget (by simp [SafeTool.tool, HttpIdempotentTool]) h.progress.no_links
        (by rw [hexternal]; exact .request hfresh.request)
    refine ⟨⟨_, o, hprogress⟩, fun v hv => ?_⟩
    have hmem := hanswer v hv
    rw [hperformed] at hmem
    rcases List.mem_append.mp hmem with hmem | hmem
    · exact absurd rfl (hfresh.request _ hmem)
    · have hresult : v = result := congrArg Request.result (List.mem_singleton.mp hmem)
      rw [hresult]
      exact h.effect hlen hprogress

/-- **`HttpIdempotentTool.effect`.** -/
theorem http_spec {base_url : String} (hget : plan[o]? = some (.http base_url, args)) (d : Db R) :
    ((contract svc str store plan key e₀).toolRules d).Triple ()
      (fun x => ∃ vs, At svc str store session turn plan key e₀ o obs rs vs o d x)
      (((.http base_url : SafeTool R S).tool svc str store).effect (key o) args)
      (fun v x => ∃ vs, At svc str store session turn plan key e₀ o obs rs vs o d x ∧ vs.length = o + 1 ∧
        vs[o]? = some v) fun _ _ => True := by
  refine RelyGuarantee.Triple.bind (Q := fun answer x => ∀ v, answer = some v →
    ∃ vs, At svc str store session turn plan key e₀ o obs rs vs o d x ∧ vs.length = o + 1 ∧ vs[o]? = some v)
    ?_ fun answer => ?_
  · refine RelyGuarantee.Triple.step (Serial.stable_alone _) fun x answer x' hx hat _ hact => ?_
    cases hact
    obtain ⟨vs, hat⟩ := hat
    exact ⟨trivial, hat.posted hkey h₀ hget⟩
  · exact .ofOption (fun v hv x _ hx => hx v hv) fun _ _ _ _ => trivial

/-! ## A call

The position of the call is `o`; the calls before it are recorded. Its row is there exactly if the call has been
recorded too, and then nothing else happens. -/

variable (svc str store session turn plan key e₀) in
/-- What is known at each stage of the call at position `o`. -/
def phases (o : Nat) (rs : List Result) : Contract.Phases R (Outside S) where
  before d x := ∃ vs r, At svc str store session turn plan key e₀ o o rs vs r d x
  ready d x := ∃ vs, At svc str store session turn plan key e₀ o o rs vs o d x
  prepared _ _ := False
  starting d x := ∃ vs, At svc str store session turn plan key e₀ o o rs vs o d x
  effected v d x := ∃ vs, At svc str store session turn plan key e₀ o o rs vs o d x ∧ vs.length = o + 1 ∧
    vs[o]? = some v
  undoing _ _ := False
  undone _ _ := False
  after res d x := ∃ vs r, At svc str store session turn plan key e₀ (o + 1) o (rs ++ [res]) vs r d x

omit hkey h₀ in
/-- A call finds its key recorded as committed, or not at all. -/
theorem At.row {row : KeyRow} (h : At svc str store session turn plan key e₀ o obs rs vs r d x)
    (hlt : o < plan.length) (hrow : d.gw_keys (key o) = some row) :
    o < r ∧ row.status = .committed ∧ ∃ v, vs[o]? = some v ∧ Driver.text v = some row.result := by
  rcases Nat.lt_or_ge o r with hor | hor
  · obtain ⟨row', v, hrow', hst, hv, hstored⟩ := h.progress.recorded o hor
    rw [hrow] at hrow'
    cases hrow'
    exact ⟨hor, hst, v, hv, hstored⟩
  · rw [h.progress.unrecorded o hor hlt] at hrow
    cases hrow

omit h₀ in
/-- The call is recorded, and returns. -/
theorem At.record {app : List R} {afp : String} {v : Json} {stored : Option String} {klass : ToolClass}
    (h : At svc str store session turn plan key e₀ o obs rs vs o d x) (hlt : o < plan.length)
    (hmore : vs <+: ws) (hlen : ws.length = o + 1) (hv : ws[o]? = some v) (hstored : Driver.text v = some stored)
    (hhappened : Happened str store plan key e₀ ws (external svc store { d with app := app } x)) :
    At svc str store session turn plan key e₀ (o + 1) obs (rs ++ [⟨.committed, v, key o, klass⟩]) ws (o + 1)
      (Db.record { d with app := app } (key o) afp .committed klass stored) x := by
  refine ⟨h.progress.record hkey hlt hmore hlen hv hstored hhappened, Nat.le_refl _, ?_, ?_, h.observed⟩
  · rw [List.length_append, h.length]
    rfl
  · have hbehind := h.progress.le_length
    refine (h.returned.mono hmore (by rw [h.length]; exact hbehind)).snoc ?_ ?_ (Or.inl ⟨rfl, rfl⟩)
    · rw [h.length]
    · rw [h.length, hv]

theorem callOk (hget : plan[o]? = some (tool, args)) (afp : String) :
    Contract.CallOk (contract svc str store plan key e₀) (tool.tool svc str store) (key o) afp args
      (phases svc str store session turn plan key e₀ o rs) fun _ _ => True := by
  have hlt : o < plan.length := (List.getElem?_eq_some_iff.mp hget).1
  have hk : (tool.tool svc str store).klass = .transactional ∨ (tool.tool svc str store).klass = .overlay ∨
      (tool.tool svc str store).klass = .idempotent := tool.klass
  have hcomp : (tool.tool svc str store).klass ≠ .compensatable := by
    rcases hk with hk | hk | hk <;> simp [hk]
  have hirr : (tool.tool svc str store).klass ≠ .irreversible := by
    rcases hk with hk | hk | hk <;> simp [hk]
  constructor
  case raises => exact fun _ _ _ => trivial
  case mismatch => exact fun _ _ _ _ _ _ => trivial
  case new =>
    rintro d x - ⟨vs, r, hat⟩ hnone
    rcases Nat.eq_or_lt_of_le hat.behind with hor | hor
    · subst hor
      exact ⟨vs, hat⟩
    · obtain ⟨row, _, hrow, -⟩ := hat.progress.recorded o hor
      rw [hnone] at hrow
      cases hrow
  case found =>
    rintro d x row - ⟨vs, r, hat⟩ - hrow -
    obtain ⟨hor, hst, v, hv, hstored⟩ := hat.row hlt hrow
    -- a row is there when it is committed, and not before
    simp only [Contract.Phases.found, hst]
    refine ⟨vs, r, hat.progress, hor, ?_, ?_, hat.observed⟩
    · rw [List.length_append, hat.length]
      rfl
    · refine hat.returned.snoc ?_ (hat.length.symm ▸ hv) (Or.inr ⟨rfl, _, hstored, rfl⟩)
      rw [hat.length]
  case compensate => exact fun hc => absurd hc hcomp
  case undo => exact fun hc => absurd hc hcomp
  case db_effect =>
    rintro htx d x v rows stored - ⟨vs, hat⟩ heffect hstored
    -- the effect has not happened: it happens with its record
    have hlen : vs.length = o := by
      rcases hat.progress.level with hlevel | ⟨-, hne⟩
      · exact hlevel
      · exact absurd htx (hne tool args hget)
    cases tool with
    | receipt => cases htx
    | http base_url => cases htx
    | transactional tool hk =>
      have hhappened : Happened str store plan key e₀ (vs ++ [v])
          (external svc store { d with app := d.app ++ rows } x) := by
        subst hlen
        exact hat.progress.happened.next hget (.rows heffect)
      have hat' : At svc str store session turn plan key e₀ (o + 1) o
          (rs ++ [⟨.committed, v, key o, .transactional⟩]) (vs ++ [v]) (o + 1)
          (Db.record { d with app := d.app ++ rows } (key o) afp .committed .transactional stored) x :=
        hat.record hkey hlt (List.prefix_append vs [v]) (by rw [List.length_append, hlen]; rfl)
          (getElem?_snoc hlen) hstored hhappened
      exact ⟨⟨_, _, hat'.progress⟩, trivial, _, _, hat'⟩
  case prepare => exact fun hc => absurd hc hcomp
  case begin => exact fun hc => absurd hc hcomp
  case intend => exact fun hi => absurd hi hirr
  case direct => exact fun _ _ _ d x _ hr => hr
  case effect =>
    intro htx
    refine Contract.outside_alone (fun d => ?_) fun _ _ => trivial
    cases tool with
    | transactional tool hk' => exact absurd hk' htx
    | receipt => exact receipt_spec hkey h₀ hget d
    | http base_url => exact http_spec hkey h₀ hget d
  case finish =>
    rintro htx v stored hstored d x - ⟨vs, hat, hlen, hv⟩
    have hat' : At svc str store session turn plan key e₀ (o + 1) o
        (rs ++ [⟨.committed, v, key o, (tool.tool svc str store).klass⟩]) vs (o + 1)
        (d.record (key o) afp .committed (tool.tool svc str store).klass stored) x :=
      hat.record hkey hlt (List.prefix_refl vs) hlen hv hstored hat.progress.happened
    exact ⟨⟨_, _, hat'.progress⟩, trivial, _, _, hat'⟩

/-! ## A turn

By induction on the positions to come, in the rule for `run_turn`; an observation is appended after each call. -/

omit hkey h₀ in
/-- Another record in the WAL. -/
theorem At.append (h : At svc str store session turn plan key e₀ o obs rs vs r d x) (rec : WalRecord) :
    At svc str store session turn plan key e₀ o obs rs vs r { d with wal := d.wal ++ [rec] } x :=
  ⟨h.progress.wal _, h.behind, h.length, h.returned, fun i hi => List.mem_append_left _ (h.observed i hi)⟩

omit hkey h₀ in
/-- The observation of the call that has returned last. -/
theorem At.observe {res : Result}
    (h : At svc str store session turn plan key e₀ (o + 1) o (rs ++ [res]) vs r d x) :
    At svc str store session turn plan key e₀ (o + 1) (o + 1) (rs ++ [res]) vs r
      { d with wal := d.wal ++ [⟨session, turn, .OBSERVATION_COMMITTED, res.key⟩] } x := by
  have hres : (rs ++ [res])[o]? = some res := by
    have hlen := h.length
    rw [List.length_append] at hlen
    obtain rfl : rs.length = o := Nat.succ.inj hlen
    exact List.getElem?_concat_length
  refine ⟨h.progress.wal _, h.behind, h.length, h.returned, fun i hi => ?_⟩
  rcases Nat.eq_or_lt_of_le (Nat.le_of_lt_succ hi) with hi | hi
  · subst hi
    refine List.mem_append_right _ (List.mem_singleton.mpr ?_)
    rw [(h.returned i res hres).1]
  · exact List.mem_append_left _ (h.observed i hi)

theorem turnOk {cid : String} (hcid : ∀ o : Nat, key o = action_id session turn cid o) :
    Contract.TurnOk (contract svc str store plan key e₀) session turn (tools svc str store plan) cid
      (fun d x => ∃ vs r, Progress svc str store plan key e₀ vs r d x)
      (fun o rs d x => ∃ vs r, At svc str store session turn plan key e₀ o o rs vs r d x)
      (fun o rs res d x => ∃ vs r, At svc str store session turn plan key e₀ (o + 1) o (rs ++ [res]) vs r d x)
      (fun rs d x => ∃ vs r,
        At svc str store session turn plan key e₀ plan.length plan.length rs vs r d x)
      fun _ _ => True := by
  have hstart : ∀ {vs r d x}, Progress svc str store plan key e₀ vs r d x →
      At svc str store session turn plan key e₀ 0 0 [] vs r d x :=
    fun h => ⟨h, Nat.zero_le _, rfl, nofun, nofun⟩
  constructor
  case crash => exact fun _ => trivial
  case begun =>
    rintro d x - ⟨vs, r, h⟩ -
    exact ⟨vs, r, hstart h⟩
  case begin =>
    rintro d x - ⟨⟨vs, r, h⟩, -⟩
    exact ⟨⟨vs, r, h.wal _⟩, trivial, vs, r, hstart (h.wal _)⟩
  case prepare =>
    rintro o rs t args - d x - ⟨⟨vs, r, hat⟩, -⟩
    exact ⟨⟨vs, r, hat.progress.wal _⟩, trivial, vs, r, hat.append _⟩
  case call =>
    intro o rs t args hget
    obtain ⟨tool, hget', rfl⟩ := getElem?_tools hget
    have hcall : (contract svc str store plan key e₀).rules.Triple ()
        (Contract.Settled (phases svc str store session turn plan key e₀ o rs).before)
        (call (tool.tool svc str store) args session turn o cid)
        (fun res => Contract.Settled ((phases svc str store session turn plan key e₀ o rs).after res))
        fun _ _ => True := by
      refine Contract.call (fun afp _ => ?_) fun _ => trivial
      rw [← hcid o]
      exact callOk hkey h₀ hget' afp
    exact hcall
  case observe =>
    rintro o rs res - d x - ⟨⟨vs, r, hat⟩, -⟩
    exact ⟨⟨vs, r, hat.progress.wal _⟩, trivial, vs, r, hat.observe⟩
  case ended =>
    rintro rs d x - ⟨vs, r, hat⟩ -
    rw [length_tools] at hat
    exact ⟨vs, r, hat⟩
  case end_ =>
    rintro rs d x - ⟨⟨vs, r, hat⟩, -⟩
    rw [length_tools] at hat
    exact ⟨⟨vs, r, hat.progress.wal _⟩, trivial, vs, r, hat.append _⟩

end Tools

/-! ## Runs

The keys of a turn have to differ and to be unused; then its effects are fresh (`Happened.fresh`), and the invariant
holds of the start. -/

/-- The key of the call at position `o` of the turn. -/
def keyOf (session turn : String) (plan : List (Tool R (Outside S) × Json)) (o : Nat) : String :=
  action_id session turn ((commit_id_of (planJson plan)).getD "") o

/-- `sha256` does not collide on what identifies the actions of the turn. -/
def NoCollision (session turn : String) (plan : List (Tool R (Outside S) × Json)) : Prop :=
  ∀ cid, commit_id_of (planJson plan) = some cid →
    Set.InjOn sha256 {text | ∃ o < plan.length, text = action_text session turn cid (o : Int)}

omit [Driver] in
theorem action_text_injective {s t cid : String} {i j : Nat}
    (h : action_text s t cid (i : Int) = action_text s t cid (j : Int)) : i = j := by
  have hlist := congrArg String.toList h
  unfold action_text at hlist
  simp only [String.toList_append] at hlist
  have hnum := String.toList_inj.mp (List.append_cancel_left hlist)
  exact Int.ofNat.inj (Text.int_injective hnum)

/-- What a turn starts from: nothing of it has been done. -/
structure Start (svc : IdempotentService S) (store : String) (length : Nat) (key : Nat → String)
    (w : World R (Outside S)) : Prop where
  idle : w.working = w.committed
  unrecorded : ∀ o < length, w.committed.gw_keys (key o) = none
  fresh : ∀ o < length, Fresh (key o) (external svc store w.committed w.ext)
  no_links : w.ext.files.NoLinks

/-- **Every effect of a turn takes place exactly once**, in any number of attempts. In every state that is
    reached, the effects of the first positions have happened, each once; when an attempt has returned,
    all of them have, and every position is observed. The value it returned for a position is the value of the
    effect, unless it comes from the row of an attempt before and the column has not kept it. -/
theorem effects_exactly_once (svc : IdempotentService S) (str : Json → String) (store session turn : String)
    (plan : List (SafeTool R S × Json)) (hsha : NoCollision session turn (tools svc str store plan))
    (w₀ : World R (Outside S))
    (h₀ : Start svc store plan.length (keyOf session turn (tools svc str store plan)) w₀)
    (c : Serial.State Stmt (World R (Outside S)) Exn (List Result))
    (hc : (attempts session turn (tools svc str store plan)).Reachable (fun _ _ => True) (· = w₀) c) :
    let key := keyOf session turn (tools svc str store plan)
    let happened (vs : List Json) : Prop := Happened str store plan key
      (external svc store w₀.committed w₀.ext) vs (external svc store c.shared.committed c.shared.ext)
    (∃ vs, happened vs) ∧
    ∀ results, c.proc = some (.ret results) → ∃ vs, happened vs ∧ vs.length = plan.length ∧
      (results.length = plan.length ∧ ∀ o res, results[o]? = some res → res.key = key o ∧
        (res.status = .committed ∨ res.status = .dedup_hit) ∧
        ∃ v, vs[o]? = some v ∧ (res.value = v ↔ res.status = .dedup_hit → Driver.Keeps v)) ∧
      ((∀ v ∈ vs, Driver.Keeps v) → results.map Result.value = vs) ∧
      Observed session turn key plan.length c.shared.committed := by
  intro key happened
  let e₀ := external svc store w₀.committed w₀.ext
  have hturn : (contract svc str store plan key e₀).rules.Triple ()
      (Contract.Settled fun d x => ∃ vs r, Progress svc str store plan key e₀ vs r d x)
      (run_turn session turn (tools svc str store plan))
      (fun rs => Contract.Settled fun d x => ∃ vs r,
        At svc str store session turn plan key e₀ plan.length plan.length rs vs r d x) fun _ _ => True := by
    have hkey : ∀ cid, commit_id_of (planJson (tools svc str store plan)) = some cid →
        ∀ o : Nat, key o = action_id session turn cid o := by
      intro cid hcid o
      show action_id session turn ((commit_id_of (planJson (tools svc str store plan))).getD "") o = _
      rw [hcid]
      rfl
    -- two positions of one plan have two keys, since SHA-256 is assumed not to collide on their texts
    have hdistinct : ∀ cid, commit_id_of (planJson (tools svc str store plan)) = some cid →
        Distinct plan.length key := by
      intro cid hcid i j hi hj hij
      rw [hkey cid hcid, hkey cid hcid] at hij
      exact action_text_injective
        (hsha cid hcid ⟨i, by rwa [length_tools], rfl⟩ ⟨j, by rwa [length_tools], rfl⟩ hij)
    exact Contract.run_turn (fun _ => trivial) fun cid hcid =>
      turnOk (hdistinct cid hcid) h₀.fresh (hkey cid hcid)
  have hverified := Contract.verified (fun _ _ h => h) hturn
  have hstart : Progress svc str store plan key e₀ [] 0 w₀.committed w₀.ext :=
    ⟨.start, nofun, fun o _ ho => h₀.unrecorded o ho, Or.inl rfl, h₀.no_links⟩
  have hinit : ∀ w, w = w₀ → (contract svc str store plan key e₀).rules.Inv w ∧
      Contract.Settled (fun d x => ∃ vs r, Progress svc str store plan key e₀ vs r d x) w := by
    rintro w rfl
    exact ⟨⟨[], 0, hstart⟩, h₀.idle, [], 0, hstart⟩
  constructor
  · obtain ⟨vs, r, hprogress⟩ := (hverified.stateOk hinit hc).1
    exact ⟨vs, hprogress.happened⟩
  · intro results hret
    obtain ⟨-, vs, r, hat⟩ := hverified.post hinit hc hret
    have hle := hat.progress.happened.length_le
    have hge := hat.progress.le_length
    -- no more effects than actions, and an answer for each
    have hlen : vs.length = plan.length := Nat.le_antisymm hle (Nat.le_trans hat.behind hge)
    refine ⟨vs, hat.progress.happened, hlen, ⟨hat.length, fun o res hres => ?_⟩,
      hat.returned.values (hat.length.trans hlen.symm), hat.observed⟩
    obtain ⟨hk, v, hv, hanswers⟩ := hat.returned o res hres
    exact ⟨hk, hanswers.value_iff.1, v, hv, hanswers.value_iff.2⟩

end Attempts

/-! A turn with two equal charges, a receipt and a request, run by one attempt. -/

local instance turnDriver : Driver := .sqlite

/-- `POST /charge` of `phase3/mock_service.py`. -/
def ledger : IdempotentService (List Request) where
  post url key s :=
    match s.find? fun q => q.url = url ∧ q.key = key with
    | some q => (some q.result, s)
    | none =>
        let result : Json := .str ("charge#" ++ toString (s.length + 1))
        (some result, s ++ [⟨url, key, result⟩])
  performed s := s
  once url key s := by
    cases hfind : s.find? fun q => q.url = url ∧ q.key = key with
    | some q => exact Or.inl rfl
    | none =>
      refine Or.inr ⟨fun q hq hurl hkey => ?_, _, rfl⟩
      have hnot := List.find?_eq_none.mp hfind q hq
      simp [hurl, hkey] at hnot
  answers url key s result h := by
    cases hfind : s.find? fun q => q.url = url ∧ q.key = key with
    | some q =>
      rw [hfind] at h
      cases h
      have hq := List.find?_some hfind
      obtain ⟨rfl, rfl⟩ : q.url = url ∧ q.key = key := by simpa using hq
      exact List.mem_of_find?_eq_some hfind
    | none =>
      rw [hfind] at h
      cases h
      exact List.mem_append_right _ (List.mem_singleton.mpr rfl)

/-- `str()` of a text. -/
def strText : Json → String
  | .str s => s
  | _ => ""

def order : Json := .obj [(.str "order", .str "O"), (.str "amount", .int 5)]

def mixed : List (SafeTool ChargeRow (List Request) × Json) :=
  [(.transactional (ChargeTool strText _) rfl, order), (.transactional (ChargeTool strText _) rfl, order),
    (.receipt, order), (.http "http://localhost", .obj [])]

def untouched : World ChargeRow (Outside (List Request)) :=
  settled ⟨fun _ => none, [], []⟩ ⟨.empty, []⟩ ⟨0, 0⟩

/-- The attempt publishes the receipt. -/
theorem run_receipt (key : String) : ∃ fs,
    ((ReceiptTool strText "/x" : Tool ChargeRow (Outside (List Request))).effect key order).run ⟨.empty, []⟩ =
      some (.ok (ReceiptTool.value "/x" key), ⟨fs, []⟩) := by
  let tmp := ReceiptTool.tmp "/x" key
  let opened := FileSys.empty.openTrunc tmp
  obtain ⟨fs₁, hwrite, hdir, -⟩ := Prog.run_writeBytes (τ := Unit) (ε := String) (FileSys.empty.openInode tmp)
    (ReceiptTool.content strText (.str "O")) 0 (⟨.empty, []⟩ : Outside (List Request)) opened
  have htmp : (fs₁.fsync (FileSys.empty.openInode tmp)).dir tmp = some (FileSys.empty.openInode tmp) := by
    rw [FileSys.fsync_dir, hdir]
    exact FileSys.openTrunc_dir_self _ _
  cases hr : (fs₁.fsync (FileSys.empty.openInode tmp)).replace tmp (ReceiptTool.final "/x" key) with
  | none =>
    rw [FileSys.replace_eq_none.mp hr] at htmp
    cases htmp
  | some fs =>
    refine ⟨fs, ?_⟩
    have hexists : (HasFiles.files Unit (⟨.empty, []⟩ : Outside (List Request))).pathExists
        (ReceiptTool.final "/x" key) = false := rfl
    have horder : argument order "order" = .ok (.str "O") := rfl
    simp [ReceiptTool, hexists, horder]
    refine Option.bind_eq_some_iff.mpr ⟨_, hwrite, ?_⟩
    have hreplace := Prog.run_replace (τ := Unit)
      (s := (⟨fs₁.fsync (FileSys.empty.openInode tmp), []⟩ : Outside (List Request))) hr "FileNotFoundError"
    simp only [Prog.andThen_ok, Prog.run_bind, Prog.run_fileCall, Option.bind_some]
    refine Option.bind_eq_some_iff.mpr ⟨_, hreplace, rfl⟩

/-- The digests of the four positions. -/
theorem distinct_mixed : ((commit_id_of (planJson (tools ledger strText "/x" mixed))).elim false fun cid =>
    ((List.range 4).map fun o : Nat => action_id "s" "t" cid o).Nodup) = true := by decide +kernel

theorem finishes_mixed {cid : String}
    (hcid : commit_id_of (planJson (tools ledger strText "/x" mixed)) = some cid)
    (hids : ((List.range 4).map fun o : Nat => action_id "s" "t" cid o).Nodup) :
    Finishes (run_turn "s" "t" (tools ledger strText "/x" mixed)) ⟨fun _ => none, [], []⟩ ⟨.empty, []⟩ 0 := by
  obtain ⟨afp, hafp⟩ : ∃ afp, args_fingerprint order = some afp := exists_args_fingerprint rfl
  obtain ⟨afp', hafp'⟩ : ∃ afp', args_fingerprint (.obj []) = some afp' := exists_args_fingerprint rfl
  have hne : ∀ i j : Nat, i < 4 → j < 4 → i ≠ j → action_id "s" "t" cid i ≠ action_id "s" "t" cid j := by
    intro i j hi hj hij heq
    exact hij (List.inj_on_of_nodup_map hids (List.mem_range.mpr hi) (List.mem_range.mpr hj) heq)
  have hcharge : ∀ key app, (ChargeTool strText (Outside (List Request))).db_effect key order app =
      .ok (.str "charged:O", [⟨.str "O", .int 5⟩]) := fun _ _ => rfl
  -- a text is stored as it is
  have hstored : ∀ s, Driver.text (.str s) = some (some s) := fun _ => rfl
  obtain ⟨fs, hreceipt⟩ := run_receipt (action_id "s" "t" cid (2 : Nat))
  obtain ⟨x, hhttp⟩ : ∃ x, ((HttpIdempotentTool ledger "http://localhost" :
      Tool ChargeRow (Outside (List Request))).effect (action_id "s" "t" cid (3 : Nat)) (.obj [])).run ⟨fs, []⟩ =
      some (.ok (.str ("charge#" ++ toString (0 + 1))), x) := ⟨_, rfl⟩
  refine finishes_run_turn hcid rfl ?_
  refine finishes_runActions_cons (run_call_new rfl rfl hafp rfl (hcharge _ _) (hstored _)) ?_
  refine finishes_runActions_cons (run_call_new rfl rfl hafp ?_ (hcharge _ _) (hstored _)) ?_
  · exact record_gw_keys_of_ne (hne 1 0 (by decide) (by decide) (by decide))
  refine finishes_runActions_cons (run_call_direct rfl (Or.inl rfl) hafp ?_ hreceipt (hstored _)) ?_
  · exact (record_gw_keys_of_ne (hne 2 1 (by decide) (by decide) (by decide))).trans
      (record_gw_keys_of_ne (hne 2 0 (by decide) (by decide) (by decide)))
  refine finishes_runActions_cons (run_call_direct rfl (Or.inr (Or.inl rfl)) hafp' ?_ hhttp (hstored _)) ?_
  · exact (record_gw_keys_of_ne (hne 3 2 (by decide) (by decide) (by decide))).trans
      ((record_gw_keys_of_ne (hne 3 1 (by decide) (by decide) (by decide))).trans
        (record_gw_keys_of_ne (hne 3 0 (by decide) (by decide) (by decide))))
  exact finishes_runActions_nil _ _

theorem effects_exactly_once_mixed : ∃ c results,
    (attempts "s" "t" (tools ledger strText "/x" mixed)).Reachable (fun _ _ => True) (· = untouched) c ∧
    c.proc = some (.ret results) ∧ results.length = 4 ∧
    ∃ vs, Happened strText "/x" mixed (keyOf "s" "t" (tools ledger strText "/x" mixed))
      (external ledger "/x" untouched.committed untouched.ext) vs
      (external ledger "/x" c.shared.committed c.shared.ext) ∧ vs.length = 4 := by
  have hids := distinct_mixed
  cases hcid : commit_id_of (planJson (tools ledger strText "/x" mixed)) with
  | none =>
    rw [hcid] at hids
    cases hids
  | some cid =>
    rw [hcid] at hids
    replace hids : ((List.range 4).map fun o : Nat => action_id "s" "t" cid o).Nodup := of_decide_eq_true hids
    obtain ⟨results, d, x, n, hrun⟩ := finishes_mixed hcid hids
    have hstart : (attempts "s" "t" (tools ledger strText "/x" mixed)).Reachable (fun _ _ => True) (· = untouched)
        ⟨untouched, none⟩ := Lts.Reachable.start ⟨rfl, rfl⟩
    have hdone := (hstart.begin rfl 0).run rfl (Prog.guarded_of_forall (fun _ _ => trivial) _ _) hrun
    have hsha : NoCollision "s" "t" (tools ledger strText "/x" mixed) := by
      rintro cid' hcid' _ ⟨i, hi, rfl⟩ _ ⟨j, hj, rfl⟩ heq
      rw [hcid] at hcid'
      cases hcid'
      rw [List.inj_on_of_nodup_map hids (List.mem_range.mpr hi) (List.mem_range.mpr hj) heq]
    have hfresh : Start ledger "/x" mixed.length (keyOf "s" "t" (tools ledger strText "/x" mixed)) untouched :=
      ⟨rfl, fun _ _ => rfl, fun _ _ => ⟨rfl, nofun⟩, nofun⟩
    obtain ⟨-, hret⟩ := effects_exactly_once ledger strText "/x" "s" "t" mixed hsha untouched hfresh _ hdone
    obtain ⟨vs, hhappened, hlen, ⟨hlength, -⟩, -⟩ := hret results rfl
    exact ⟨_, results, hdone, rfl, hlength, vs, hhappened, hlen⟩

/-! A tool whose result is a number, in a turn that is run and then recovered. -/

def counter : Tool Unit (Outside (List Request)) where
  name := "count"
  klass := .transactional
  db_effect _ _ _ := .ok (.int 7, [()])

def counting : List (SafeTool Unit (List Request) × Json) := [(.transactional counter rfl, .obj [])]

def uncounted : World Unit (Outside (List Request)) := settled ⟨fun _ => none, [], []⟩ ⟨.empty, []⟩ ⟨0, 0⟩

/-- The tables once the turn is finished. -/
def countedKeys (afp cid : String) : Table String KeyRow :=
  Function.update (fun _ => none) (action_id "s" "t" cid (.int 0))
    (some ⟨some afp, .committed, .transactional, some "7"⟩)

def counted (afp cid : String) : Db Unit where
  gw_keys := countedKeys afp cid
  wal := [⟨"s", "t", .BEGIN_TURN, ""⟩, ⟨"s", "t", .ACTION_PREPARED, "count"⟩,
    ⟨"s", "t", .OBSERVATION_COMMITTED, action_id "s" "t" cid (.int 0)⟩, ⟨"s", "t", .TURN_COMMITTED, ""⟩]
  app := [()]

/-- The first attempt returns 7. -/
theorem run_counting {cid afp : String} (hcid : commit_id_of (planJson (tools ledger strText "/x" counting)) = some cid)
    (hafp : args_fingerprint (.obj []) = some afp) :
    (run_turn "s" "t" (tools ledger strText "/x" counting)).run uncounted =
      some (.ok [⟨.committed, .int 7, action_id "s" "t" cid (.int 0), .transactional⟩],
        settled (counted afp cid) ⟨.empty, []⟩ ⟨6, 0⟩) := by
  have hcall : ∀ wal, (call counter (.obj []) "s" "t" 0 cid).run
      (settled ⟨fun _ => none, wal, []⟩ (⟨.empty, []⟩ : Outside (List Request)) ⟨2, 0⟩) = some (.ok _, _) :=
    fun _ => run_call_new rfl rfl hafp rfl rfl rfl
  unfold run_turn
  rw [hcid]
  have hname : counter.name = "count" := rfl
  simp [appendUnlessHas, run_tick, uncounted, counting, tools, SafeTool.tool, runActions, hname, hcall, record_new,
    counted]
  rfl

/-- The second one returns the text that the column holds. -/
theorem recover_counting {cid afp : String}
    (hcid : commit_id_of (planJson (tools ledger strText "/x" counting)) = some cid)
    (hafp : args_fingerprint (.obj []) = some afp) : ∃ w,
    (run_turn "s" "t" (tools ledger strText "/x" counting)).run (settled (counted afp cid) ⟨.empty, []⟩ ⟨0, 0⟩) =
      some (.ok [⟨.dedup_hit, .str "7", action_id "s" "t" cid (.int 0), .transactional⟩], w) := by
  have hrow : countedKeys afp cid (action_id "s" "t" cid (.int 0)) = some _ := Function.update_self ..
  have hcall : ∀ wal, (call counter (.obj []) "s" "t" 0 cid).run
      (settled ⟨countedKeys afp cid, wal, [()]⟩ (⟨.empty, []⟩ : Outside (List Request)) ⟨2, 0⟩) =
        some (.ok ⟨.dedup_hit, .str "7", action_id "s" "t" cid (.int 0), .transactional⟩, _) :=
    fun _ => run_call_dedup (r := ⟨some afp, .committed, .transactional, some "7"⟩) hafp hrow rfl rfl
  unfold run_turn
  rw [hcid]
  have hname : counter.name = "count" := rfl
  simp [appendUnlessHas, run_tick, counting, tools, SafeTool.tool, runActions, hname, hcall, counted]

/-- The value of a position is not always that of its effect. -/
theorem not_effects_exactly_once :
    ¬ ∀ (c : Serial.State Stmt (World Unit (Outside (List Request))) Exn (List Result)) results,
      (attempts "s" "t" (tools ledger strText "/x" counting)).Reachable (fun _ _ => True) (· = uncounted) c →
      c.proc = some (.ret results) →
      ∃ vs, Happened strText "/x" counting (keyOf "s" "t" (tools ledger strText "/x" counting))
        (external ledger "/x" uncounted.committed uncounted.ext) vs
        (external ledger "/x" c.shared.committed c.shared.ext) ∧ results.map Result.value = vs := by
  intro h
  obtain ⟨cid, hcid⟩ : ∃ cid, commit_id_of (planJson (tools ledger strText "/x" counting)) = some cid :=
    exists_commit_id rfl
  obtain ⟨afp, hafp⟩ : ∃ afp, args_fingerprint (.obj []) = some afp := exists_args_fingerprint rfl
  obtain ⟨w, hrecover⟩ := recover_counting hcid hafp
  have hstart : (attempts "s" "t" (tools ledger strText "/x" counting)).Reachable (fun _ _ => True) (· = uncounted)
      ⟨uncounted, none⟩ := Lts.Reachable.start ⟨rfl, rfl⟩
  have hcounted := ((hstart.begin rfl 0).run rfl (Prog.guarded_of_forall (fun _ _ => trivial) _ _)
    (run_counting hcid hafp)).halt rfl
  have hrecovered := (hcounted.begin rfl 0).run rfl (Prog.guarded_of_forall (fun _ _ => trivial) _ _) hrecover
  obtain ⟨vs, hhappened, hvs⟩ := h _ _ hrecovered rfl
  obtain ⟨vs', v, e, rfl, hlen, heff⟩ := hhappened.last (show vs.length = 0 + 1 by rw [← hvs]; rfl) rfl
  cases List.length_eq_zero_iff.mp hlen
  have hv : v = .str "7" := (List.singleton_inj.mp hvs).symm
  -- the effect gave 7
  obtain ⟨rows, heffect, -⟩ := heff.rows_cases
  rw [hv] at heffect
  cases heffect

end AgentTx.Gateway.ExactlyOnce
