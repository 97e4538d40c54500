import AgentTx.Dtx.Methods
import AgentTx.Lib.Prog.Files
import AgentTx.Lib.Text

/-!
# `Dtx.Files` — `do_overlay`, under any contract

Every call on files is public at once, so the contract answers for each of them. `Phases` is what is known
between two calls: before the receipt is published, while its temporary file is written, when it is
complete, published, ready to be recorded, and recorded.
-/

namespace AgentTx.Dtx

variable {ι : Type}

/-- `<store>/committed`. -/
def committedDir (store : String) : String := store ++ "/committed"

theorem overlay_ne_committed (store : String) : store ++ "/overlay" ≠ committedDir store := by
  intro h
  have hlist := congrArg String.toList h
  rw [committedDir, String.toList_append, String.toList_append] at hlist
  have hnames := List.append_cancel_left hlist
  revert hnames
  decide

theorem receipt_injective {store store' aid aid' : String} (h : DTX.receipt store aid = DTX.receipt store' aid') :
    aid = aid' := by
  have hname := congrArg (fun p => p.name.toList) h
  simp only [DTX.receipt, String.toList_append] at hname
  exact String.toList_inj.mp (List.append_cancel_right hname)

/-- The extensions differ. -/
theorem receipt_ne_temp {store store' aid aid' : String} {pid ep : Nat} :
    DTX.receipt store aid ≠ DTX.overlayTmp store' aid' pid ep := by
  intro h
  have hname : (aid ++ ".receipt").toList.getLast? = _ := congrArg (fun p => p.name.toList.getLast?) h
  simp only [DTX.overlayTmp, String.toList_append, List.getLast?_append] at hname
  have hlast : some 't' = some 'p' := hname
  cases hlast

theorem receipt_ne_overlayTmp (store aid aid' : String) (pid ep : Nat) :
    DTX.receipt store aid ≠ DTX.overlayTmp store aid' pid ep := receipt_ne_temp

theorem length_action_id (s t cid : String) (o : Ordinal) : (action_id s t cid o).toList.length = 64 :=
  Sha256.length_hexdigest _

/-- The fields of a temporary name, `<action_id>.<pid>.<epoch>.tmp`. -/
theorem overlayTmp_fields {store store' aid aid' : String} {pid pid' ep ep' : Nat}
    (hlen : aid.toList.length = aid'.toList.length)
    (h : DTX.overlayTmp store aid pid ep = DTX.overlayTmp store' aid' pid' ep') :
    aid = aid' ∧ pid = pid' ∧ ep = ep' := by
  have hname := congrArg (fun p => p.name.toList) h
  have hdot : ∀ n : Nat, '.' ∉ (toString n).toList := Text.notMem_nat (by decide)
  simp only [DTX.overlayTmp, String.toList_append, List.append_assoc] at hname
  obtain ⟨haid, hrest⟩ := List.append_inj hname hlen
  -- `.<pid>.<epoch>.tmp`: the fields hold digits only
  have hfields : (toString pid).toList ++ '.' :: ((toString ep).toList ++ '.' :: "tmp".toList) =
      (toString pid').toList ++ '.' :: ((toString ep').toList ++ '.' :: "tmp".toList) :=
    (List.cons.inj hrest).2
  obtain ⟨hpid, htail⟩ := Text.split_first (hdot pid) (hdot pid') hfields
  obtain ⟨hep, -⟩ := Text.split_first (hdot ep) (hdot ep') htail
  exact ⟨String.toList_inj.mp haid, Text.nat_injective (String.toList_inj.mp hpid),
    Text.nat_injective (String.toList_inj.mp hep)⟩

namespace Contract

variable [DecidableEq ι] [Driver] {C : Contract ι} {c : DTX ι} {pg : Bool} {i : ι} {F G : Public ι → Prop}
  {E : Exn → World ι → Prop}

omit [DecidableEq ι] [Driver] in
/-- A call on files. -/
theorem triple_file {α : Type} {t : FileCall} {act : World ι → Option (α × World ι)}
    {f : FileSys → α × FileSys} {Q : α → Public ι → Prop} {ws : List Write} {ls : List Lock}
    (hact : ∀ w, act w = some ((f w.files).1, { w with files := (f w.files).2 }))
    (hF : C.Keeps i ls F)
    (h : ∀ p, C.inv p → F p → C.ok i (.file t) p → C.inv (p.withFiles (f p.files).2) ∧
      C.may i p (p.withFiles (f p.files).2) ∧ Q (f p.files).1 (p.withFiles (f p.files).2)) :
    (C.rules pg).Triple i (At pg i ws ls F) (Prog.step (.file t) act)
      (fun a => At pg i ws ls (Q a)) E := by
  refine RelyGuarantee.Triple.step (stable_at hF) fun w a w' hw hat hok hw' => ?_
  rw [hact] at hw'
  cases hw'
  obtain ⟨hinv, hmay, hQ⟩ := h w.pub hw.2 hat.fact hok
  exact ⟨⟨fun j _ => ⟨.refl, rfl⟩, hmay⟩, ⟨hw.1, hinv⟩, ⟨hat.pending, hat.locks, hQ⟩⟩

/-- What is known at each stage of an overlay: `writing n k` is said of the first `k` bytes, in inode `n`. -/
structure Phases (ι : Type) where
  before : Public ι → Prop
  writing : Nat → Nat → Public ι → Prop
  written : Public ι → Prop
  published : Public ι → Prop
  ready : Public ι → Prop
  after : Public ι → Prop

/-- What the contract has to allow for an overlay, call by call. -/
structure OverlayOk (C : Contract ι) (x : DTX ι) (s t cid : String) (o : Ordinal) (args : Json) (ep : Nat)
    (store : String) (ph : Phases ι) : Prop where
  before : C.Keeps x.conn [] ph.before
  writing : ∀ n k, C.Keeps x.conn [] (ph.writing n k)
  written : C.Keeps x.conn [] ph.written
  published : C.Keeps x.conn [] ph.published
  ready : C.Keeps x.conn [] ph.ready
  after : C.Keeps x.conn [] ph.after
  exists_ : ∀ p, C.inv p → ph.before p →
    C.ok x.conn (.file (.pathExists (DTX.receipt store (action_id s t cid o)))) p →
    p.files.pathExists (DTX.receipt store (action_id s t cid o)) = true → ph.ready p
  open_ : ∀ p text, canonical_args args = some text → C.inv p → ph.before p →
    let tmp := DTX.overlayTmp store (action_id s t cid o) x.pid ep
    let p' := p.withFiles (p.files.openTrunc tmp)
    C.inv p' ∧ C.may x.conn p p' ∧ ph.writing (p.files.openInode tmp) 0 p'
  write : ∀ p text n k b, canonical_args args = some text → (Sha256.encode text)[k]? = some b →
    C.inv p → ph.writing n k p →
    let p' := p.withFiles (p.files.write n k [b])
    C.inv p' ∧ C.may x.conn p p' ∧ ph.writing n (k + 1) p'
  fsync : ∀ p text n, canonical_args args = some text → C.inv p →
    ph.writing n (Sha256.encode text).length p →
    let p' := p.withFiles (p.files.fsync n)
    C.inv p' ∧ C.may x.conn p p' ∧ ph.written p'
  replace : ∀ p fs, C.inv p → ph.written p →
    p.files.replace (DTX.overlayTmp store (action_id s t cid o) x.pid ep)
      (DTX.receipt store (action_id s t cid o)) = some fs →
    C.inv (p.withFiles fs) ∧ C.may x.conn p (p.withFiles fs) ∧ ph.published (p.withFiles fs)
  fsyncDir : ∀ p, C.inv p → ph.published p →
    let p' := p.withFiles (p.files.fsyncDir (store ++ "/committed"))
    C.inv p' ∧ C.may x.conn p p' ∧ ph.ready p'
  record : ∀ p afp, C.inv p → ph.ready p → args_fingerprint args = some afp →
    p.db.actions (action_id s t cid o) = none →
    let p' := p.commit [.insertAction (action_id s t cid o) (DTX.receiptRow s t o afp ep)]
    C.inv p' ∧ C.may x.conn p p' ∧ ph.after p'
  recorded : ∀ p, C.inv p → ph.ready p → (p.db.actions (action_id s t cid o)).isSome → ph.after p

variable {s t cid store text : String} {o : Ordinal} {args : Json} {ep : Nat} {ph : Phases ι}

/-- `_record_overlay`. -/
theorem record_overlay {afp : String} (hok : OverlayOk C c s t cid o args ep store ph)
    (hafp : args_fingerprint args = some afp) (hE : ∀ w, E .DataError w) :
    (C.rules c.pg).Triple c.conn (At c.pg c.conn [] [] ph.ready)
      (c.record_overlay s t (action_id s t cid o) o afp ep) (fun _ => At c.pg c.conn [] [] ph.after) E := by
  have hins : (C.rules c.pg).Triple c.conn (At c.pg c.conn [] [] ph.ready)
      (c.insert_action (action_id s t cid o) (DTX.receiptRow s t o afp ep)) _ E :=
    insert_action (H := fun p => ph.ready p ∧ p.db.actions (action_id s t cid o) = none) hok.ready (fun _ w _ => hE w)
      (fun p _ hr _ _ hnone => ⟨hr, hnone⟩) fun p hp hr _ _ hsome => hok.recorded p hp hr hsome
  refine hins.bind fun b => ?_
  cases b with
  | true =>
    have hkeeps : C.Keeps c.conn [.action (action_id s t cid o)] fun p =>
        ph.ready p ∧ p.db.actions (action_id s t cid o) = none :=
      (hok.ready.mono fun l hl => absurd hl List.not_mem_nil).and (keeps_action List.mem_cons_self none)
    exact commit hkeeps fun p hp hr => hok.record p afp hp hr.1 hafp hr.2
  | false => exact commit hok.after fun p hp ha => ⟨hp, C.may_refl _ _, ha⟩

omit [DecidableEq ι] [Driver] in
/-- `publish`. -/
theorem publish (hok : OverlayOk C c s t cid o args ep store ph) (htext : canonical_args args = some text) :
    (C.rules c.pg).Triple c.conn (At c.pg c.conn [] [] ph.before)
      (DTX.publish (DTX.overlayTmp store (action_id s t cid o) c.pid ep)
        (DTX.receipt store (action_id s t cid o)) text)
      (fun _ => At c.pg c.conn [] [] ph.published) fun _ _ => True := by
  refine RelyGuarantee.Triple.bind (Q := fun _ => At c.pg c.conn [] [] ph.written) ?_ fun _ => ?_
  · have hopen : (C.rules c.pg).Triple c.conn (At c.pg c.conn [] [] ph.before)
        (Prog.openTrunc (DTX.overlayTmp store (action_id s t cid o) c.pid ep))
        (fun n => At c.pg c.conn [] [] (ph.writing n 0)) fun _ _ => True :=
      triple_file (f := fun fs => (fs.openInode _, fs.openTrunc _)) (fun _ => rfl) hok.before
        fun p hp hf _ => hok.open_ p text htext hp hf
    refine hopen.bind fun n => ?_
    -- byte by byte, since another process may run between two of them
    have hbytes : (C.rules c.pg).Triple c.conn (At c.pg c.conn [] [] (ph.writing n 0))
        (Prog.writeBytes n 0 (Sha256.encode text))
        (fun _ => At c.pg c.conn [] [] (ph.writing n (Sha256.encode text).length)) fun (_ : Exn) _ => True := by
      refine RelyGuarantee.Triple.writeBytes (F := fun k => At c.pg c.conn [] [] (ph.writing n k))
        (fun k => stable_at (hok.writing n k)) ?_
      intro k b w hget hw hat _
      obtain ⟨hinv, hmay, hnext⟩ := hok.write w.pub text n k b htext hget hw.2 hat.fact
      exact ⟨⟨fun j _ => ⟨.refl, rfl⟩, hmay⟩, ⟨hw.1, hinv⟩, ⟨hat.pending, hat.locks, hnext⟩⟩
    refine hbytes.bind fun _ => ?_
    exact triple_file (f := fun fs => ((), fs.fsync n)) (fun _ => rfl) (hok.writing n _)
      fun p hp hw _ => hok.fsync p text n htext hp hw
  · -- a rename that fails changes nothing, and raises
    refine RelyGuarantee.Triple.replace (stable_at hok.written) (fun w _ _ _ => ?_) fun w fs hw hat _ hr => ?_
    · exact ⟨⟨fun j _ => ⟨.refl, rfl⟩, C.may_refl _ _⟩, trivial⟩
    · obtain ⟨hinv, hmay, hpub⟩ := hok.replace w.pub fs hw.2 hat.fact hr
      exact ⟨⟨fun j _ => ⟨.refl, rfl⟩, hmay⟩, ⟨hw.1, hinv⟩, ⟨hat.pending, hat.locks, hpub⟩⟩

/-- **`do_overlay`.** -/
theorem do_overlay (hok : OverlayOk C c s t cid o args ep store ph) :
    (C.rules c.pg).Triple c.conn (At c.pg c.conn [] [] ph.before) (c.do_overlay s t cid o args ep store)
      (fun _ => At c.pg c.conn [] [] ph.after) fun _ _ => True := by
  refine RelyGuarantee.Triple.bind (Q := fun afp w => args_fingerprint args = some afp ∧
    At c.pg c.conn [] [] ph.before w) ?_ fun afp => ?_
  · exact .ofOption (fun afp hafp w _ hat => ⟨hafp, hat⟩) fun _ _ _ _ => trivial
  intro w hw hpre
  obtain ⟨hafp, hat⟩ := hpre
  have hexists : (C.rules c.pg).Triple c.conn (At c.pg c.conn [] [] ph.before)
      (Prog.pathExists (DTX.receipt store (action_id s t cid o)))
      (fun b => At c.pg c.conn [] [] fun p => if b then ph.ready p else ph.before p)
      fun (_ : Exn) _ => True := by
    refine triple_file (f := fun fs => (fs.pathExists _, fs)) (fun _ => rfl) hok.before
      fun p hp hf hpok => ⟨hp, C.may_refl _ _, ?_⟩
    show if p.files.pathExists _ = true then ph.ready p else ph.before p
    split_ifs with hb
    · exact hok.exists_ p hp hf hpok hb
    · exact hf
  refine RelyGuarantee.Triple.bind hexists (fun b => ?_) w hw hat
  cases b with
  -- recovered: an earlier owner published and died before the row
  | true => exact (record_overlay hok hafp fun _ => trivial).bind fun _ => fun _ _ hat => hat
  | false =>
    refine RelyGuarantee.Triple.bind (Q := fun text w => canonical_args args = some text ∧
      At c.pg c.conn [] [] ph.before w) ?_ fun text => ?_
    · exact .ofOption (fun text htext w _ hat => ⟨htext, hat⟩) fun _ _ _ _ => trivial
    intro w hw hpre
    obtain ⟨htext, hat⟩ := hpre
    refine RelyGuarantee.Triple.bind (publish hok htext) (fun _ => ?_) w hw hat
    have hdir : (C.rules c.pg).Triple c.conn (At c.pg c.conn [] [] ph.published)
        (Prog.fsyncDir (store ++ "/committed")) (fun _ => At c.pg c.conn [] [] ph.ready)
        fun (_ : Exn) _ => True :=
      triple_file (f := fun fs => ((), fs.fsyncDir _)) (fun _ => rfl) hok.published
        fun p hp hpub _ => hok.fsyncDir p hp hpub
    refine hdir.bind fun _ => ?_
    exact (record_overlay hok hafp fun _ => trivial).bind fun _ => fun _ _ hat => hat

end Contract

end AgentTx.Dtx
