import Mathlib.Data.List.Lattice
import Mathlib.Data.List.Pairwise
import AgentTx.Gateway.Effects
import AgentTx.Lib.Text
import AgentTx.Stack.Turn

/-!
# `Stack.Trials` — the fault matrix finds nothing

A trial kills attempts by their clock, damages the KV, and recovers until the client has its output: whatever the
random generator draws, one attempt that is not killed is enough (`trial_ends`). A trial leaves what later trials are
about as it was (`Fresh.after`), so that `main` counts no violation in any number of them (`main_passes`).
-/

namespace AgentTx.Stack

open Gateway (ReceiptTool)

variable {str : Json → String} {store order turn : String} {n₀ n : Node}

/-! ## A trial

The recovery loop of a trial goes on until the client has its output. It ends with the first attempt that is not
killed, and such an attempt comes: only the first two can be given a tick. -/

/-- Between the attempts of a trial. -/
structure Resting (str : Json → String) (store order turn : String) (n₀ n : Node) : Prop where
  sound : Sound turn str store order n₀ n
  idle : n.world.working = n.world.committed
  calm : ∃ k, Calm k n

/-- **An attempt** that the clock may kill; one that it does not comes to its end. -/
theorem attempt_ends (hne : receiptKey turn ≠ chargeKey turn) (corrupt : Bool) (kill : Nat)
    (h : Resting str store order turn n₀ n) :
    (attempt str store order turn corrupt kill).Ends
      (fun _ n' => Resting str store order turn n₀ n' ∧ (kill = 0 → n'.client.ack = OUT_LEN)) (fun _ _ => False) n := by
  obtain ⟨k, hcalm⟩ := h.calm
  let rest (n' : Node) : Prop :=
    Sound turn str store order n₀ n' ∧ Calm kill n' ∧ (kill = 0 → n'.client.ack = OUT_LEN)
  unfold attempt
  refine Prog.Ends.bind (Q := fun _ n' => Sound turn str store order n₀ n' ∧
    n'.world.working = n'.world.committed ∧ Calm kill n') ?_ ?_
  · rw [Prog.ends_modify]
    exact ⟨h.sound.world rfl rfl h.sound.kept fun _ hk => hk, h.idle, hcalm.plain, hcalm.blocks, rfl⟩
  rintro _ n₁ ⟨hsound, hidle, hcalm₁⟩
  have hends := turn_ends hne (corrupt && kill == 0) hsound hidle hcalm₁
  refine Prog.Ends.bind (Q := fun _ => rest) (Prog.Ends.tryCatch (hends.mono ?_ fun _ _ he => he) ?_) ?_
  · rintro _ n₂ ⟨hsound₂, hfinished, hcalm₂⟩
    exact ⟨hsound₂, hcalm₂, fun _ => hfinished.2.ack⟩
  · rintro e n₂ ⟨hsound₂, ⟨rfl, hkill⟩, hcalm₂⟩
    rw [if_pos rfl]
    exact ⟨hsound₂, hcalm₂, fun h => absurd h hkill⟩
  · rintro _ n₂ ⟨hsound₂, hcalm₂, hack⟩
    rw [Prog.ends_modify]
    refine ⟨⟨hsound₂.world rfl rfl hsound₂.kept fun _ hk => hk, rfl, kill, hcalm₂.plain, hcalm₂.blocks, ?_⟩, hack⟩
    exact hcalm₂.kill_at

/-- Nothing is left to recover. -/
theorem recoverLoop_done (corrupt : Bool) (m : Nat) (h : Resting str store order turn n₀ n)
    (hack : n.client.ack = OUT_LEN) :
    (recoverLoop str store order turn corrupt m).Ends
      (fun _ n' => Resting str store order turn n₀ n' ∧ n'.client.ack = OUT_LEN) (fun _ _ => False) n := by
  cases m with
  | zero => exact ⟨h, hack⟩
  | succ m =>
    refine Prog.Ends.bind (Q := fun a n' => a = n'.client.ack ∧ n' = n) ((Prog.ends_read _ _).mpr ⟨rfl, rfl⟩) ?_
    rintro a n' ⟨rfl, rfl⟩
    rw [if_pos (Nat.le_of_eq hack.symm)]
    exact ⟨h, hack⟩

/-- **Recovery**: one attempt is enough. -/
theorem recoverLoop_ends (hne : receiptKey turn ≠ chargeKey turn) (corrupt : Bool) (m : Nat)
    (h : Resting str store order turn n₀ n) :
    (recoverLoop str store order turn corrupt (m + 1)).Ends
      (fun _ n' => Resting str store order turn n₀ n' ∧ n'.client.ack = OUT_LEN) (fun _ _ => False) n := by
  by_cases hack : n.client.ack = OUT_LEN
  · exact recoverLoop_done corrupt (m + 1) h hack
  · refine Prog.Ends.bind (Q := fun a n' => a = n'.client.ack ∧ n' = n) ((Prog.ends_read _ _).mpr ⟨rfl, rfl⟩) ?_
    rintro a n' ⟨rfl, rfl⟩
    have hlt : ¬ OUT_LEN ≤ n'.client.ack := fun hle => hack (Nat.le_antisymm h.sound.ack_le hle)
    rw [if_neg hlt]
    refine Prog.Ends.bind (attempt_ends hne corrupt 0 h) ?_
    rintro _ n₁ ⟨hrest, hdone⟩
    exact recoverLoop_done corrupt m hrest (hdone rfl)

/-- **A trial**, whatever is drawn for it, ends with all of the output at the client. -/
theorem trial_ends (hne : receiptKey turn ≠ chargeKey turn) (d : Draw) (h₀ : Fresh store order turn n)
    (hidle : n.world.working = n.world.committed) (hcalm : ∃ k, Calm k n) :
    (trial str store order turn d).Ends
      (fun _ n' => Resting str store order turn n n' ∧ n'.client.ack = OUT_LEN) (fun _ _ => False) n := by
  unfold trial
  refine Prog.Ends.bind (Q := fun _ => Resting str store order turn n) ?_ ?_
  · rw [Prog.ends_modify]
    obtain ⟨k, hcalm⟩ := hcalm
    exact ⟨h₀.sound rfl rfl rfl rfl, hidle, k, hcalm.plain, hcalm.blocks, hcalm.kill_at⟩
  intro _ n₁ h₁
  refine Prog.Ends.bind (attempt_ends hne _ d.crash h₁) ?_
  rintro _ n₂ ⟨h₂, -⟩
  dsimp only
  split
  · refine Prog.Ends.bind (attempt_ends hne _ d.recovery h₂) ?_
    rintro _ n₃ ⟨h₃, -⟩
    exact recoverLoop_ends hne _ 39 h₃
  · exact recoverLoop_ends hne _ 39 h₂

/-! ## One trial after the other

The trials share the tables, the files and the log. A trial is about its own turn, so that it finds its turn fresh and
leaves the later ones so. -/

/-- **A trial is about its own turn.** -/
theorem Fresh.after {order' turn' : String} (h : Sound turn str store order n₀ n)
    (hfresh : Fresh store order' turn' n₀) (horder : order' ≠ order) (hturn : turn' ≠ turn)
    (hids : ∀ k ∈ actions turn', k ∉ actions turn) : Fresh store order' turn' n := by
  have hne : ∀ k ∈ actions turn', k ≠ chargeKey turn ∧ k ≠ receiptKey turn := by
    intro k hk
    have hnot := hids k hk
    simp only [actions, List.mem_cons, List.not_mem_nil, or_false, not_or] at hnot
    exact ⟨hnot.2, hnot.1⟩
  have hcharge := hne (chargeKey turn') (by simp [actions])
  have hreceipt := hne (receiptKey turn') (by simp [actions])
  obtain ⟨rows, hrows⟩ := h.log
  refine ⟨?_, ?_, ?_, ?_, ?_, h.kept.no_links⟩
  · rw [h.kept.rows _ hcharge.1 hcharge.2]
    exact hfresh.charge
  · rw [h.kept.rows _ hreceipt.1 hreceipt.2]
    exact hfresh.receipt
  · have hold : n₀.world.committed.app.countP (fun row => Kv.isText row.order_id order') = 0 := hfresh.uncharged
    unfold Stack.charged
    rcases h.kept.charge with ⟨-, happ⟩ | ⟨-, happ⟩
    · rw [happ, hold]
    · rw [happ, List.countP_append, hold]
      simp [Kv.isText, horder.symm]
  · have hname : receiptKey turn' ++ ".receipt" ≠ receiptKey turn ++ ".receipt" := by
      intro hsame
      exact hreceipt.2 (Gateway.receiptName_injective hsame)
    exact (h.kept.files _ hname).trans hfresh.unwritten
  · rw [hrows.wal]
    intro row hrow
    rcases List.mem_append.mp hrow with hrow | hrow
    · exact hfresh.unlogged row hrow
    · rw [hrows.turn row hrow]
      exact hturn.symm

/-- Nothing is counted after a trial that gave the client its output. -/
theorem count_zero (h : Sound turn str store order n₀ n) (h₀ : Fresh store order turn n₀)
    (hack : n.client.ack = OUT_LEN) : Bad.zero.count store order turn n = .zero := by
  have honce := h.exactlyOnce h₀
  have heffects := honce.effects_first (by rw [hack]; decide)
  have houtput : n.client.recv = out_tokens order := by
    rw [honce.output, hack, ← length_out_tokens order, List.take_length]
  simp [Bad.count, Bad.zero, heffects.1, heffects.2, honce.no_ghost, houtput]

theorem orderOf_injective {i j : Nat} (h : orderOf i = orderOf j) : i = j := by
  have hlist := congrArg String.toList h
  simp only [orderOf, String.toList_append] at hlist
  exact Text.nat_injective (String.toList_inj.mp (List.append_cancel_left hlist))

theorem turnOf_injective {i j : Nat} (h : turnOf i = turnOf j) : i = j := by
  have hlist := congrArg String.toList h
  simp only [turnOf, String.toList_append] at hlist
  exact Text.nat_injective (String.toList_inj.mp (List.append_cancel_left hlist))

/-- No two actions of the first `m` trials have one id. -/
def Distinct (m : Nat) : Prop := ((List.range m).flatMap fun i => actions (turnOf i)).Nodup

instance (m : Nat) : Decidable (Distinct m) := inferInstanceAs (Decidable (List.Nodup _))

theorem Distinct.ne {m i : Nat} (h : Distinct m) (hi : i < m) :
    receiptKey (turnOf i) ≠ chargeKey (turnOf i) := by
  have hnodup := (List.nodup_flatMap.mp h).1 i (List.mem_range.mpr hi)
  intro hsame
  simp [actions, hsame] at hnodup

theorem Distinct.disjoint {m i j : Nat} (h : Distinct m) (hi : i < m) (hj : j < m) (hij : i ≠ j) :
    ∀ k ∈ actions (turnOf j), k ∉ actions (turnOf i) := by
  have hsymm : Std.Symm (Function.onFun List.Disjoint fun i => actions (turnOf i)) :=
    ⟨fun _ _ hd => List.Disjoint.symm hd⟩
  have hdisjoint := (List.nodup_flatMap.mp h).2.forall (List.mem_range.mpr hi) (List.mem_range.mpr hj) hij
  intro k hk hk'
  exact hdisjoint hk' hk

/-- **The trials from number `i` on** count nothing. -/
theorem trials_end {m : Nat} (hids : Distinct m) (ds : List Draw) :
    ∀ (i : Nat) (n : Node), i + ds.length = m → n.world.working = n.world.committed → (∃ k, Calm k n) →
      (∀ j, i ≤ j → j < m → Fresh store (orderOf j) (turnOf j) n) →
      (trials str store .zero i ds).Ends (fun bad _ => bad = .zero) (fun _ _ => False) n := by
  induction ds with
  | nil =>
    intro i n _ _ _ _
    exact rfl
  | cons d ds ih =>
    intro i n hlen hidle hcalm hfresh
    rw [List.length_cons] at hlen
    have hi : i < m := by omega
    have h₀ := hfresh i (Nat.le_refl i) hi
    refine Prog.Ends.bind (trial_ends (hids.ne hi) d h₀ hidle hcalm) ?_
    rintro _ n₁ ⟨hrest, hack⟩
    refine Prog.Ends.bind (Q := fun a n' => a = n' ∧ n' = n₁) ((Prog.ends_read _ _).mpr ⟨rfl, rfl⟩) ?_
    rintro a n' ⟨rfl, rfl⟩
    rw [count_zero hrest.sound h₀ hack]
    apply ih (i + 1) a (by omega) hrest.idle hrest.calm
    intro j hj hjm
    have hij : i ≠ j := by omega
    apply Fresh.after hrest.sound (hfresh j (by omega) hjm)
    · exact fun h => hij (orderOf_injective h).symm
    · exact fun h => hij (turnOf_injective h).symm
    · exact hids.disjoint hi hjm hij

/-- **The evaluation passes**: whatever modes and crashes are drawn, and for any number of trials whose actions have
    different ids, `main` comes to its end and has counted no violation. -/
theorem evaluation_passes (draws : List Draw) (hids : Distinct draws.length) :
    ∃ n', (main str store draws).run start = some (.ok (Bad.zero, true), n') := by
  have htrials : (trials str store .zero 0 draws).Ends (fun bad _ => bad = .zero) (fun _ _ => False) start :=
    trials_end hids draws 0 start (Nat.zero_add _) rfl ⟨0, calm_start⟩ fun j _ _ => fresh_start (orderOf j) (turnOf j)
  have hmain : (main str store draws).Ends (fun r _ => r = (Bad.zero, true)) (fun _ _ => False) start := by
    refine Prog.Ends.bind htrials ?_
    rintro bad n' rfl
    exact rfl
  obtain ⟨r, n', hrun, rfl⟩ := hmain.returns
  exact ⟨n', hrun⟩

/-- The first five trials, one of each mode as often as it is drawn. -/
theorem evaluation_passes_five : ∃ draws : List Draw, draws.length = 5 ∧
    ∃ n', (main written "/x" draws).run start = some (.ok (Bad.zero, true), n') := by
  let kill (k : Nat) (h : 1 ≤ k ∧ k ≤ MAXT) : Kill := ⟨k, h⟩
  let draw (mode : Mode) : Draw := ⟨mode, kill 3 (by decide), kill 9 (by decide)⟩
  let draws := [draw .crash, draw .crash, draw .crash, draw .recovery_crash, draw .kv_corrupt]
  have hids : Distinct 5 := by decide +kernel
  exact ⟨draws, rfl, evaluation_passes draws hids⟩

end AgentTx.Stack
