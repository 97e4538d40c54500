import AgentTx.Lib.Json.Loads
import Mathlib.Data.List.Pairwise
import Mathlib.Data.String.Basic

/-!
# `Lib.Json.Order` — keys sorted before and after they are spelled out

A value can be sorted by the keys it has, or by the strings that its keys become. The two agree exactly on the
values whose `int` keys are in the same order as numbers and as texts (`Ordered`): this is when its canonical
text is that of the value that `loads` gives back (`dumpsSorted_stringKeys`).

Layout of the proof:
* **Sorting by a key** — insertion sort on lists of members; two lists with one set of keys are sorted alike.
* **Members of one object** — keys of one kind compare as their texts do, exactly if they are ordered: the only case
  in question is that of `int` keys (`SameOrder`).
* **Values** — by induction on the value, for values, items and members at once (`sortKeys_stringKeys`).
* **Texts** — the text determines the value up to the spelling of its keys (`dumps_eq_iff`).
-/

namespace Json

/-! ## Sorting by a key -/

section Sorting

variable {α β κ : Type}

/-- A list sorted by what amounts to comparing `g`. -/
theorem pairwise_insertionSort_of [LinearOrder β] {r : α → α → Prop} [DecidableRel r] (g : α → β) {l : List α}
    (h : ∀ a ∈ l, ∀ b ∈ l, r a b ↔ g a ≤ g b) : (l.insertionSort r).Pairwise fun a b => g a ≤ g b := by
  have hmap : (l.insertionSort r).map g = (l.map g).insertionSort (· ≤ ·) := List.map_insertionSort r (· ≤ ·) g l h
  have hsorted : ((l.map g).insertionSort (· ≤ ·)).Pairwise (· ≤ ·) := List.pairwise_insertionSort (· ≤ ·) (l.map g)
  rw [← hmap, List.pairwise_map] at hsorted
  exact hsorted

/-- Two lists of bindings with the same keys, equal once they are sorted by their keys. -/
theorem eq_of_insertionSort_eq {le : κ → κ → Bool} {l l' : List (κ × β)} (hkeys : l.map Prod.fst = l'.map Prod.fst)
    (h : l.insertionSort (fun a b => le a.1 b.1) = l'.insertionSort fun a b => le a.1 b.1) : l = l' := by
  have hlen : l.length = l'.length := by
    rw [← List.length_map Prod.fst, hkeys, List.length_map]
  -- sort the pairs of bindings: each list is a projection
  have hfst : (l.zip l').map Prod.fst = l := List.map_fst_zip hlen.le
  have hsnd : (l.zip l').map Prod.snd = l' := List.map_snd_zip hlen.ge
  have hsame : ∀ p ∈ l.zip l', p.1.1 = p.2.1 := by
    apply List.map_inj_left.mp
    calc (l.zip l').map (fun p => p.1.1) = ((l.zip l').map Prod.fst).map Prod.fst := (List.map_map ..).symm
      _ = ((l.zip l').map Prod.snd).map Prod.fst := by rw [hfst, hsnd, hkeys]
      _ = (l.zip l').map (fun p => p.2.1) := List.map_map ..
  let r : (κ × β) × (κ × β) → (κ × β) × (κ × β) → Prop := fun p q => le p.1.1 q.1.1 = true
  have hleft : ((l.zip l').insertionSort r).map Prod.fst = l.insertionSort fun a b => le a.1 b.1 := by
    rw [List.map_insertionSort r (fun a b => le a.1 b.1) Prod.fst _ fun p _ q _ => Iff.rfl, hfst]
  have hright : ((l.zip l').insertionSort r).map Prod.snd = l'.insertionSort fun a b => le a.1 b.1 := by
    rw [List.map_insertionSort r (fun a b => le a.1 b.1) Prod.snd _ fun p hp q hq => ?_, hsnd]
    show le p.1.1 q.1.1 = true ↔ le p.2.1 q.2.1 = true
    rw [hsame p hp, hsame q hq]
  have hall : ∀ p ∈ (l.zip l').insertionSort r, p.1 = p.2 :=
    List.map_inj_left.mp (hleft.trans (h.trans hright.symm))
  calc l = (l.zip l').map Prod.fst := hfst.symm
    _ = (l.zip l').map Prod.snd := List.map_inj_left.mpr fun p hp => hall p ((List.mem_insertionSort r).mpr hp)
    _ = l' := hsnd

end Sorting

/-! ## Keys in the order of their texts -/

/-- The keys are in the order of their texts. For `str` keys this is so. -/
def SameOrder (ms : List (Key × Json)) : Prop := ∀ a ∈ ms, ∀ b ∈ ms, a.1.le b.1 = true → a.1.text ≤ b.1.text

instance (ms : List (Key × Json)) : Decidable (SameOrder ms) :=
  inferInstanceAs (Decidable (∀ a ∈ ms, ∀ b ∈ ms, a.1.le b.1 = true → a.1.text ≤ b.1.text))

mutual

/-- In every object, at any depth, the keys are in the order of their texts. -/
def Ordered : Json → Prop
  | .arr items => OrderedItems items
  | .obj members => SameOrder members ∧ OrderedMembers members
  | .null => True
  | .bool _ => True
  | .int _ => True
  | .str _ => True
termination_by structural v => v

def OrderedItems : List Json → Prop
  | [] => True
  | v :: vs => Ordered v ∧ OrderedItems vs
termination_by structural vs => vs

def OrderedMembers : List (Key × Json) → Prop
  | [] => True
  | m :: ms => OrderedMember m ∧ OrderedMembers ms
termination_by structural ms => ms

def OrderedMember : Key × Json → Prop
  | (_, v) => Ordered v
termination_by structural m => m

end

/-- What is found in a value with ordered keys has ordered keys. -/
theorem Ordered.get? {v x : Json} {k : String} (h : v.Ordered) (hx : v.get? k = some x) : x.Ordered := by
  cases v with
  | obj ms =>
    obtain ⟨-, hms⟩ := h
    have hlookup : ∀ ms : List (Key × Json), OrderedMembers ms → lookup k ms = some x → x.Ordered := by
      intro ms hms hx
      induction ms with
      | nil => cases hx
      | cons m ms ih =>
        obtain ⟨key, v⟩ := m
        rcases Option.or_eq_some_iff.mp hx with hrest | ⟨-, hhere⟩
        · exact ih hms.2 hrest
        · split_ifs at hhere
          cases hhere
          exact hms.1
    exact hlookup ms hms hx
  | _ => cases hx

/-! ## Spelling -/

theorem stringKeysMembers_eq_map (ms : List (Key × Json)) : stringKeysMembers ms = ms.map stringKeysMember := by
  induction ms with
  | nil => rfl
  | cons m ms ih => rw [stringKeysMembers, ih, List.map_cons]

theorem stringKeysMember_key (m : Key × Json) : (stringKeysMember m).1 = .str m.1.text := by
  obtain ⟨k, v⟩ := m
  rfl

theorem stringKeysMember_le (a b : Key × Json) :
    (stringKeysMember a).1.le (stringKeysMember b).1 = true ↔ a.1.text ≤ b.1.text := by
  rw [stringKeysMember_key, stringKeysMember_key]
  exact decide_eq_true_iff

/-- `int` keys have different texts. -/
theorem toString_int_inj {m n : Int} (h : toString m = toString n) : m = n := by
  have hm := readInt_toString m (r := []) (by intro c hc; cases hc)
  have hn := readInt_toString n (r := []) (by intro c hc; cases hc)
  rw [h, hn] at hm
  exact (congrArg Prod.fst (Option.some.inj hm)).symm

/-! ## Members -/

/-- What `sorted` accepts: keys of one kind. -/
theorem sortMembers_eq_some {ms ms' : List (Key × Json)} (h : sortMembers ms = some ms') :
    ms' = ms.insertionSort (fun a b => a.1.le b.1) ∧
      ((∀ m ∈ ms, ∃ s, m.1 = .str s) ∨ ∀ m ∈ ms, ∃ n, m.1 = .int n) := by
  unfold sortMembers at h
  split at h
  case isTrue hkind =>
    refine ⟨(Option.some.inj h).symm, ?_⟩
    rw [List.all_eq_true, List.all_eq_true] at hkind
    refine hkind.imp (fun hall m hm => ?_) fun hall m hm => ?_
    · have hstr := hall m hm
      cases hkey : m.1 with
      | str s => exact ⟨s, rfl⟩
      | int n =>
        rw [hkey] at hstr
        cases hstr
    · have hint := hall m hm
      cases hkey : m.1 with
      | str s =>
        rw [hkey] at hint
        cases hint
      | int n => exact ⟨n, rfl⟩
  case isFalse => cases h

/-- Spelled-out keys can be sorted. -/
theorem sortMembers_stringKeys {ms : List (Key × Json)} (h : ∀ m ∈ ms, ∃ s, m.1 = .str s) :
    sortMembers ms = some (ms.insertionSort fun a b => a.1.le b.1) := by
  unfold sortMembers
  rw [if_pos (Or.inl _)]
  rw [List.all_eq_true]
  intro m hm
  obtain ⟨s, hs⟩ := h m hm
  rw [hs]
  rfl

/-- Keys of one kind that are in the order of their texts compare as these do. -/
theorem SameOrder.le_iff {ms : List (Key × Json)} (h : SameOrder ms)
    (hkind : (∀ m ∈ ms, ∃ s, m.1 = .str s) ∨ ∀ m ∈ ms, ∃ n, m.1 = .int n) :
    ∀ a ∈ ms, ∀ b ∈ ms, a.1.le b.1 = true ↔ (stringKeysMember a).1.le (stringKeysMember b).1 = true := by
  intro a ha b hb
  rw [stringKeysMember_le]
  refine ⟨h a ha b hb, fun htext => ?_⟩
  rcases hkind with hstr | hint
  · obtain ⟨s, hs⟩ := hstr a ha
    obtain ⟨s', hs'⟩ := hstr b hb
    rw [hs, hs'] at htext ⊢
    exact decide_eq_true htext
  · obtain ⟨m, hm⟩ := hint a ha
    obtain ⟨n, hn⟩ := hint b hb
    have hba := h b hb a ha
    rw [hm, hn] at htext hba ⊢
    by_contra hlt
    have hnm : n ≤ m := by
      have hle : ¬ m ≤ n := fun hle => hlt (decide_eq_true hle)
      omega
    have heq : toString m = toString n := le_antisymm htext (hba (decide_eq_true hnm))
    exact hlt (decide_eq_true (toString_int_inj heq).le)

/-- Members that are in the order of the texts of their keys once they are sorted by their keys. -/
theorem sameOrder_of_pairwise {ms : List (Key × Json)}
    (hkind : (∀ m ∈ ms, ∃ s, m.1 = .str s) ∨ ∀ m ∈ ms, ∃ n, m.1 = .int n)
    (h : (ms.insertionSort fun a b => a.1.le b.1).Pairwise fun a b => a.1.text ≤ b.1.text) : SameOrder ms := by
  intro a ha b hb hle
  rcases hkind with hstr | hint
  · obtain ⟨s, hs⟩ := hstr a ha
    obtain ⟨s', hs'⟩ := hstr b hb
    rw [hs, hs'] at hle ⊢
    exact of_decide_eq_true hle
  · -- sorted, the keys go up both as numbers and as texts
    let number : Key × Json → Int := fun m => match m.1 with
      | .int n => n
      | .str _ => 0
    have hnumber : ∀ m ∈ ms, m.1 = .int (number m) := by
      intro m hm
      obtain ⟨n, hn⟩ := hint m hm
      simp only [number, hn]
    have hle_iff : ∀ m ∈ ms, ∀ m' ∈ ms, m.1.le m'.1 = true ↔ number m ≤ number m' := by
      intro m hm m' hm'
      rw [hnumber m hm, hnumber m' hm']
      exact decide_eq_true_iff
    have hboth := (pairwise_insertionSort_of number hle_iff).and h
    let R : Key × Json → Key × Json → Prop := fun m m' =>
      (number m ≤ number m' → toString (number m) ≤ toString (number m')) ∧
        (number m' ≤ number m → toString (number m') ≤ toString (number m))
    have hmem : ∀ {m}, m ∈ ms.insertionSort (fun a b => a.1.le b.1) → m ∈ ms := fun hm =>
      (List.mem_insertionSort _).mp hm
    have hR : (ms.insertionSort fun a b => a.1.le b.1).Pairwise R := by
      refine hboth.imp_of_mem fun {m m'} hm hm' hmm' => ?_
      obtain ⟨hnum, htext⟩ := hmm'
      rw [hnumber m (hmem hm), hnumber m' (hmem hm')] at htext
      refine ⟨fun _ => htext, fun hge => ?_⟩
      rw [le_antisymm hge hnum]
    have hsymm : Std.Symm R := ⟨fun m m' hmm' => ⟨hmm'.2, hmm'.1⟩⟩
    have hall := List.Pairwise.forall_of_forall (fun m _ => ⟨fun _ => le_refl _, fun _ => le_refl _⟩) hR
      ((List.mem_insertionSort _).mpr ha) ((List.mem_insertionSort _).mpr hb)
    rw [hnumber a ha, hnumber b hb]
    exact hall.1 ((hle_iff a ha b hb).mp hle)

/-- Members with the spelled-out keys of others. -/
theorem str_of_keys {ms ms' : List (Key × Json)} (hkeys : ms'.map Prod.fst = (stringKeysMembers ms).map Prod.fst) :
    ∀ m ∈ ms', ∃ s, m.1 = .str s := by
  intro m hm
  have hmem : m.1 ∈ (stringKeysMembers ms).map Prod.fst := hkeys ▸ List.mem_map_of_mem hm
  rw [stringKeysMembers_eq_map, List.map_map] at hmem
  obtain ⟨m₀, -, hm₀⟩ := List.mem_map.mp hmem
  exact ⟨m₀.1.text, hm₀.symm.trans (stringKeysMember_key m₀)⟩

/-- Only the keys count. -/
theorem sameOrder_congr {ms ms' : List (Key × Json)} (h : ms'.map Prod.fst = ms.map Prod.fst) :
    SameOrder ms' ↔ SameOrder ms := by
  have hiff : ∀ l : List (Key × Json), SameOrder l ↔
      ∀ k ∈ l.map Prod.fst, ∀ k' ∈ l.map Prod.fst, k.le k' = true → k.text ≤ k'.text := by
    intro l
    simp only [SameOrder, List.forall_mem_map]
  rw [hiff, hiff, h]

/-- **The members of one object.** `ms` and `ms'` are its members with their values sorted, before and after
    the keys are spelled out. -/
theorem sorted_members {ms ms' : List (Key × Json)}
    (hkind : (∀ m ∈ ms, ∃ s, m.1 = .str s) ∨ ∀ m ∈ ms, ∃ n, m.1 = .int n)
    (hkeys : ms'.map Prod.fst = (stringKeysMembers ms).map Prod.fst) :
    stringKeysMembers (ms'.insertionSort fun a b => a.1.le b.1) =
        stringKeysMembers (ms.insertionSort fun a b => a.1.le b.1) ↔
      SameOrder ms ∧ stringKeysMembers ms' = stringKeysMembers ms := by
  have hstr : ∀ m ∈ ms', ∃ s, m.1 = .str s := str_of_keys hkeys
  have hstrOrder : SameOrder ms' := by
    intro a ha b hb hle
    obtain ⟨s, hs⟩ := hstr a ha
    obtain ⟨s', hs'⟩ := hstr b hb
    rw [hs, hs'] at hle ⊢
    exact of_decide_eq_true hle
  -- where the order is that of the texts, the keys can be spelled out first
  have hmap : ∀ l : List (Key × Json), SameOrder l →
      ((∀ m ∈ l, ∃ s, m.1 = .str s) ∨ ∀ m ∈ l, ∃ n, m.1 = .int n) →
      stringKeysMembers (l.insertionSort fun a b => a.1.le b.1) =
        (stringKeysMembers l).insertionSort fun a b => a.1.le b.1 := by
    intro l horder hkind
    rw [stringKeysMembers_eq_map, stringKeysMembers_eq_map]
    exact List.map_insertionSort _ _ stringKeysMember l (horder.le_iff hkind)
  rw [hmap ms' hstrOrder (Or.inl hstr)]
  constructor
  · intro h
    have horder : SameOrder ms := by
      refine sameOrder_of_pairwise hkind ?_
      have hpair := pairwise_insertionSort_of (fun m : Key × Json => m.1.text)
        (r := fun a b => a.1.le b.1 = true) (l := stringKeysMembers ms') fun a ha b hb => ?_
      · rw [h, stringKeysMembers_eq_map, List.pairwise_map] at hpair
        refine hpair.imp fun {a b} hab => ?_
        rwa [stringKeysMember_key, stringKeysMember_key] at hab
      · rw [stringKeysMembers_eq_map] at ha hb
        obtain ⟨a₀, -, rfl⟩ := List.mem_map.mp ha
        obtain ⟨b₀, -, rfl⟩ := List.mem_map.mp hb
        rw [stringKeysMember_le, stringKeysMember_key, stringKeysMember_key]
        rfl
    refine ⟨horder, ?_⟩
    rw [hmap ms horder hkind] at h
    refine eq_of_insertionSort_eq ?_ h
    have htext : (stringKeysMembers ms').map Prod.fst = ms'.map Prod.fst := by
      rw [stringKeysMembers_eq_map, List.map_map]
      refine List.map_inj_left.mpr fun m hm => ?_
      obtain ⟨s, hs⟩ := hstr m hm
      show (stringKeysMember m).1 = m.1
      rw [stringKeysMember_key, hs]
      rfl
    exact htext.trans hkeys
  · rintro ⟨horder, h⟩
    rw [h, hmap ms horder hkind]

/-! ## Values -/

mutual

/-- **Sorting commutes with spelling the keys out exactly on the ordered values.** -/
theorem sortKeys_stringKeys : ∀ (v : Json) {s : Json}, sortKeys v = some s →
    ∃ s', sortKeys v.stringKeys = some s' ∧ (s'.stringKeys = s.stringKeys ↔ v.Ordered)
  | .null, s, h => by
      cases h
      exact ⟨.null, rfl, iff_of_true rfl trivial⟩
  | .bool b, s, h => by
      cases h
      exact ⟨.bool b, rfl, iff_of_true rfl trivial⟩
  | .int n, s, h => by
      cases h
      exact ⟨.int n, rfl, iff_of_true rfl trivial⟩
  | .str t, s, h => by
      cases h
      exact ⟨.str t, rfl, iff_of_true rfl trivial⟩
  | .arr items, s, h => by
      obtain ⟨items₁, hitems, rfl⟩ := Option.map_eq_some_iff.mp h
      obtain ⟨items₂, hitems', hiff⟩ := sortItems_stringKeys items hitems
      refine ⟨.arr items₂, ?_, ?_⟩
      · show (sortItems (stringKeysItems items)).map Json.arr = _
        rw [hitems']
        rfl
      · show Json.arr _ = Json.arr _ ↔ OrderedItems items
        rw [Json.arr.injEq]
        exact hiff
  | .obj ms, s, h => by
      obtain ⟨ms₁, hms, hsort⟩ := Option.bind_eq_some_iff.mp h
      obtain ⟨ms₂, hms₂, rfl⟩ := Option.map_eq_some_iff.mp hsort
      obtain ⟨rfl, hkind⟩ := sortMembers_eq_some hms₂
      obtain ⟨ms', hms', hkeys', hkeys, hiff⟩ := sortValues_stringKeys ms hms
      refine ⟨.obj (ms'.insertionSort fun a b => a.1.le b.1), ?_, ?_⟩
      · show ((sortValues (stringKeysMembers ms)).bind fun ms => (sortMembers ms).map Json.obj) = _
        rw [hms', Option.bind_some, sortMembers_stringKeys (str_of_keys hkeys')]
        rfl
      · show Json.obj _ = Json.obj _ ↔ SameOrder ms ∧ OrderedMembers ms
        rw [Json.obj.injEq, sorted_members hkind hkeys', hiff, sameOrder_congr hkeys]

theorem sortItems_stringKeys : ∀ (vs : List Json) {ss : List Json}, sortItems vs = some ss →
    ∃ ss', sortItems (stringKeysItems vs) = some ss' ∧
      (stringKeysItems ss' = stringKeysItems ss ↔ OrderedItems vs)
  | [], ss, h => by
      cases h
      exact ⟨[], rfl, iff_of_true rfl trivial⟩
  | v :: vs, ss, h => by
      obtain ⟨s₁, hv, hrest⟩ := Option.bind_eq_some_iff.mp h
      obtain ⟨ss₁, hvs, rfl⟩ := Option.map_eq_some_iff.mp hrest
      obtain ⟨s', hv', hiff⟩ := sortKeys_stringKeys v hv
      obtain ⟨ss', hvs', hiffs⟩ := sortItems_stringKeys vs hvs
      refine ⟨s' :: ss', ?_, ?_⟩
      · show ((sortKeys v.stringKeys).bind fun v => (sortItems (stringKeysItems vs)).map (v :: ·)) = _
        rw [hv', Option.bind_some, hvs']
        rfl
      · show s'.stringKeys :: stringKeysItems ss' = s₁.stringKeys :: stringKeysItems ss₁ ↔
          v.Ordered ∧ OrderedItems vs
        rw [List.cons.injEq, hiff, hiffs]

/-- The values of the members; their keys stay. -/
theorem sortValues_stringKeys : ∀ (ms : List (Key × Json)) {ss : List (Key × Json)}, sortValues ms = some ss →
    ∃ ss', sortValues (stringKeysMembers ms) = some ss' ∧ ss'.map Prod.fst = (stringKeysMembers ss).map Prod.fst ∧
      ss.map Prod.fst = ms.map Prod.fst ∧ (stringKeysMembers ss' = stringKeysMembers ss ↔ OrderedMembers ms)
  | [], ss, h => by
      cases h
      exact ⟨[], rfl, rfl, rfl, iff_of_true rfl trivial⟩
  | (k, v) :: ms, ss, h => by
      obtain ⟨m₁, hm, hrest⟩ := Option.bind_eq_some_iff.mp h
      obtain ⟨ss₁, hms, rfl⟩ := Option.map_eq_some_iff.mp hrest
      obtain ⟨s₁, hv, rfl⟩ := Option.map_eq_some_iff.mp hm
      obtain ⟨s', hv', hiff⟩ := sortKeys_stringKeys v hv
      obtain ⟨ss', hms', hkeys', hkeys, hiffs⟩ := sortValues_stringKeys ms hms
      refine ⟨(.str k.text, s') :: ss', ?_, ?_, ?_, ?_⟩
      · show (((sortKeys v.stringKeys).map (Key.str k.text, ·)).bind fun m =>
          (sortValues (stringKeysMembers ms)).map (m :: ·)) = _
        rw [hv', hms']
        rfl
      · exact congrArg (Key.str k.text :: ·) hkeys'
      · exact congrArg (k :: ·) hkeys
      · show (Key.str k.text, s'.stringKeys) :: stringKeysMembers ss' =
          (Key.str k.text, s₁.stringKeys) :: stringKeysMembers ss₁ ↔ v.Ordered ∧ OrderedMembers ms
        rw [List.cons.injEq, Prod.mk.injEq, hiff, hiffs]
        exact and_congr_left' (and_iff_right rfl)

end

/-! ## Texts -/

mutual

/-- The text says only how the keys are spelled. -/
theorem render_stringKeys : ∀ v : Json, render v.stringKeys = render v
  | .null => rfl
  | .bool _ => rfl
  | .int _ => rfl
  | .str _ => rfl
  | .arr items => by
      show '[' :: (renderItems [] (stringKeysItems items) ++ [']']) = '[' :: (renderItems [] items ++ [']'])
      rw [renderItems_stringKeys]
  | .obj ms => by
      show '{' :: (renderMembers [] (stringKeysMembers ms) ++ ['}']) = '{' :: (renderMembers [] ms ++ ['}'])
      rw [renderMembers_stringKeys]

theorem renderItems_stringKeys : ∀ (sep : List Char) (vs : List Json),
    renderItems sep (stringKeysItems vs) = renderItems sep vs
  | _, [] => rfl
  | sep, v :: vs => by
      rw [stringKeysItems, renderItems, renderItems, render_stringKeys v, renderItems_stringKeys _ vs]

theorem renderMembers_stringKeys : ∀ (sep : List Char) (ms : List (Key × Json)),
    renderMembers sep (stringKeysMembers ms) = renderMembers sep ms
  | _, [] => rfl
  | sep, (k, v) :: ms => by
      rw [stringKeysMembers, renderMembers, renderMembers, stringKeysMember, renderMember, renderMember,
        render_stringKeys v, renderMembers_stringKeys _ ms]
      rfl

end

theorem dumps_eq_iff {v w : Json} : dumps v = dumps w ↔ v.stringKeys = w.stringKeys := by
  constructor
  · exact stringKeys_eq_of_dumps_eq
  · intro h
    rw [dumps, dumps, ← render_stringKeys v, h, render_stringKeys w]

/-- **The canonical text of what `loads` gives back** is that of the value exactly if the value is ordered. -/
theorem dumpsSorted_stringKeys {v : Json} {text : String} (h : v.dumpsSorted = some text) :
    ∃ text', v.stringKeys.dumpsSorted = some text' ∧ (text' = text ↔ v.Ordered) := by
  obtain ⟨s, hs, rfl⟩ := Option.map_eq_some_iff.mp h
  obtain ⟨s', hs', hiff⟩ := sortKeys_stringKeys v hs
  refine ⟨s'.dumps, ?_, dumps_eq_iff.trans hiff⟩
  rw [dumpsSorted, hs']
  rfl

end Json
