import Mathlib.Data.List.Basic

/-!
# `Lib.Text` — texts made of fields with a separator between them

A text determines its fields up to the first separator, and after the last one; and a number is
determined by its decimal text, which holds digits only.
-/

namespace Text

/-- The field before the first separator. -/
theorem split_first {c : Char} {a a' b b' : List Char} (ha : c ∉ a) (ha' : c ∉ a')
    (h : a ++ c :: b = a' ++ c :: b') : a = a' ∧ b = b' := by
  induction a generalizing a' with
  | nil =>
    cases a' with
    | nil => exact ⟨rfl, (List.cons.inj h).2⟩
    | cons x a' =>
      rw [List.nil_append, List.cons_append] at h
      rw [(List.cons.inj h).1] at ha'
      exact absurd List.mem_cons_self ha'
  | cons x a ih =>
    cases a' with
    | nil =>
      rw [List.nil_append, List.cons_append] at h
      rw [(List.cons.inj h).1] at ha
      exact absurd List.mem_cons_self ha
    | cons x' a' =>
      rw [List.cons_append, List.cons_append] at h
      obtain ⟨rfl, hrest⟩ := List.cons.inj h
      obtain ⟨rfl, rfl⟩ := ih (fun hc => ha (List.mem_cons_of_mem _ hc))
        (fun hc => ha' (List.mem_cons_of_mem _ hc)) hrest
      exact ⟨rfl, rfl⟩

/-- The field after the last separator. -/
theorem split_last {c : Char} {a a' b b' : List Char} (hb : c ∉ b) (hb' : c ∉ b')
    (h : a ++ c :: b = a' ++ c :: b') : a = a' ∧ b = b' := by
  have hrev : b.reverse ++ c :: a.reverse = b'.reverse ++ c :: a'.reverse := by
    have := congrArg List.reverse h
    simpa using this
  obtain ⟨h₁, h₂⟩ := split_first (by simpa using hb) (by simpa using hb') hrev
  exact ⟨List.reverse_injective h₂, List.reverse_injective h₁⟩

/-! ## Numbers -/

theorem toList_toString (n : Nat) : (toString n).toList = Nat.toDigits 10 n := Nat.toList_repr

theorem notMem_nat {c : Char} (hc : c.isDigit = false) (n : Nat) : c ∉ (toString n).toList := by
  rw [toList_toString]
  intro h
  rw [Nat.isDigit_of_mem_toDigits (by decide) (by decide) h] at hc
  cases hc

theorem nat_injective {m n : Nat} (h : toString m = toString n) : m = n := by
  have hdigits : Nat.toDigits 10 m = Nat.toDigits 10 n := by
    rw [← toList_toString, ← toList_toString, h]
  calc m = Nat.ofDigitChars 10 (Nat.toDigits 10 m) 0 := Nat.ofDigitChars_ten_toDigits.symm
    _ = Nat.ofDigitChars 10 (Nat.toDigits 10 n) 0 := by rw [hdigits]
    _ = n := Nat.ofDigitChars_ten_toDigits

theorem toString_negSucc (m : Nat) : (toString (Int.negSucc m)).toList = '-' :: (toString (m + 1)).toList := by
  show ("-" ++ (m + 1).repr).toList = _
  rw [String.toList_append]
  rfl

theorem notMem_int {c : Char} (hc : c.isDigit = false) (hm : c ≠ '-') (n : Int) :
    c ∉ (toString n).toList := by
  cases n with
  | ofNat m => exact notMem_nat hc m
  | negSucc m =>
    rw [toString_negSucc, List.mem_cons]
    rintro (h | h)
    · exact hm h
    · exact notMem_nat hc (m + 1) h

theorem int_injective {m n : Int} (h : toString m = toString n) : m = n := by
  have hminus : ∀ k : Nat, '-' ∉ (toString k).toList := fun k => notMem_nat (by decide) k
  cases m with
  | ofNat m =>
    cases n with
    | ofNat n => rw [nat_injective (m := m) (n := n) h]
    | negSucc n =>
      refine absurd ?_ (hminus m)
      rw [show (toString m).toList = _ from congrArg String.toList h, toString_negSucc]
      exact List.mem_cons_self
  | negSucc m =>
    cases n with
    | ofNat n =>
      refine absurd ?_ (hminus n)
      rw [← show (toString (Int.negSucc m)).toList = (toString n).toList from congrArg String.toList h,
        toString_negSucc]
      exact List.mem_cons_self
    | negSucc n =>
      have hlist := congrArg String.toList h
      rw [toString_negSucc, toString_negSucc] at hlist
      have hsucc := nat_injective (String.toList_inj.mp (List.cons.inj hlist).2)
      rw [Nat.succ.inj hsucc]

end Text
