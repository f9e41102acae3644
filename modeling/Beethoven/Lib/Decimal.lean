import Mathlib.Algebra.Order.Ring.Int
import Mathlib.Data.List.Lex
import Mathlib.Data.Char
import Mathlib.Tactic.Tauto

/-!
# Decimals of a fixed width

A number is written in decimal with zeros in front up to a width. Numbers that fit the width are
written in exactly that many characters, and their texts are ordered as the numbers are.

## Main definitions

* `zeroPad`: a number in decimal, with zeros in front.

## Main results

* `append_lt_append_iff`: texts are compared by their fronts first, if those are as long.
* `zeroPad_injective`, `length_zeroPad`, `zeroPad_lt_iff`, `zeroPad_append_lt_iff`.
-/

namespace Beethoven.Lib

/-- Lists with fronts of one length are compared by their fronts first. -/
theorem append_lt_append_iff {α : Type*} [LT α] {l₁ l₂ m₁ m₂ : List α}
    (h : l₁.length = l₂.length) : l₁ ++ m₁ < l₂ ++ m₂ ↔ l₁ < l₂ ∨ l₁ = l₂ ∧ m₁ < m₂ := by
  induction l₁ generalizing l₂ with
  | nil =>
    obtain rfl : l₂ = [] := List.length_eq_zero_iff.mp h.symm
    simp
  | cons x l₁ ih =>
    obtain ⟨y, l₂, rfl⟩ := List.exists_cons_of_length_eq_add_one h.symm
    simp only [List.cons_append, List.cons_lt_cons_iff, List.cons.injEq, ih (Nat.succ.inj h)]
    tauto

/-- Texts that are ordered as two numbers are the same only if the numbers are. -/
theorem eq_of_lt_iff_lt {l₁ l₂ : List Char} {m n : ℕ} (h₁ : l₁ < l₂ ↔ m < n)
    (h₂ : l₂ < l₁ ↔ n < m) (h : l₁ = l₂) : m = n := by
  subst h
  have hlt := List.lt_irrefl l₁
  rw [iff_false_left hlt] at h₁ h₂
  omega

/-- A number in decimal, with zeros in front up to a width. -/
def zeroPad (width n : ℕ) : List Char := (Nat.toDigits 10 n).leftpad width '0'

theorem ofDigitChars_zeroPad (w n : ℕ) : Nat.ofDigitChars 10 (zeroPad w n) 0 = n := by
  simp [zeroPad, List.leftpad, Nat.ofDigitChars_append]

theorem zeroPad_injective (w : ℕ) : Function.Injective (zeroPad w) :=
  Function.LeftInverse.injective (ofDigitChars_zeroPad w)

theorem digitChar_lt_iff {m n : ℕ} (hm : m < 10) (hn : n < 10) :
    Nat.digitChar m < Nat.digitChar n ↔ m < n := by
  have h : Nat.digitChar m < Nat.digitChar n ↔
      (Nat.digitChar m).toNat < (Nat.digitChar n).toNat := Iff.rfl
  rw [h, Nat.toNat_digitChar_of_lt_ten hm, Nat.toNat_digitChar_of_lt_ten hn]
  omega

section ZeroPad

variable {w m n : ℕ}

theorem zeroPad_succ (hw : 1 ≤ w) (n : ℕ) :
    zeroPad (w + 1) n = zeroPad w (n / 10) ++ [Nat.digitChar (n % 10)] := by
  have hmod : n % 10 < 10 := Nat.mod_lt n (by decide)
  rcases Nat.lt_or_ge n 10 with hn | hn
  · -- a single digit: one of the zeros in front is the quotient
    obtain ⟨w, rfl⟩ : ∃ v, w = v + 1 := ⟨w - 1, by omega⟩
    rw [Nat.div_eq_of_lt hn, Nat.mod_eq_of_lt hn, zeroPad, zeroPad, Nat.toDigits_of_lt_base hn,
      Nat.toDigits_of_lt_base (by decide)]
    simp [List.leftpad, List.replicate_succ']
  · have hdigits := Nat.toDigits_append_toDigits (b := 10) (by decide)
      (Nat.div_pos hn (by decide)) hmod
    rw [Nat.div_add_mod, Nat.toDigits_of_lt_base hmod] at hdigits
    rw [zeroPad, zeroPad, ← hdigits]
    simp [List.leftpad]

theorem length_zeroPad (hw : 1 ≤ w) (hn : n < 10 ^ w) : (zeroPad w n).length = w := by
  have := (Nat.length_toDigits_le_iff (b := 10) (by decide) hw).mpr hn
  simp only [zeroPad, List.leftpad, List.length_append, List.length_replicate]
  omega

theorem zeroPad_one (hn : n < 10) : zeroPad 1 n = [Nat.digitChar n] := by
  rw [zeroPad, Nat.toDigits_of_lt_base hn]
  rfl

theorem div_ten_lt (hn : n < 10 ^ (w + 1)) : n / 10 < 10 ^ w :=
  Nat.div_lt_of_lt_mul (by rwa [← Nat.pow_succ'])

/-- Numbers that fit the width are ordered as their texts. -/
theorem zeroPad_lt_iff (hw : 1 ≤ w) (hm : m < 10 ^ w) (hn : n < 10 ^ w) :
    zeroPad w m < zeroPad w n ↔ m < n := by
  induction w, hw using Nat.le_induction generalizing m n with
  | base =>
    rw [zeroPad_one hm, zeroPad_one hn, List.cons_lt_cons_iff]
    simp [digitChar_lt_iff hm hn]
  | succ w hw ih =>
    have hlen := (length_zeroPad hw (div_ten_lt hm)).trans (length_zeroPad hw (div_ten_lt hn)).symm
    rw [zeroPad_succ hw, zeroPad_succ hw, append_lt_append_iff hlen,
      ih (div_ten_lt hm) (div_ten_lt hn), (zeroPad_injective w).eq_iff,
      List.cons_lt_cons_iff, digitChar_lt_iff (Nat.mod_lt m (by decide)) (Nat.mod_lt n (by decide))]
    simp only [List.not_lt_nil, and_false, or_false]
    omega

/-- Numbers of one width are compared before what is behind them. -/
theorem zeroPad_append_lt_iff {l₁ l₂ : List Char} (hw : 1 ≤ w) (hm : m < 10 ^ w)
    (hn : n < 10 ^ w) :
    zeroPad w m ++ l₁ < zeroPad w n ++ l₂ ↔ m < n ∨ m = n ∧ l₁ < l₂ := by
  rw [append_lt_append_iff ((length_zeroPad hw hm).trans (length_zeroPad hw hn).symm),
    zeroPad_lt_iff hw hm hn, (zeroPad_injective w).eq_iff]

end ZeroPad

end Beethoven.Lib
