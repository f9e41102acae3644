import Mathlib.Data.List.Basic
import Mathlib.Data.UInt

/-!
# UTF-8, byte by byte

The first byte of a character says how many bytes follow it and in which ranges they lie. A reader
of a byte string keeps the ranges that it still expects: `accepts` tells whether the string is a
sequence of whole characters, and `lossy` copies the characters and puts the replacement character
in the place of everything else, once for each longest beginning of a character.

What is accepted contains the encodings of all strings (`accepts_of_isValidUTF8`), and `lossy`
leaves what is accepted, and nothing else, as it is (`lossy_eq_iff`).

## Main definitions

* `Utf8.ByteRange`, `Utf8.follow`.
* `Utf8.accepts`, `Utf8.lossy`.

## Main results

* `Utf8.accepts_of_isValidUTF8`, `Utf8.lossy_eq_iff`.
-/

namespace Beethoven.Lib.Utf8

/-- The bytes from `lo` to `hi`. -/
structure ByteRange where
  lo : UInt8
  hi : UInt8
  deriving DecidableEq, Repr

/-- The byte lies in the range. -/
def ByteRange.Has (r : ByteRange) (b : UInt8) : Prop := r.lo ≤ b ∧ b ≤ r.hi

instance (r : ByteRange) (b : UInt8) : Decidable (r.Has b) :=
  inferInstanceAs (Decidable (_ ∧ _))

/-- The bytes that are never the first one of a character. -/
def continuation : ByteRange := ⟨0x80, 0xBF⟩

/-- The ranges of the bytes that follow the first byte of a character. -/
def follow (b : UInt8) : Option (List ByteRange) :=
  if b ≤ 0x7F then some []
  else if 0xC2 ≤ b ∧ b ≤ 0xDF then some [continuation]
  else if b = 0xE0 then some [⟨0xA0, 0xBF⟩, continuation]
  else if b = 0xED then some [⟨0x80, 0x9F⟩, continuation]
  else if 0xE1 ≤ b ∧ b ≤ 0xEF then some [continuation, continuation]
  else if b = 0xF0 then some [⟨0x90, 0xBF⟩, continuation, continuation]
  else if 0xF1 ≤ b ∧ b ≤ 0xF3 then some [continuation, continuation, continuation]
  else if b = 0xF4 then some [⟨0x80, 0x8F⟩, continuation, continuation]
  else none

/-- The bytes continue a character by the ranges `expected`, and whole characters follow. -/
def acceptsFrom : List ByteRange → List UInt8 → Bool
  | expected, [] => expected.isEmpty
  | [], b :: bs =>
    match follow b with
    | some expected => acceptsFrom expected bs
    | none => false
  | r :: expected, b :: bs => decide (r.Has b) && acceptsFrom expected bs

/-- The bytes are a sequence of whole characters. -/
def accepts (bs : List UInt8) : Bool := acceptsFrom [] bs

/-- The encoding of the replacement character `U+FFFD`. -/
def replacement : List UInt8 := [0xEF, 0xBF, 0xBD]

/-- The rest of a byte string, after the bytes `seen` of a character that the ranges `expected`
complete. -/
def lossyFrom (seen : List UInt8) (expected : List ByteRange) : List UInt8 → List UInt8
  | [] => if expected.isEmpty then seen else replacement
  | b :: bs =>
    -- the byte starts a character or is replaced
    let next := match follow b with
      | some expected => lossyFrom [b] expected bs
      | none => replacement ++ lossyFrom [] [] bs
    match expected with
    | [] => seen ++ next
    | r :: expected =>
      if r.Has b then lossyFrom (seen ++ [b]) expected bs else replacement ++ next

/-- The bytes, with the replacement character in the place of what is not a character. -/
def lossy (bs : List UInt8) : List UInt8 := lossyFrom [] [] bs

/-! ### Accepted strings are copied -/

theorem lossyFrom_of_acceptsFrom (bs : List UInt8) (seen : List UInt8) (expected : List ByteRange)
    (h : acceptsFrom expected bs) : lossyFrom seen expected bs = seen ++ bs := by
  induction bs generalizing seen expected with
  | nil =>
    rw [acceptsFrom] at h
    rw [lossyFrom, if_pos h, List.append_nil]
  | cons b bs ih =>
    cases expected with
    | nil =>
      cases hb : follow b with
      | none => simp [acceptsFrom, hb] at h
      | some expected =>
        simp only [acceptsFrom, hb] at h
        simp only [lossyFrom, hb]
        rw [ih [b] expected h, List.singleton_append]
    | cons r expected =>
      simp only [acceptsFrom, Bool.and_eq_true, decide_eq_true_eq] at h
      simp only [lossyFrom, if_pos h.1]
      rw [ih (seen ++ [b]) expected h.2, List.append_assoc, List.singleton_append]

/-- **Accepted strings are copied.** -/
theorem lossy_of_accepts {bs : List UInt8} (h : accepts bs) : lossy bs = bs :=
  lossyFrom_of_acceptsFrom bs [] [] h

theorem acceptsFrom_nil_cons {b : UInt8} {expected : List ByteRange}
    (h : follow b = some expected) (bs : List UInt8) :
    acceptsFrom [] (b :: bs) = acceptsFrom expected bs := by
  simp only [acceptsFrom, h]

theorem acceptsFrom_cons_cons {r : ByteRange} {b : UInt8} (h : r.Has b) (expected : List ByteRange)
    (bs : List UInt8) : acceptsFrom (r :: expected) (b :: bs) = acceptsFrom expected bs := by
  simp only [acceptsFrom, h, decide_true, Bool.true_and]

theorem acceptsFrom_replacement (bs : List UInt8) :
    acceptsFrom [] (replacement ++ bs) = acceptsFrom [] bs := rfl

/-- The bytes `seen` are the beginning of a character that the ranges complete. -/
theorem acceptsFrom_lossyFrom (bs seen : List UInt8) (expected : List ByteRange)
    (hseen : ∀ l, acceptsFrom [] (seen ++ l) = acceptsFrom expected l) :
    acceptsFrom [] (lossyFrom seen expected bs) := by
  induction bs generalizing seen expected with
  | nil =>
    rw [lossyFrom]
    split_ifs with hempty
    · have hend := hseen []
      rw [List.append_nil] at hend
      exact hend.trans hempty
    · rfl
  | cons b bs ih =>
    have hnext : acceptsFrom [] (match follow b with
        | some expected => lossyFrom [b] expected bs
        | none => replacement ++ lossyFrom [] [] bs) := by
      cases hb : follow b with
      | none => exact (acceptsFrom_replacement _).trans (ih [] [] fun _ => rfl)
      | some expected => exact ih [b] expected fun l => acceptsFrom_nil_cons hb l
    cases expected with
    | nil => exact (hseen _).trans hnext
    | cons r expected =>
      simp only [lossyFrom]
      split_ifs with hr
      · refine ih (seen ++ [b]) expected fun l => ?_
        rw [List.append_assoc, hseen]
        exact acceptsFrom_cons_cons hr expected l
      · exact hnext

/-- **Only accepted strings are copied**, since what is copied is accepted. -/
theorem lossy_eq_iff {bs : List UInt8} : lossy bs = bs ↔ accepts bs := by
  refine ⟨fun h => ?_, lossy_of_accepts⟩
  rw [← h]
  exact acceptsFrom_lossyFrom bs [] [] fun _ => rfl

/-! ### Encoded strings are accepted -/

theorem ByteRange.has_ofNat_iff (r : ByteRange) {n : ℕ} (hn : n < 256) :
    r.Has (.ofNat n) ↔ r.lo.toNat ≤ n ∧ n ≤ r.hi.toNat := by
  rw [Has, UInt8.le_iff_toNat_le, UInt8.le_iff_toNat_le, UInt8.toNat_ofNat', Nat.mod_eq_of_lt hn]

private theorem continuation_has (n : ℕ) : continuation.Has (.ofNat (n % 0x40 + 0x80)) := by
  rw [ByteRange.has_ofNat_iff _ (by omega)]
  change 0x80 ≤ _ ∧ _ ≤ 0xBF
  omega

-- the first bytes of the encodings of one, two, three and four bytes

private theorem follow_one : ∀ n < 0x80, follow (.ofNat n) = some [] := by
  decide

private theorem follow_two :
    ∀ n < 0x20, 2 ≤ n → follow (.ofNat (n + 0xC0)) = some [continuation] := by
  decide

private theorem follow_three : ∀ n < 0x10, follow (.ofNat (n + 0xE0)) =
    some [⟨if n = 0 then 0xA0 else 0x80, if n = 0xD then 0x9F else 0xBF⟩, continuation] := by
  decide

private theorem follow_four : ∀ n < 5, follow (.ofNat (n + 0xF0)) =
    some [⟨if n = 0 then 0x90 else 0x80, if n = 4 then 0x8F else 0xBF⟩, continuation,
      continuation] := by
  decide

/-- The encoding of a character is read as one character. -/
theorem acceptsFrom_utf8EncodeChar (c : Char) (bs : List UInt8) :
    acceptsFrom [] (String.utf8EncodeChar c ++ bs) = acceptsFrom [] bs := by
  have hvalid : c.val.toNat < 0xD800 ∨ 0xDFFF < c.val.toNat ∧ c.val.toNat < 0x110000 := c.valid
  rw [String.utf8EncodeChar]
  generalize c.val.toNat = v at hvalid ⊢
  split_ifs with h1 h2 h3
  · exact acceptsFrom_nil_cons (follow_one v (by omega)) bs
  · simp only [List.cons_append, List.nil_append]
    rw [acceptsFrom_nil_cons (follow_two _ (by omega) (by omega)),
      acceptsFrom_cons_cons (continuation_has v)]
  · -- not below `0x800`, and not a surrogate
    simp only [List.cons_append, List.nil_append]
    rw [acceptsFrom_nil_cons (follow_three _ (by omega)), acceptsFrom_cons_cons,
      acceptsFrom_cons_cons (continuation_has v)]
    rw [ByteRange.has_ofNat_iff _ (by omega)]
    constructor <;> simp only <;> split_ifs <;> simp only [UInt8.reduceToNat] <;> omega
  · -- not below `0x10000`, and at most `0x10FFFF`
    have hv : 0xFFFF < v ∧ v < 0x110000 := by omega
    simp only [List.cons_append, List.nil_append]
    rw [acceptsFrom_nil_cons (follow_four _ (by omega)), acceptsFrom_cons_cons,
      acceptsFrom_cons_cons (continuation_has _), acceptsFrom_cons_cons (continuation_has v)]
    rw [ByteRange.has_ofNat_iff _ (by omega)]
    constructor <;> simp only <;> split_ifs <;> simp only [UInt8.reduceToNat] <;> omega

theorem accepts_flatMap_utf8EncodeChar (cs : List Char) :
    accepts (cs.flatMap String.utf8EncodeChar) := by
  induction cs with
  | nil => rfl
  | cons c cs ih => rwa [List.flatMap_cons, accepts, acceptsFrom_utf8EncodeChar]

/-- **Encoded strings are accepted.** -/
theorem accepts_of_isValidUTF8 {bs : List UInt8} (h : bs.toByteArray.IsValidUTF8) : accepts bs := by
  obtain ⟨cs, hcs⟩ := h
  rw [List.toByteArray_inj.mp hcs]
  exact accepts_flatMap_utf8EncodeChar cs

end Beethoven.Lib.Utf8
