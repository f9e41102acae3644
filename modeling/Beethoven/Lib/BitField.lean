import Mathlib.Data.Nat.Bitwise

/-!
# Fields of a word

A field is a range of the bits of a word. `BitField.put` places a value in a field, cut to the width
of the field, and `assemble` combines the fields of a word. When the fields are apart, each of them
is read back from the assembled word. Fields that stand one after the other are apart and leave no
bit out, so that they determine the word.

## Main definitions

* `BitField`, `BitField.Has`, `BitField.Apart`.
* `BitField.put`, `BitField.get`, `BitField.assemble`.
* `BitField.consecutive`: fields one after the other.

## Main results

* `BitField.put_add_width`: a value placed in two adjacent fields.
* `BitField.get_assemble`: fields that are apart are read back.
* `BitField.testBit_assemble_of_has`: a bit of the word depends on the field it belongs to only.
* `BitField.mod_eq_of_get_eq`: words with the same fields are equal.
-/

namespace Beethoven.Lib

/-- A range of the bits of a word. -/
structure BitField where
  offset : ℕ
  width : ℕ
  deriving DecidableEq, Repr

namespace BitField

variable (f g : BitField) {l : List (BitField × ℕ)} {n v i : ℕ}

/-- The bit `i` of a word belongs to the field. -/
def Has (i : ℕ) : Prop := f.offset ≤ i ∧ i < f.offset + f.width

instance : Decidable (f.Has i) := inferInstanceAs (Decidable (_ ∧ _))

theorem has_mk {offset width : ℕ} :
    (BitField.mk offset width).Has i ↔ offset ≤ i ∧ i < offset + width := Iff.rfl

/-- No bit belongs to both fields, one of them ending before the other starts. -/
def Apart : Prop := f.offset + f.width ≤ g.offset ∨ g.offset + g.width ≤ f.offset

instance : Decidable (f.Apart g) := inferInstanceAs (Decidable (_ ∨ _))

/-- The word with the low bits of `v` in the field, and zero elsewhere. -/
def put (v : ℕ) : ℕ := (v % 2 ^ f.width) <<< f.offset

/-- The value of the field in a word. -/
def get (w : ℕ) : ℕ := (w >>> f.offset) % 2 ^ f.width

/-- The word with the given values in its fields. -/
def assemble (l : List (BitField × ℕ)) : ℕ := l.foldr (fun p w => p.1.put p.2 ||| w) 0

variable {f g}

theorem Apart.symm (h : f.Apart g) : g.Apart f := Or.symm h

theorem Apart.not_has (h : f.Apart g) (hf : f.Has i) : ¬ g.Has i := by
  rintro ⟨hge, hlt⟩
  obtain ⟨hfge, hflt⟩ := hf
  obtain h | h := h <;> omega

theorem testBit_put : (f.put v).testBit i = (decide (f.Has i) && v.testBit (i - f.offset)) := by
  rw [put, Nat.testBit_shiftLeft, Nat.testBit_mod_two_pow, ← Bool.and_assoc]
  congr 1
  rw [← Bool.decide_and, decide_eq_decide, Has]
  omega

theorem put_lt (h : f.offset + f.width ≤ n) : f.put v < 2 ^ n := by
  refine Nat.lt_pow_two_of_testBit _ fun i hi => ?_
  have hhas : ¬ f.Has i := fun hhas => by
    have := hhas.2
    omega
  rw [testBit_put, decide_eq_false hhas, Bool.false_and]

/-- A value placed in a field is its low part below its high part. -/
theorem put_add_width (offset m n v : ℕ) :
    put ⟨offset, m + n⟩ v = put ⟨offset, m⟩ v ||| put ⟨offset + m, n⟩ (v >>> m) := by
  refine Nat.eq_of_testBit_eq fun i => ?_
  rw [Nat.testBit_or, testBit_put, testBit_put, testBit_put, Nat.testBit_shiftRight]
  by_cases hlow : i < offset + m
  · have hhigh : ¬ (BitField.mk (offset + m) n).Has i := by
      rw [has_mk]
      omega
    have hiff : (BitField.mk offset (m + n)).Has i ↔ (BitField.mk offset m).Has i := by
      rw [has_mk, has_mk]
      omega
    simp [hhigh, hiff]
  · have hnot : ¬ (BitField.mk offset m).Has i := fun h => hlow h.2
    have hiff : (BitField.mk offset (m + n)).Has i ↔ (BitField.mk (offset + m) n).Has i := by
      rw [has_mk, has_mk]
      omega
    have hsub : m + (i - (offset + m)) = i - offset := by omega
    simp [hnot, hiff, hsub]

/-! ### Assembled words -/

@[simp] theorem assemble_nil : assemble [] = 0 := rfl

@[simp] theorem assemble_cons (p : BitField × ℕ) :
    assemble (p :: l) = p.1.put p.2 ||| assemble l := rfl

theorem testBit_assemble :
    (assemble l).testBit i = l.any fun p => decide (p.1.Has i) && p.2.testBit (i - p.1.offset) := by
  induction l with
  | nil => simp
  | cons p l ih => rw [assemble_cons, Nat.testBit_or, testBit_put, ih, List.any_cons]

theorem assemble_lt (h : ∀ p ∈ l, p.1.offset + p.1.width ≤ n) : assemble l < 2 ^ n := by
  induction l with
  | nil => exact Nat.two_pow_pos n
  | cons p l ih =>
    refine Nat.or_lt_two_pow (put_lt (h p List.mem_cons_self)) (ih fun q hq => ?_)
    exact h q (List.mem_cons_of_mem _ hq)

/-- In a word whose fields are apart, a bit of a field is a bit of the value of that field. -/
theorem testBit_assemble_of_has (hl : l.Pairwise fun p q => p.1.Apart q.1) (hv : (f, v) ∈ l)
    (hi : f.Has i) : (assemble l).testBit i = v.testBit (i - f.offset) := by
  induction l with
  | nil => exact absurd hv List.not_mem_nil
  | cons p l ih =>
    obtain ⟨hp, hl⟩ := List.pairwise_cons.mp hl
    rw [assemble_cons, Nat.testBit_or, testBit_put]
    obtain rfl | hv := List.mem_cons.mp hv
    · have hrest : (assemble l).testBit i = false := by
        rw [testBit_assemble, List.any_eq_false]
        intro q hq
        simp [(hp q hq).not_has hi]
      rw [hrest, Bool.or_false, decide_eq_true hi, Bool.true_and]
    · rw [decide_eq_false ((hp _ hv).symm.not_has hi), Bool.false_and, Bool.false_or, ih hl hv]

/-- **Fields are read back.** In a word whose fields are apart, every field has the low bits of its
value. -/
theorem get_assemble (hl : l.Pairwise fun p q => p.1.Apart q.1) (hv : (f, v) ∈ l) :
    f.get (assemble l) = v % 2 ^ f.width := by
  refine Nat.eq_of_testBit_eq fun i => ?_
  rw [get, Nat.testBit_mod_two_pow, Nat.testBit_mod_two_pow, Nat.testBit_shiftRight]
  by_cases hi : i < f.width
  · rw [testBit_assemble_of_has hl hv ⟨Nat.le_add_right _ _, by omega⟩, Nat.add_sub_cancel_left]
  · rw [decide_eq_false hi, Bool.false_and, Bool.false_and]

/-! ### Fields one after the other -/

theorem testBit_get (w : ℕ) :
    (f.get w).testBit i = (decide (i < f.width) && w.testBit (f.offset + i)) := by
  rw [get, Nat.testBit_mod_two_pow, Nat.testBit_shiftRight]

theorem get_mod_two_pow (h : f.offset + f.width ≤ n) (w : ℕ) : f.get (w % 2 ^ n) = f.get w := by
  refine Nat.eq_of_testBit_eq fun i => ?_
  rw [testBit_get, testBit_get, Nat.testBit_mod_two_pow]
  by_cases hi : i < f.width
  · rw [decide_eq_true (show f.offset + i < n by omega), Bool.true_and]
  · rw [decide_eq_false hi, Bool.false_and, Bool.false_and]

/-- Words with the same values in fields that leave no bit out are equal. -/
theorem mod_eq_of_get_eq {κ : Type*} {fields : κ → BitField} {w w' : ℕ}
    (hfields : ∀ i < n, ∃ k, (fields k).Has i)
    (h : ∀ k, (fields k).get w = (fields k).get w') : w % 2 ^ n = w' % 2 ^ n := by
  refine Nat.eq_of_testBit_eq fun i => ?_
  rw [Nat.testBit_mod_two_pow, Nat.testBit_mod_two_pow]
  by_cases hi : i < n
  · obtain ⟨k, hge, hlt⟩ := hfields i hi
    have hbit := congrArg (Nat.testBit · (i - (fields k).offset)) (h k)
    simp only [testBit_get] at hbit
    rw [decide_eq_true (show i - (fields k).offset < (fields k).width by omega),
      Nat.add_sub_cancel' hge,
      Bool.true_and, Bool.true_and] at hbit
    rw [hbit]
  · rw [decide_eq_false hi, Bool.false_and, Bool.false_and]

/-- Fields of the given widths, one after the other from bit `offset` on. -/
def consecutive : (offset : ℕ) → List ℕ → List BitField
  | _, [] => []
  | offset, width :: widths => ⟨offset, width⟩ :: consecutive (offset + width) widths

theorem within_of_mem_consecutive {offset : ℕ} {widths : List ℕ}
    (h : f ∈ consecutive offset widths) :
    offset ≤ f.offset ∧ f.offset + f.width ≤ offset + widths.sum := by
  induction widths generalizing offset with
  | nil => cases h
  | cons width widths ih =>
    rw [List.sum_cons]
    obtain rfl | h := List.mem_cons.mp h
    · exact ⟨le_rfl, by dsimp only; omega⟩
    · have hwithin := ih h
      omega

theorem pairwise_apart_consecutive (offset : ℕ) (widths : List ℕ) :
    (consecutive offset widths).Pairwise Apart := by
  induction widths generalizing offset with
  | nil => exact .nil
  | cons width widths ih =>
    exact .cons (fun f hf => .inl (within_of_mem_consecutive hf).1) (ih _)

theorem exists_has_of_consecutive {offset : ℕ} {widths : List ℕ} (hge : offset ≤ i)
    (hlt : i < offset + widths.sum) : ∃ f ∈ consecutive offset widths, f.Has i := by
  induction widths generalizing offset with
  | nil =>
    rw [List.sum_nil] at hlt
    omega
  | cons width widths ih =>
    rw [List.sum_cons] at hlt
    by_cases hi : i < offset + width
    · exact ⟨_, List.mem_cons_self, hge, hi⟩
    · obtain ⟨f, hf, hhas⟩ := ih (not_lt.mp hi) (by omega)
      exact ⟨f, List.mem_cons_of_mem _ hf, hhas⟩

end BitField

end Beethoven.Lib
