import Mathlib.Data.List.Basic

/-!
# Loops that fill an array

A loop of a program that writes the elements of an array in order, each computed by a read that may
fall outside what it reads from. Such a loop succeeds if the array is long enough and all reads
succeed, and then the array begins with what was read.

## Main definitions

* `store`: a write to an array, which fails outside of it.
* `fill`: a loop that writes the first elements of an array.
* `slice`: consecutive elements of a memory.

## Main results

* `fill_isSome_iff`, `getElem?_of_fill`.
* `foldlM_range_mul`: a loop in a loop is one loop.
* `flatMap_slice`: slices one after the other are one slice.
-/

namespace Beethoven.Lib

variable {α β : Type*}

/-- A write to an array. -/
def store (l : List α) (i : ℕ) (a : α) : Option (List α) :=
  if i < l.length then some (l.set i a) else none

theorem store_eq_some_iff {l l' : List α} {i : ℕ} {a : α} :
    store l i a = some l' ↔ i < l.length ∧ l.set i a = l' := by
  simp [store]

/-- The first `n` elements of an array are read and written in order. -/
def fill (read : ℕ → Option α) (n : ℕ) (l : List α) : Option (List α) :=
  (List.range n).foldlM (fun l i => (read i).bind (store l i)) l

section Fill

variable {read : ℕ → Option α} {n : ℕ} {l l' : List α}

theorem fill_succ (read : ℕ → Option α) (n : ℕ) (l : List α) :
    fill read (n + 1) l = (fill read n l).bind fun l' => (read n).bind (store l' n) := by
  simp [fill, List.range_succ]

theorem fill_succ_eq_some_iff :
    fill read (n + 1) l = some l' ↔
      ∃ l₁ a, fill read n l = some l₁ ∧ read n = some a ∧ n < l₁.length ∧ l₁.set n a = l' := by
  simp only [fill_succ, Option.bind_eq_some_iff, store_eq_some_iff]
  constructor
  · rintro ⟨l₁, h₁, a, ha, h⟩
    exact ⟨l₁, a, h₁, ha, h⟩
  · rintro ⟨l₁, a, h₁, ha, h⟩
    exact ⟨l₁, h₁, a, ha, h⟩

theorem length_of_fill (h : fill read n l = some l') : l'.length = l.length := by
  induction n generalizing l' with
  | zero =>
    obtain rfl := Option.some.inj h
    rfl
  | succ n ih =>
    obtain ⟨l₁, a, h₁, -, -, rfl⟩ := fill_succ_eq_some_iff.mp h
    rw [List.length_set, ih h₁]

/-- The array begins with what was read, and the rest of it is left. -/
theorem getElem?_of_fill (h : fill read n l = some l') (i : ℕ) :
    l'[i]? = if i < n then read i else l[i]? := by
  induction n generalizing l' with
  | zero =>
    obtain rfl := Option.some.inj h
    rfl
  | succ n ih =>
    obtain ⟨l₁, a, h₁, ha, hn, rfl⟩ := fill_succ_eq_some_iff.mp h
    rcases Nat.lt_trichotomy i n with hlt | rfl | hgt
    · rw [List.getElem?_set_ne (by omega), ih h₁, if_pos hlt, if_pos (by omega)]
    · rw [List.getElem?_set_self hn, if_pos (by omega), ha]
    · rw [List.getElem?_set_ne (by omega), ih h₁, if_neg (by omega), if_neg (by omega)]

theorem fill_isSome_iff :
    (fill read n l).isSome ↔ n ≤ l.length ∧ ∀ i < n, (read i).isSome := by
  induction n with
  | zero => simp [fill]
  | succ n ih =>
    constructor
    · intro h
      obtain ⟨l', h⟩ := Option.isSome_iff_exists.mp h
      obtain ⟨l₁, a, h₁, ha, hn, -⟩ := fill_succ_eq_some_iff.mp h
      rw [length_of_fill h₁] at hn
      refine ⟨hn, fun i hi => ?_⟩
      rcases Nat.lt_succ_iff_lt_or_eq.mp hi with hi | rfl
      · exact (ih.mp (Option.isSome_of_eq_some h₁)).2 i hi
      · exact Option.isSome_of_eq_some ha
    · rintro ⟨hn, hread⟩
      have hbefore := ih.mpr ⟨Nat.le_of_succ_le hn, fun i hi => hread i (by omega)⟩
      obtain ⟨l₁, h₁⟩ := Option.isSome_iff_exists.mp hbefore
      obtain ⟨a, ha⟩ := Option.isSome_iff_exists.mp (hread n (by omega))
      have hlen : n < l₁.length := by rwa [length_of_fill h₁]
      exact Option.isSome_of_eq_some (fill_succ_eq_some_iff.mpr ⟨l₁, a, h₁, ha, hlen, rfl⟩)

end Fill

theorem foldlM_congr {f g : β → α → Option β} {l : List α} (h : ∀ b, ∀ a ∈ l, f b a = g b a)
    (b : β) : l.foldlM f b = l.foldlM g b := by
  induction l generalizing b with
  | nil => rfl
  | cons a l ih =>
    have htail := ih fun b a ha => h b a (List.mem_cons_of_mem _ ha)
    simp [List.foldlM_cons, h b a List.mem_cons_self, htail]

/-- A loop of `m` passes over `k` positions each is one loop over `m * k` positions. -/
theorem foldlM_range_mul {f : β → ℕ → Option β} {g : β → ℕ → ℕ → Option β} {k : ℕ}
    (hg : ∀ b i, ∀ j < k, g b i j = f b (i * k + j)) (m : ℕ) (b : β) :
    (List.range m).foldlM (fun b i => (List.range k).foldlM (fun b j => g b i j) b) b =
      (List.range (m * k)).foldlM f b := by
  induction m with
  | zero => simp
  | succ m ih =>
    have hlast (b : β) := foldlM_congr (l := List.range k)
      (fun b j hj => hg b m j (List.mem_range.mp hj)) b
    rw [List.range_succ, List.foldlM_append, ih, Nat.succ_mul, List.range_add, List.foldlM_append]
    simp [List.foldlM_map, hlast]

/-! ### Slices of a memory -/

/-- The `n` elements of a memory from address `a` on. -/
def slice (f : ℕ → α) (a n : ℕ) : List α := (List.range n).map fun k => f (a + k)

@[simp] theorem length_slice (f : ℕ → α) (a n : ℕ) : (slice f a n).length = n := by simp [slice]

theorem slice_eq_iff {f g : ℕ → α} {a n : ℕ} :
    slice f a n = slice g a n ↔ ∀ k < n, f (a + k) = g (a + k) := by
  rw [slice, slice, List.map_inj_left]
  exact forall_congr' fun k => imp_congr_left List.mem_range

theorem slice_append (f : ℕ → α) (a m n : ℕ) :
    slice f a m ++ slice f (a + m) n = slice f a (m + n) := by
  simp [slice, List.range_add, Nat.add_assoc]

theorem flatMap_slice (f : ℕ → α) (a w n : ℕ) :
    ((List.range n).flatMap fun k => slice f (a + w * k) w) = slice f a (w * n) := by
  induction n with
  | zero => rfl
  | succ n ih =>
    rw [List.range_succ, List.flatMap_append, ih, List.flatMap_singleton, slice_append,
      Nat.mul_succ]

end Beethoven.Lib
