import Beethoven.Lib.ArrayLoops
import Beethoven.Memory.Lanes
import Mathlib.Data.BitVec
import Mathlib.Tactic.IntervalCases

/-!
# Wide signals of the simulator

The simulator hands the value of a wide signal over as a vector of words of 32 bits. The handle of a
wide signal keeps the width of the signal, in bits, as its number of chunks, and uses it as a number
of words and as a number of bytes. `getArray` therefore reads eight times as many words as the
vector has, and `setArray` reads 32 times as many words of the caller's array as the signal has.
Reads outside of an array have no value here. Both functions succeed exactly if the memory behind
the arrays is that large (`getArray_isSome_iff`, `setArray_isSome_iff`), and never on arrays of the
size of the signal (`not_wideAccess_words`). The bytes that `getArray` returns first are those of
the signal, whatever stands behind the vector.
-/

namespace Beethoven.Memory

open Lib

/-! ### Signals -/

/-- `s_vpi_vecval`: a word of a vector. The bits of `bval` mark the bits of `aval` that are
unknown or that nothing drives. -/
structure VecVal where
  aval : UInt32
  bval : UInt32
  deriving DecidableEq, Repr

/-- The number that words of 32 bits stand for, the lowest word first. -/
def ofUInt32s : List UInt32 → ℕ
  | [] => 0
  | a :: l => a.toNat + 2 ^ 32 * ofUInt32s l

/-- A signal of `w` bits. -/
@[ext]
structure Signal (w : ℕ) where
  aval : BitVec w
  bval : BitVec w
  deriving DecidableEq, Repr

namespace Signal

variable {w : ℕ} (s : Signal w)

/-- A word of a signal. -/
def word (i : ℕ) : VecVal :=
  ⟨.ofBitVec (s.aval.extractLsb' (32 * i) 32), .ofBitVec (s.bval.extractLsb' (32 * i) 32)⟩

/-- The vector of a signal, as `vpi_get_value` gives it. -/
def words : List VecVal := (List.range ((w + 31) / 32)).map s.word

/-- A byte of a signal, the first one being that of the lowest bits. -/
def byte (j : ℕ) : UInt8 := .ofBitVec (s.aval.extractLsb' (8 * j) 8)

/-- The signal that `vpi_put_value` makes of a vector, if the vector has all its words. -/
def ofWords (w : ℕ) (vec : List VecVal) : Option (Signal w) :=
  if (w + 31) / 32 ≤ vec.length then
    some ⟨.ofNat w (ofUInt32s (vec.map VecVal.aval)), .ofNat w (ofUInt32s (vec.map VecVal.bval))⟩
  else none

/-- The integer value of a signal, where unknown bits are zero. -/
def intVal : UInt32 := .ofBitVec ((s.aval &&& ~~~ s.bval).setWidth 32)

@[simp] theorem length_words : s.words.length = (w + 31) / 32 := by simp [words]

theorem getElem?_words {i : ℕ} (h : i < (w + 31) / 32) : s.words[i]? = some (s.word i) := by
  simp [words, h]

theorem getElem?_of_isPrefix {vector : List VecVal} (hv : s.words <+: vector) {i : ℕ}
    (h : i < (w + 31) / 32) : vector[i]? = some (s.word i) := by
  obtain ⟨rest, rfl⟩ := hv
  rw [List.getElem?_append_left (by rwa [length_words]), s.getElem?_words h]

theorem ofWords_isSome_iff {vec : List VecVal} :
    (ofWords w vec).isSome ↔ (w + 31) / 32 ≤ vec.length := by
  simp [ofWords]

end Signal

/-! ### The handle -/

/-- `VCSLongHandle`. -/
structure VCSLongHandle where
  nchunks : ℕ
  deriving DecidableEq, Repr

/-- A byte of a word. -/
def byteOf (payload : UInt32) (off : ℕ) : UInt8 :=
  let mask : UInt32 := 0xFF <<< UInt32.ofNat (off * 8)
  ((payload &&& mask) >>> UInt32.ofNat (off * 8)).toUInt8

theorem byteOf_eq (payload : BitVec 32) {off : ℕ} (h : off < 4) :
    byteOf (.ofBitVec payload) off = .ofBitVec (payload.extractLsb' (8 * off) 8) := by
  apply UInt8.toBitVec_inj.mp
  interval_cases off
  all_goals
    simp only [byteOf]
    ext k hk
    interval_cases k <;> simp

theorem byteOf_word {w : ℕ} (s : Signal w) {i off : ℕ} (h : off < 4) :
    byteOf (s.word i).aval off = s.byte (4 * i + off) := by
  rw [Signal.word, byteOf_eq _ h, Signal.byte]
  congr 1
  ext k hk
  have hlt : 8 * off + k < 32 := by omega
  simp [hlt, Nat.mul_add, ← Nat.mul_assoc, Nat.add_assoc]

namespace VCSLongHandle

variable {w : ℕ}

/-- The constructor asks the simulator for `vpiSize`, which is the width of the signal. -/
def ofSignal (_ : Signal w) : VCSLongHandle := ⟨w⟩

/-- `get(int)`. The vector of the signal is at the front of `vector`, the memory that the simulator
points to. -/
def get (h : VCSLongHandle) (s : Signal w) (vector : List VecVal) (idx : ℕ) : Option UInt32 :=
  if h.nchunks = 1 then some s.intVal else vector[idx]?.map VecVal.aval

/-- `get_array`. The new array has the contents `fresh`. -/
def getArray (h : VCSLongHandle) (vector : List VecVal) (fresh : List UInt8) :
    Option (List UInt8) :=
  -- the bound is right for a number of bytes, and `nchunks` is a number of bits
  (List.range (h.nchunks / 4)).foldlM (fun ret idx =>
    (List.range 4).foldlM (fun ret off => do
      let i := idx * 4 + off
      let payload ← vector[idx]?
      store ret i (byteOf payload.aval off)) ret) fresh

/-- The vector that `set(const uint32_t *)` gives to the simulator. The new array has the contents
`fresh`. -/
def setVector (h : VCSLongHandle) (val : List UInt32) (fresh : List VecVal) :
    Option (List VecVal) :=
  -- the bound is right for a number of words
  (List.range h.nchunks).foldlM (fun vec i => do
    let a ← val[i]?
    store vec i ⟨a, 0⟩) fresh

/-- `set(const uint32_t *)`. -/
def setArray (h : VCSLongHandle) (w : ℕ) (val : List UInt32) (fresh : List VecVal) :
    Option (Signal w) :=
  (h.setVector val fresh).bind (Signal.ofWords w)

/-- `set(const uint32_t &, uint32_t)`. -/
def setChunk (_ : VCSLongHandle) (w : ℕ) (vector : List VecVal) (payload : UInt32) (chunk : ℕ) :
    Option (Signal w) :=
  (store vector chunk ⟨payload, 0⟩).bind (Signal.ofWords w)

/-! ### Reading -/

theorem getArray_eq_fill (h : VCSLongHandle) (vector : List VecVal) (fresh : List UInt8) :
    h.getArray vector fresh =
      fill (fun i => vector[i / 4]?.map fun v => byteOf v.aval (i % 4)) (h.nchunks / 4 * 4)
        fresh := by
  refine foldlM_range_mul (fun ret idx off hoff => ?_) _ _
  have hdiv : (idx * 4 + off) / 4 = idx := by omega
  have hmod : (idx * 4 + off) % 4 = off := by omega
  simp only [hdiv, hmod, Option.bind_map, Function.comp_def]
  rfl

/-- The reads stay in the vector if it has a word for every four bits of the signal. -/
theorem getArray_isSome_iff {h : VCSLongHandle} {vector : List VecVal} {fresh : List UInt8}
    (hf : fresh.length = h.nchunks) :
    (h.getArray vector fresh).isSome ↔ h.nchunks / 4 ≤ vector.length := by
  rw [getArray_eq_fill, fill_isSome_iff]
  simp only [Option.isSome_map, isSome_getElem?, hf]
  constructor
  · rintro ⟨-, hread⟩
    by_contra hlt
    have := hread (vector.length * 4) (by omega)
    omega
  · intro hle
    exact ⟨by omega, fun i hi => by omega⟩

theorem getElem?_getArray {s : Signal w} {vector : List VecVal} {fresh bytes : List UInt8}
    (hv : s.words <+: vector) (h : (ofSignal s).getArray vector fresh = some bytes) {j : ℕ}
    (hj : j < w / 8) : bytes[j]? = some (s.byte j) := by
  rw [getArray_eq_fill] at h
  have hn : (ofSignal s).nchunks = w := rfl
  rw [getElem?_of_fill h, if_pos (by omega), s.getElem?_of_isPrefix hv (by omega), Option.map_some,
    byteOf_word s (Nat.mod_lt j (by decide)), Nat.div_add_mod]

/-! ### Writing -/

theorem setVector_eq_fill (h : VCSLongHandle) (val : List UInt32) (fresh : List VecVal) :
    h.setVector val fresh = fill (fun i => val[i]?.map fun a => ⟨a, 0⟩) h.nchunks fresh := by
  simp only [setVector, fill, Option.bind_map, Function.comp_def]
  rfl

theorem setVector_isSome_iff {h : VCSLongHandle} {val : List UInt32} {fresh : List VecVal}
    (hf : fresh.length = h.nchunks) :
    (h.setVector val fresh).isSome ↔ h.nchunks ≤ val.length := by
  rw [setVector_eq_fill, fill_isSome_iff]
  simp only [Option.isSome_map, isSome_getElem?, hf]
  constructor
  · rintro ⟨-, hread⟩
    by_contra hlt
    have := hread val.length (by omega)
    omega
  · intro hle
    exact ⟨le_rfl, fun i hi => by omega⟩

/-- The reads stay in the caller's array if it has a word for every bit of the signal. -/
theorem setArray_isSome_iff (s : Signal w) {val : List UInt32} {fresh : List VecVal}
    (hf : fresh.length = w) :
    ((ofSignal s).setArray w val fresh).isSome ↔ w ≤ val.length := by
  have hvector : ((ofSignal s).setVector val fresh).isSome ↔ w ≤ val.length :=
    setVector_isSome_iff hf
  rw [← hvector, setArray]
  cases hset : (ofSignal s).setVector val fresh with
  | none => simp
  | some vec =>
    rw [setVector_eq_fill] at hset
    have hlen : vec.length = w := (length_of_fill hset).trans hf
    simp only [Option.bind_some, Signal.ofWords_isSome_iff, Option.isSome_some, iff_true]
    omega

end VCSLongHandle

/-! ### Accesses of a wide signal -/

open VCSLongHandle

section

variable {w : ℕ} {s : Signal w} {val : List UInt32} {freshBytes : List UInt8}
  {freshVector : List VecVal}

/-- `get_array` reads past the words of the signal. -/
theorem getArray_words (hw : 0 < w) (hdvd : 32 ∣ w) (hb : freshBytes.length = w) :
    (ofSignal s).getArray s.words freshBytes = none := by
  have hget : ((ofSignal s).getArray s.words freshBytes).isSome ↔ w / 4 ≤ s.words.length :=
    getArray_isSome_iff hb
  rw [← Option.not_isSome_iff_eq_none, hget, s.length_words]
  omega

/-- `set` reads past a caller's array of as many words as the signal has. -/
theorem setArray_words (hw : 0 < w) (hval : val.length = w / 32) (hf : freshVector.length = w) :
    (ofSignal s).setArray w val freshVector = none := by
  rw [← Option.not_isSome_iff_eq_none, setArray_isSome_iff s hf]
  omega

/-- **Wide signals.** On the vector of a signal, of whatever width, and a caller's array of as many
words, both functions leave their arrays: `get_array` reads a word for every four bits of the signal
and `set` one for every bit. Where other memory stands behind the vector and `get_array` returns,
its first bytes are those of the signal. -/
theorem not_wideAccess_words (hw : 0 < w) (hdvd : 32 ∣ w) (hval : val.length = w / 32)
    (hb : freshBytes.length = w) (hf : freshVector.length = w) :
    (ofSignal s).getArray s.words freshBytes = none ∧
      (ofSignal s).setArray w val freshVector = none ∧
      ∀ vector bytes, s.words <+: vector → (ofSignal s).getArray vector freshBytes = some bytes →
        ∀ j < w / 8, bytes[j]? = some (s.byte j) :=
  ⟨getArray_words hw hdvd hb, setArray_words hw hval hf,
    fun _ _ hv hbytes _ hj => getElem?_getArray hv hbytes hj⟩

/-- A signal of two words, and the bytes of a vector with other memory behind it. -/
theorem not_wideAccess_words_two :
    let s : Signal 64 := ⟨0x0807060504030201, 0⟩
    (ofSignal s).getArray s.words (.replicate 64 0) = none ∧
      (ofSignal s).setArray 64 [0x04030201, 0x08070605] (.replicate 64 ⟨0, 0⟩) = none ∧
      ∃ bytes, (ofSignal s).getArray (s.words ++ .replicate 14 ⟨0, 0⟩) (.replicate 64 0) =
        some bytes ∧ ∀ j < 8, bytes[j]? = some (s.byte j) := by
  intro s
  have hval : [(0x04030201 : UInt32), 0x08070605].length = 64 / 32 := rfl
  have hfresh : (List.replicate 64 (0 : UInt8)).length = 64 := List.length_replicate
  have hvector : (List.replicate 64 (⟨0, 0⟩ : VecVal)).length = 64 := List.length_replicate
  obtain ⟨hget, hset, hbytes⟩ :=
    not_wideAccess_words (s := s) (by decide) (by decide) hval hfresh hvector
  have hlong : 64 / 4 ≤ (s.words ++ .replicate 14 ⟨0, 0⟩).length := by decide
  obtain ⟨bytes, hsome⟩ :=
    Option.isSome_iff_exists.mp ((getArray_isSome_iff (h := ofSignal s) hfresh).mpr hlong)
  exact ⟨hget, hset, bytes, hsome, hbytes _ bytes (List.prefix_append _ _) hsome⟩

/-- For a signal of one word, `get_array` reads eight words and `set` reads 32. -/
theorem not_wideAccess :
    let s : Signal 32 := ⟨0x04030201, 0⟩
    s.words = [⟨0x04030201, 0⟩] ∧
      (ofSignal s).getArray s.words (.replicate 32 0) = none ∧
      (ofSignal s).setArray 32 [0x04030201] (.replicate 32 ⟨0, 0⟩) = none :=
  ⟨by decide, getArray_words (by decide) (Nat.dvd_refl 32) List.length_replicate,
    setArray_words (by decide) rfl List.length_replicate⟩

end

/-- The controller stores the bytes of the data signal, whatever stands behind its vector. -/
theorem storeBeat_getArray {c : Config} {s : Signal (8 * c.dataBusBytes)} {vector : List VecVal}
    {fresh bytes : List UInt8} (hv : s.words <+: vector)
    (h : (ofSignal s).getArray vector fresh = some bytes) {beat : WriteDataIn}
    (hbeat : ∀ j, beat.data j = bytes.getD j 0) (addr : ℕ) (host : Host) {n : ℕ}
    (hn : n < c.dataBusBytes) (hstrb : beat.strb.testBit n = true) :
    State.storeBeat c beat addr host (addr + n) = s.byte n := by
  have hbyte : bytes[n]? = some (s.byte n) := getElem?_getArray hv h (by omega)
  rw [State.storeBeat_apply, Nat.add_sub_cancel_left, if_pos ⟨by omega, by omega, hstrb⟩, hbeat,
    List.getD_eq_getElem?_getD, hbyte, Option.getD_some]

end Beethoven.Memory
