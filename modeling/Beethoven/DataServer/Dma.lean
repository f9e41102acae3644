import Mathlib.Algebra.BigOperators.Group.List.Basic
import Mathlib.Data.UInt

/-!
# Chunks of a simulated transfer

With a simulated DMA engine the data server moves data in chunks. In each iteration of its loop it
draws a random number of 64-byte beats, at most 64 and at most what is left, hands the chunk to the
simulator and waits until it has been moved (`runtime/src/core/data_server.cc`, operations
`MOVE_FROM_FPGA` and `MOVE_TO_FPGA`). The random number is taken modulo the number of whole beats
that are left. That number is zero when less than a beat is left, so a transfer ends if and only if
its length is a multiple of 64 bytes.

The two loops differ in the direction that they ask for and in whether the number of beats is drawn
before or after `dma_lock` is taken, which the simulator releases in each of its ticks.
-/

namespace Beethoven.DataServer

/-- What the data server hands to the simulator in one iteration. -/
structure Chunk where
  dmaPtr : ℕ
  dmaFpgaAddr : UInt64
  dmaLen : UInt64
  dmaWrite : Bool
  deriving DecidableEq, Repr

/-- The variables of the loop. -/
structure DmaTransfer where
  ptr1 : ℕ
  ptr2 : UInt64
  amtLeft : UInt64
  /-- History: the chunks that were handed over. -/
  chunks : List Chunk := []
  /-- History: a chunk was longer than what was left. -/
  wrapped : Bool := false
  deriving DecidableEq, Repr

namespace DmaTransfer

variable (t : DmaTransfer)

/-- The divisor `std::min(uint64_t(64), amt_left >> 6)`. -/
def maxBeats : UInt64 := min 64 (t.amtLeft >>> 6)

/-- The number of beats of the next chunk, for the result of `rand()`. -/
def nBeatsHere (rand : UInt64) : UInt64 := max 1 (rand % t.maxBeats)

/-- An iteration, unless it takes a remainder by zero. -/
def iterate (dmaWrite : Bool) (rand : UInt64) : Option DmaTransfer :=
  if t.maxBeats = 0 then none
  else
    let n := t.nBeatsHere rand
    some
      { ptr1 := t.ptr1 + (64 * n).toNat
        ptr2 := t.ptr2 + 64 * n
        amtLeft := t.amtLeft - n * 64
        chunks := t.chunks ++ [⟨t.ptr1, t.ptr2, 64 * n, dmaWrite⟩]
        wrapped := t.wrapped || t.amtLeft < n * 64 }

end DmaTransfer

/-- How the loop ends; it is still running if the number of iterations is too small. -/
inductive Moved where
  | finished (t : DmaTransfer)
  | remainderByZero (t : DmaTransfer)
  | running
  deriving DecidableEq, Repr

/-- The loop of both operations, for at most `fuel` iterations; `rand k` is the number drawn for
chunk `k`. -/
def moveLoop (dmaWrite : Bool) (rand : ℕ → UInt64) : ℕ → DmaTransfer → Moved
  | 0, _ => .running
  | fuel + 1, t =>
    if t.amtLeft > 0 then
      match t.iterate dmaWrite (rand t.chunks.length) with
      | none => .remainderByZero t
      | some t' => moveLoop dmaWrite rand fuel t'
    else .finished t

/-- The loop of `MOVE_FROM_FPGA`. -/
def moveFromFpga (rand : ℕ → UInt64) (fuel ptr : ℕ) (fpgaAddr len : UInt64) : Moved :=
  moveLoop false rand fuel { ptr1 := ptr, ptr2 := fpgaAddr, amtLeft := len }

/-- The loop of `MOVE_TO_FPGA`. -/
def moveToFpga (rand : ℕ → UInt64) (fuel ptr : ℕ) (fpgaAddr len : UInt64) : Moved :=
  moveLoop true rand fuel { ptr1 := ptr, ptr2 := fpgaAddr, amtLeft := len }

/-- The number of bytes of a list of chunks. -/
def totalLen (l : List Chunk) : ℕ := (l.map fun c => c.dmaLen.toNat).sum

/-- The chunks are 1 to 64 whole beats each; the first one starts at the given addresses and every
other one where the one before it ends. -/
def Consecutive (dmaWrite : Bool) : ℕ → UInt64 → List Chunk → Prop
  | _, _, [] => True
  | ptr, fpgaAddr, c :: l =>
    c.dmaPtr = ptr ∧ c.dmaFpgaAddr = fpgaAddr ∧ c.dmaWrite = dmaWrite ∧
      (∃ n, 1 ≤ n ∧ n ≤ 64 ∧ c.dmaLen.toNat = 64 * n) ∧
      Consecutive dmaWrite (ptr + c.dmaLen.toNat) (fpgaAddr + c.dmaLen) l

/-! ### One iteration -/

namespace DmaTransfer

variable {t t' : DmaTransfer} {dmaWrite : Bool} {rand : UInt64}

theorem toNat_maxBeats (t : DmaTransfer) : t.maxBeats.toNat = min 64 (t.amtLeft.toNat / 64) := by
  have hshift : (t.amtLeft >>> 6).toNat = t.amtLeft.toNat / 64 := by
    rw [UInt64.toNat_shiftRight, Nat.shiftRight_eq_div_pow]
    rfl
  have hmin : t.maxBeats =
      if (64 : UInt64) ≤ t.amtLeft >>> 6 then (64 : UInt64) else t.amtLeft >>> 6 := rfl
  rw [hmin, ← hshift]
  split_ifs with hle
  · exact (min_eq_left (UInt64.le_iff_toNat_le.mp hle)).symm
  · exact (min_eq_right (UInt64.le_iff_toNat_le.mp (UInt64.le_of_lt (UInt64.not_le.mp hle)))).symm

theorem maxBeats_eq_zero_iff : t.maxBeats = 0 ↔ t.amtLeft.toNat < 64 := by
  rw [← UInt64.toNat_inj, toNat_maxBeats]
  simp only [UInt64.reduceToNat]
  omega

theorem nBeatsHere_bounds (h : t.maxBeats ≠ 0) (rand : UInt64) :
    1 ≤ (t.nBeatsHere rand).toNat ∧ (t.nBeatsHere rand).toNat ≤ t.maxBeats.toNat := by
  have hpos : 0 < t.maxBeats.toNat := by
    refine Nat.pos_of_ne_zero fun hzero => h ?_
    rw [← UInt64.toNat_inj]
    exact hzero
  have hmod : (rand % t.maxBeats).toNat < t.maxBeats.toNat := by
    rw [UInt64.toNat_mod]
    exact Nat.mod_lt _ hpos
  have hmax : t.nBeatsHere rand = if 1 ≤ rand % t.maxBeats then rand % t.maxBeats else 1 := rfl
  rw [hmax]
  split_ifs with hle
  · exact ⟨UInt64.le_iff_toNat_le.mp hle, hmod.le⟩
  · exact ⟨le_rfl, hpos⟩

/-- An iteration that takes `t` to `t'` hands over the chunk `c` of `n` beats, which were left. -/
structure HandsOver (dmaWrite : Bool) (t : DmaTransfer) (c : Chunk) (n : ℕ) (t' : DmaTransfer) :
    Prop where
  one_le : 1 ≤ n
  le : n ≤ 64
  dmaLen : c.dmaLen.toNat = 64 * n
  dmaPtr : c.dmaPtr = t.ptr1
  dmaFpgaAddr : c.dmaFpgaAddr = t.ptr2
  dmaWrite : c.dmaWrite = dmaWrite
  ptr1 : t'.ptr1 = t.ptr1 + c.dmaLen.toNat
  ptr2 : t'.ptr2 = t.ptr2 + c.dmaLen
  chunks : t'.chunks = t.chunks ++ [c]
  wrapped : t'.wrapped = t.wrapped
  amtLeft : t'.amtLeft.toNat + 64 * n = t.amtLeft.toNat

/-- **One iteration** hands over a chunk if a whole beat is left. -/
theorem iterate_eq_some (h : 64 ≤ t.amtLeft.toNat) (dmaWrite : Bool) (rand : UInt64) :
    ∃ t' c n, t.iterate dmaWrite rand = some t' ∧ HandsOver dmaWrite t c n t' := by
  have hne : t.maxBeats ≠ 0 := fun hzero => (maxBeats_eq_zero_iff.mp hzero).not_ge h
  obtain ⟨hone, hle⟩ := nBeatsHere_bounds hne rand
  rw [toNat_maxBeats, le_min_iff] at hle
  -- neither product wraps, as there are at most 64 beats
  have hlen : (64 * t.nBeatsHere rand).toNat = 64 * (t.nBeatsHere rand).toNat := by
    rw [UInt64.toNat_mul]
    exact Nat.mod_eq_of_lt (by simp only [UInt64.reduceToNat]; omega)
  have hbytes : t.nBeatsHere rand * 64 = 64 * t.nBeatsHere rand := UInt64.mul_comm _ _
  have hleft : 64 * t.nBeatsHere rand ≤ t.amtLeft := by
    rw [UInt64.le_iff_toNat_le, hlen]
    omega
  refine ⟨_, ⟨t.ptr1, t.ptr2, 64 * t.nBeatsHere rand, dmaWrite⟩, (t.nBeatsHere rand).toNat,
    if_neg hne, hone, hle.1, hlen, rfl, rfl, rfl, rfl, rfl, rfl, ?_, ?_⟩
  · simp [hbytes, UInt64.not_lt.mpr hleft]
  · dsimp only
    rw [hbytes, UInt64.toNat_sub_of_le _ _ hleft, hlen]
    omega

end DmaTransfer

/-! ### The loop -/

/-- The loop with less than a beat left: it ends, or it takes a remainder by zero. -/
theorem moveLoop_of_lt {t : DmaTransfer} (h : t.amtLeft.toNat < 64) (dmaWrite : Bool)
    (rand : ℕ → UInt64) (fuel : ℕ) : moveLoop dmaWrite rand (fuel + 1) t =
      if t.amtLeft.toNat % 64 = 0 then .finished t else .remainderByZero t := by
  have hiterate : t.iterate dmaWrite (rand t.chunks.length) = none :=
    if_pos (DmaTransfer.maxBeats_eq_zero_iff.mpr h)
  rw [moveLoop, hiterate, Nat.mod_eq_of_lt h]
  by_cases hzero : t.amtLeft.toNat = 0
  · rw [if_pos hzero, if_neg]
    rw [gt_iff_lt, UInt64.lt_iff_toNat_lt, hzero]
    exact lt_irrefl 0
  · rw [if_neg hzero, if_pos]
    rw [gt_iff_lt, UInt64.lt_iff_toNat_lt]
    exact Nat.pos_of_ne_zero hzero

/-- **The loop**, for every length: it hands over the whole beats that are left, and then takes a
remainder by zero if some bytes are left. -/
theorem moveLoop_spec (dmaWrite : Bool) (rand : ℕ → UInt64) (t : DmaTransfer) :
    ∃ (t' : DmaTransfer) (l : List Chunk),
      (∀ fuel, t.amtLeft.toNat / 64 < fuel → moveLoop dmaWrite rand fuel t =
        if t.amtLeft.toNat % 64 = 0 then .finished t' else .remainderByZero t') ∧
      t'.chunks = t.chunks ++ l ∧ t'.wrapped = t.wrapped ∧
      Consecutive dmaWrite t.ptr1 t.ptr2 l ∧ totalLen l = 64 * (t.amtLeft.toNat / 64) := by
  induction hn : t.amtLeft.toNat using Nat.strongRecOn generalizing t with
  | ind n ih =>
    subst hn
    by_cases hbeat : t.amtLeft.toNat < 64
    · refine ⟨t, [], fun fuel hfuel => ?_, (List.append_nil _).symm, rfl, trivial, ?_⟩
      · obtain ⟨fuel, rfl⟩ := Nat.exists_eq_succ_of_ne_zero (Nat.ne_zero_of_lt hfuel)
        exact moveLoop_of_lt hbeat dmaWrite rand fuel
      · rw [Nat.div_eq_of_lt hbeat]
        rfl
    · have hbeat := not_lt.mp hbeat
      obtain ⟨t₁, c, n, hiterate, hchunk⟩ :=
        DmaTransfer.iterate_eq_some hbeat dmaWrite (rand t.chunks.length)
      have hone := hchunk.one_le
      have hleft := hchunk.amtLeft
      obtain ⟨t', l, hloop, hchunks, hwrapped, hconsecutive, htotal⟩ :=
        ih t₁.amtLeft.toNat (by omega) t₁ rfl
      refine ⟨t', c :: l, fun fuel hfuel => ?_, ?_, hwrapped.trans hchunk.wrapped, ?_, ?_⟩
      · obtain ⟨fuel, rfl⟩ := Nat.exists_eq_succ_of_ne_zero (Nat.ne_zero_of_lt hfuel)
        have hpos : t.amtLeft > 0 := by
          rw [gt_iff_lt, UInt64.lt_iff_toNat_lt]
          exact lt_of_lt_of_le (by decide) hbeat
        have hmod : t₁.amtLeft.toNat % 64 = t.amtLeft.toNat % 64 := by omega
        rw [moveLoop, if_pos hpos, hiterate, ← hmod]
        exact hloop fuel (by omega)
      · rw [hchunks, hchunk.chunks, List.append_assoc]
        rfl
      · refine ⟨hchunk.dmaPtr, hchunk.dmaFpgaAddr, hchunk.dmaWrite,
          ⟨n, hone, hchunk.le, hchunk.dmaLen⟩, ?_⟩
        rw [← hchunk.ptr1, ← hchunk.ptr2]
        exact hconsecutive
      · have hcons : totalLen (c :: l) = c.dmaLen.toNat + totalLen l := rfl
        rw [hcons, htotal, hchunk.dmaLen]
        omega

/-- A transfer that is not of whole beats takes a remainder by zero, for every random sequence. -/
theorem moveLoop_remainderByZero (dmaWrite : Bool) (rand : ℕ → UInt64) (ptr : ℕ)
    (fpgaAddr len : UInt64) (hlen : ¬64 ∣ len.toNat) :
    ∃ t : DmaTransfer, ∀ fuel, len.toNat / 64 < fuel →
      moveLoop dmaWrite rand fuel { ptr1 := ptr, ptr2 := fpgaAddr, amtLeft := len } =
        .remainderByZero t := by
  obtain ⟨t, l, hloop, -⟩ :=
    moveLoop_spec dmaWrite rand { ptr1 := ptr, ptr2 := fpgaAddr, amtLeft := len }
  have hmod : len.toNat % 64 ≠ 0 := fun hzero => hlen (Nat.dvd_of_mod_eq_zero hzero)
  exact ⟨t, fun fuel hfuel => (hloop fuel hfuel).trans (if_neg hmod)⟩

/-- **Transfers in chunks.** For every random sequence a transfer ends, without a remainder by zero
and without a wrap of what is left, in chunks that are consecutive and have its length, if and only
if it is of whole beats. -/
theorem moved_in_chunks (dmaWrite : Bool) (rand : ℕ → UInt64) (ptr : ℕ) (fpgaAddr len : UInt64) :
    (∃ t : DmaTransfer,
      (∀ fuel, len.toNat / 64 < fuel →
        moveLoop dmaWrite rand fuel { ptr1 := ptr, ptr2 := fpgaAddr, amtLeft := len } =
          .finished t) ∧
      t.wrapped = false ∧ Consecutive dmaWrite ptr fpgaAddr t.chunks ∧
      totalLen t.chunks = 64 * ((len.toNat + 63) / 64)) ↔ 64 ∣ len.toNat := by
  refine ⟨fun ⟨t, hfinished, _⟩ => ?_, fun hlen => ?_⟩
  · by_contra hlen
    obtain ⟨t', hzero⟩ := moveLoop_remainderByZero dmaWrite rand ptr fpgaAddr len hlen
    have hfuel := Nat.lt_succ_self (len.toNat / 64)
    exact absurd ((hzero _ hfuel).symm.trans (hfinished _ hfuel)) nofun
  · obtain ⟨t, l, hloop, hchunks, hwrapped, hconsecutive, htotal⟩ :=
      moveLoop_spec dmaWrite rand { ptr1 := ptr, ptr2 := fpgaAddr, amtLeft := len }
    have hchunks : t.chunks = l := hchunks
    have hmod : len.toNat % 64 = 0 := Nat.mod_eq_zero_of_dvd hlen
    refine ⟨t, fun fuel hfuel => (hloop fuel hfuel).trans (if_pos hmod), hwrapped, ?_, ?_⟩
    · rw [hchunks]
      exact hconsecutive
    · rw [hchunks, htotal]
      dsimp only
      omega

/-- A transfer of 192 bytes, for which 5 and then 3 is drawn, is made in chunks of two beats and of
one. -/
theorem moved_in_chunks_three :
    64 ∣ (192 : UInt64).toNat ∧ ∃ t : DmaTransfer,
      moveToFpga (fun k => if k = 0 then 5 else 3) 4 4096 64 192 = .finished t ∧
      t.chunks = [⟨4096, 64, 128, true⟩, ⟨4224, 192, 64, true⟩] ∧
      Consecutive true 4096 64 t.chunks := by
  refine ⟨by decide, ?_⟩
  obtain ⟨t, hloop, -, hconsecutive, -⟩ :=
    (moved_in_chunks true (fun k => if k = 0 then 5 else 3) 4096 64 192).mpr (by decide)
  have hfinished := hloop 4 (by decide)
  refine ⟨t, hfinished, ?_, hconsecutive⟩
  have hrun : moveToFpga (fun k => if k = 0 then 5 else 3) 4 4096 64 192 = .finished
      { ptr1 := 4288, ptr2 := 256, amtLeft := 0, wrapped := false
        chunks := [⟨4096, 64, 128, true⟩, ⟨4224, 192, 64, true⟩] } := by decide +kernel
  rw [← Moved.finished.inj (hrun.symm.trans hfinished)]

/-- A transfer of one byte takes a remainder by zero in its first iteration. -/
theorem not_moved_in_chunks :
    ¬∀ (dmaWrite : Bool) (rand : ℕ → UInt64) (ptr : ℕ) (fpgaAddr len : UInt64),
      ∃ (fuel : ℕ) (t : DmaTransfer),
        moveLoop dmaWrite rand fuel { ptr1 := ptr, ptr2 := fpgaAddr, amtLeft := len } =
          .finished t := by
  intro h
  obtain ⟨fuel, t, hfinished⟩ := h true (fun _ => 0) 4096 64 1
  cases fuel with
  | zero => cases hfinished
  | succ fuel => cases hfinished

end Beethoven.DataServer
