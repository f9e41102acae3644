import Beethoven.Client.RemotePtr

/-!
# Cache maintenance on the device

On a device whose accelerator does not see the caches of the host, a buffer is cleaned and
invalidated line by line before and after the accelerator uses it (`arm_cache.h`,
`fpga_handle_zynq.cc`). The loop steps through the buffer in steps of the size of a line, beginning
at the address of the buffer. An instruction acts on the line that its address lies in.

A buffer that does not begin at a line has its last bytes in a line that the loop may not reach.
Pointer arithmetic gives such buffers; it is harmless for buffers of whole lines.
-/

namespace Beethoven.Client

/-- `ARM_CACHE_LINE_SIZE`. -/
def armCacheLineSize : UInt64 := 64

/-- The loop over the lines: the addresses of the instructions of its first `n` rounds. -/
def civacLoop (ptr size : UInt64) : ℕ → UInt64 → List UInt64
  | 0, _ => []
  | n + 1, i => if i < size then (ptr + i) :: civacLoop ptr size n (i + armCacheLineSize) else []

/-- The body of both functions, in its first `n` rounds, in a build with or without
`ENABLE_CACHE_FLUSH`. -/
def civacRange (enabled : Bool) (addr size : UInt64) (n : ℕ) : List UInt64 :=
  if enabled then civacLoop addr size n 0 else []

/-- `arm_dcache_flush`. -/
def armDcacheFlush (enabled : Bool) (addr size : UInt64) : ℕ → List UInt64 :=
  civacRange enabled addr size

/-- `arm_dcache_invalidate`. -/
def armDcacheInvalidate (enabled : Bool) (addr size : UInt64) : ℕ → List UInt64 :=
  civacRange enabled addr size

/-- `copy_to_fpga` on the device. In a simulation it is a call of the data server, as are those of
`Client.DataCalls`. -/
def copyToFpga (enabled : Bool) (dst : RemotePtr) : ℕ → List UInt64 :=
  armDcacheFlush enabled dst.hostAddr dst.len

/-- `copy_from_fpga` on the device. -/
def copyFromFpga (enabled : Bool) (src : RemotePtr) : ℕ → List UInt64 :=
  armDcacheInvalidate enabled src.hostAddr src.len

/-- The line that an address lies in. -/
def lineOf (a : UInt64) : UInt64 := a / armCacheLineSize

/-- Instructions act on every line that overlaps the buffer. -/
def Covers (issued : ℕ → List UInt64) (addr size : UInt64) : Prop :=
  ∀ k < size, ∃ n, ∃ a ∈ issued n, lineOf a = lineOf (addr + k)

/-- The last byte of the buffer lies in the line of the last instruction: the offset of the first
byte in its line and the bytes after the last multiple of a line fit in one line. On a buffer of
almost the size of the address space the counter wraps around, and the loop reaches every line. -/
def ReachesLastLine (addr size : UInt64) : Prop :=
  2 ^ 64 - 64 < size.toNat ∨ addr.toNat % 64 + (size.toNat - 1) % 64 < 64

instance (addr size : UInt64) : Decidable (ReachesLastLine addr size) :=
  inferInstanceAs (Decidable (_ ∨ _))

/-! ### The addresses of the instructions -/

theorem add_lineSize_add_ofNat (i : UInt64) (j : ℕ) :
    i + armCacheLineSize + .ofNat (64 * j) = i + .ofNat (64 * (j + 1)) := by
  rw [Nat.mul_succ, Nat.add_comm, UInt64.ofNat_add, ← UInt64.add_assoc]
  rfl

/-- A round of the loop is reached as long as the counter has stayed below the size. -/
theorem mem_civacLoop_iff {ptr size a i : UInt64} {n : ℕ} :
    a ∈ civacLoop ptr size n i ↔
      ∃ m < n, (∀ j ≤ m, i + .ofNat (64 * j) < size) ∧ a = ptr + (i + .ofNat (64 * m)) := by
  induction n generalizing i with
  | zero => simp [civacLoop]
  | succ n ih =>
    rw [civacLoop]
    split_ifs with hi
    · simp only [List.mem_cons, ih, add_lineSize_add_ofNat]
      constructor
      · rintro (rfl | ⟨m, hm, hbelow, rfl⟩)
        · refine ⟨0, n.succ_pos, fun j hj => ?_, by simp⟩
          rw [Nat.le_zero.mp hj]
          simpa using hi
        · refine ⟨m + 1, by omega, fun j hj => ?_, rfl⟩
          cases j with
          | zero => simpa using hi
          | succ j => exact hbelow j (by omega)
      · rintro ⟨_ | m, hm, hbelow, rfl⟩
        · exact .inl (by simp)
        · exact .inr ⟨m, by omega, fun j hj => hbelow (j + 1) (by omega), rfl⟩
    · refine ⟨fun h => absurd h List.not_mem_nil, ?_⟩
      rintro ⟨m, -, hbelow, -⟩
      exact absurd (by simpa using hbelow 0 m.zero_le) hi

/-- The counter at the beginning of a round, as long as it has not wrapped around. -/
theorem toNat_counter {m : ℕ} (hm : m < 2 ^ 58) :
    ((0 : UInt64) + .ofNat (64 * m)).toNat = 64 * m := by
  rw [UInt64.zero_add, UInt64.toNat_ofNat_of_lt' (by simp only [UInt64.size]; omega)]

/-- The rounds in which the counter stays below the size, before it wraps around. -/
theorem counter_lt_iff {size : UInt64} {m : ℕ} (hm : m < 2 ^ 58) :
    (∀ j ≤ m, (0 : UInt64) + .ofNat (64 * j) < size) ↔ 64 * m < size.toNat := by
  constructor
  · intro h
    simpa only [UInt64.lt_iff_toNat_lt, toNat_counter hm] using h m le_rfl
  · intro h j hj
    rw [UInt64.lt_iff_toNat_lt, toNat_counter (by omega)]
    omega

theorem toNat_lineOf (a : UInt64) : (lineOf a).toNat = a.toNat / 64 := by
  rw [lineOf, UInt64.toNat_div]
  rfl

theorem toNat_lineOf_add (a b : UInt64) :
    (lineOf (a + b)).toNat = (a.toNat / 64 + (a.toNat % 64 + b.toNat) / 64) % 2 ^ 58 := by
  rw [toNat_lineOf, UInt64.toNat_add]
  omega

theorem toNat_lineOf_counter (addr : UInt64) {m : ℕ} (hm : m < 2 ^ 58) :
    (lineOf (addr + (0 + .ofNat (64 * m)))).toNat = (addr.toNat / 64 + m) % 2 ^ 58 := by
  rw [toNat_lineOf_add, toNat_counter hm]
  omega

/-! ### The lines of a buffer -/

section Lines

variable {addr size : UInt64}

/-- Before the counter wraps around, a line is acted on in the round of its number. -/
theorem covers_byte_iff (hsize : size.toNat ≤ 2 ^ 64 - 64) {k : UInt64} (hk : k < size) :
    (∃ n, ∃ a ∈ civacLoop addr size n 0, lineOf a = lineOf (addr + k)) ↔
      64 * ((addr.toNat % 64 + k.toNat) / 64) < size.toNat := by
  rw [UInt64.lt_iff_toNat_lt] at hk
  constructor
  · rintro ⟨n, a, ha, hline⟩
    obtain ⟨m, -, hbelow, rfl⟩ := mem_civacLoop_iff.mp ha
    -- the counter would otherwise have passed its largest value
    have hm : m < 2 ^ 58 := by
      by_contra hm
      have hlast := (counter_lt_iff (by omega)).mp fun j (hj : j ≤ 2 ^ 58 - 1) =>
        hbelow j (by omega)
      omega
    have hround := (counter_lt_iff hm).mp hbelow
    have hline' := congrArg UInt64.toNat hline
    rw [toNat_lineOf_counter addr hm, toNat_lineOf_add] at hline'
    omega
  · intro hround
    have hm : (addr.toNat % 64 + k.toNat) / 64 < 2 ^ 58 := by omega
    refine ⟨_, _, mem_civacLoop_iff.mpr
      ⟨_, Nat.lt_succ_self _, (counter_lt_iff hm).mpr hround, rfl⟩, UInt64.toNat_inj.mp ?_⟩
    rw [toNat_lineOf_counter addr hm, toNat_lineOf_add]

theorem covers_civacLoop_iff (hpos : size ≠ 0) (hsize : size.toNat ≤ 2 ^ 64 - 64) :
    Covers (civacLoop addr size · 0) addr size ↔
      addr.toNat % 64 + (size.toNat - 1) % 64 < 64 := by
  have hpos' : 0 < size.toNat := Nat.pos_of_ne_zero fun h => hpos (UInt64.toNat_inj.mp h)
  constructor
  · intro h
    have hlast : (size - 1).toNat = size.toNat - 1 :=
      UInt64.toNat_sub_of_le _ _ (UInt64.le_iff_toNat_le.mpr hpos')
    have hk : size - 1 < size := by
      rw [UInt64.lt_iff_toNat_lt, hlast]
      omega
    have hround := (covers_byte_iff hsize hk).mp (h _ hk)
    rw [hlast] at hround
    omega
  · intro h k hk
    refine (covers_byte_iff hsize hk).mpr ?_
    rw [UInt64.lt_iff_toNat_lt] at hk
    omega

/-- A loop whose counter wraps around reaches every line. -/
theorem covers_civacLoop_of_wraps (hsize : 2 ^ 64 - 64 < size.toNat) :
    Covers (civacLoop addr size · 0) addr size := by
  intro k _
  have hm : (addr.toNat % 64 + k.toNat) / 64 % 2 ^ 58 < 2 ^ 58 := Nat.mod_lt _ (by decide)
  refine ⟨_, _, mem_civacLoop_iff.mpr
    ⟨_, Nat.lt_succ_self _, (counter_lt_iff hm).mpr (by omega), rfl⟩, UInt64.toNat_inj.mp ?_⟩
  rw [toNat_lineOf_counter addr hm, toNat_lineOf_add, Nat.add_mod_mod]

theorem covers_civacRange_iff (enabled : Bool) :
    Covers (civacRange enabled addr size) addr size ↔
      size = 0 ∨ enabled = true ∧ ReachesLastLine addr size := by
  by_cases hzero : size = 0
  · subst hzero
    exact iff_of_true (fun k hk => absurd hk (UInt64.not_lt_zero)) (.inl rfl)
  cases enabled with
  | false =>
    simp only [hzero, Bool.false_eq_true, false_and, or_false, iff_false]
    intro h
    obtain ⟨n, a, ha, -⟩ := h 0 (UInt64.pos_iff_ne_zero.mpr hzero)
    exact absurd ha List.not_mem_nil
  | true =>
    simp only [hzero, true_and, false_or, ReachesLastLine]
    rcases Nat.lt_or_ge (2 ^ 64 - 64) size.toNat with hsize | hsize
    · exact iff_of_true (covers_civacLoop_of_wraps hsize) (.inl hsize)
    · rw [or_iff_right (Nat.not_lt.mpr hsize)]
      exact covers_civacLoop_iff hzero hsize

end Lines

/-- Cache maintenance acts on every line of a buffer exactly if the last byte of the buffer lies in
the line of the last instruction; so it is for the pointers that pointer arithmetic gives. -/
theorem maintenance_covers_iff (enabled : Bool) :
    (∀ addr size : UInt64,
      (Covers (armDcacheFlush enabled addr size) addr size ↔
        size = 0 ∨ enabled = true ∧ ReachesLastLine addr size) ∧
      (Covers (armDcacheInvalidate enabled addr size) addr size ↔
        size = 0 ∨ enabled = true ∧ ReachesLastLine addr size)) ∧
    ∀ (p : RemotePtr) (q : Int32),
      (Covers (copyToFpga enabled (p.add q)) (p.add q).hostAddr (p.add q).len ↔
        (p.add q).len = 0 ∨ enabled = true ∧ ReachesLastLine (p.add q).hostAddr (p.add q).len) ∧
      (Covers (copyFromFpga enabled (p.add q)) (p.add q).hostAddr (p.add q).len ↔
        (p.add q).len = 0 ∨ enabled = true ∧ ReachesLastLine (p.add q).hostAddr (p.add q).len) :=
  ⟨fun _ _ => ⟨covers_civacRange_iff enabled, covers_civacRange_iff enabled⟩,
    fun _ _ => ⟨covers_civacRange_iff enabled, covers_civacRange_iff enabled⟩⟩

/-- The bytes from the fiftieth on of a buffer of a hundred bytes that begins at a line: the second
line is not acted on. -/
theorem not_maintenance_covers :
    ¬ (∀ (p : RemotePtr) (q : Int32),
      Covers (copyToFpga true (p.add q)) (p.add q).hostAddr (p.add q).len) := by
  intro h
  have hcovers := h ⟨0, 4096, 100, 0, none⟩ 50
  revert hcovers
  refine mt (covers_civacRange_iff true).mp ?_
  decide +kernel

end Beethoven.Client
