import Mathlib.Data.List.InsertIdx
import Mathlib.Data.List.Range
import Mathlib.Data.Nat.Bitwise
import Beethoven.Lib.OrderedSet

/-!
# The device allocator

The embedding of `device_allocator<allocator_bytes>`
(`libbeethoven/include/beethoven/allocator/device_allocator.h`). Device memory is cut into
superblocks of `2^21` bytes. A superblock is either cut further into equal blocks of one size
class (`BLOCK_ALLOC`), or belongs to a run of whole superblocks given to one large allocation, of
which the first is flagged `BASE_ALLOCATION`. Superblocks from `superblock_free_idx` on have never
been used or have been given back; the ones below it that are free are in `free_list`.

The allocator is called by the one thread of the data server only, so the mutexes are left out.
The array `superblocks` is a total function. An index at or past `num_superblocks` is memory past
the end of the array: in the source a superblock that is opened there overwrites
`superblock_head_list`, which follows the array, and here it does not. A template argument for
which `1 << log_num_superblocks` overflows an `int` does not compile, so the 32-bit superblock
numbers cannot wrap and are natural numbers; the 16-bit entries of `free_blocks` and the 32-bit
product of the large path are truncated where the source truncates them.
-/

namespace Beethoven.Allocator

open Lib Function

/-! ### Sizes and masks -/

/-- The loop of `log2up`, with `n` iterations left, the counter `i` and the accumulator `acc`. -/
def log2upLoop (val : ℕ) : ℕ → ℕ → ℕ → ℕ
  | 0, i, _ => i
  | n + 1, i, acc => if val ≤ acc then i else log2upLoop val n (i + 1) ((acc <<< 1) % 2 ^ 64)

/-- The source's `log2up`: the least `i` with `val ≤ 2^i`, at most 64. -/
def log2up (val : ℕ) : ℕ := log2upLoop val 64 0 1

/-- `superblock_size`. -/
def superblockSize : ℕ := 1 <<< 21

/-- `min_block_size`. -/
def minBlockSize : ℕ := 1 <<< 12

/-- `log_min_block`. -/
def logMinBlock : ℕ := log2up minBlockSize

/-- `log_superblock_size`. -/
def logSuperblockSize : ℕ := log2up superblockSize

/-- `num_lists`. -/
def numLists : ℕ := logSuperblockSize - logMinBlock

/-- `log_num_superblocks`. -/
def logNumSuperblocks (allocatorBytes : ℕ) : ℕ := log2up allocatorBytes - logSuperblockSize

/-- `num_superblocks`, which is also `superblock_free_idx_lim`. -/
def numSuperblocks (allocatorBytes : ℕ) : ℕ := 1 <<< logNumSuperblocks allocatorBytes

/-- The loop of `superblock_id_mask` and `block_id_mask`: it starts from one set bit and shifts in
`n` more. -/
def onesMask : ℕ → ℕ
  | 0 => 1
  | n + 1 => ((onesMask n <<< 1) ||| 1) % 2 ^ 64

/-- `superblock_id_mask`. -/
def superblockIdMask (allocatorBytes : ℕ) : ℕ := onesMask (logNumSuperblocks allocatorBytes)

/-- `block_id_mask`. -/
def blockIdMask (logBlockSize : ℕ) : ℕ := onesMask logBlockSize

/-! ### State -/

/-- `BLOCK_ALLOC`: the superblock is cut into blocks. -/
def blockAlloc : ℕ := 0x1

/-- `BASE_ALLOCATION`: the superblock is the first of a large allocation. -/
def baseAllocation : ℕ := 0x2

/-- `struct superblock`. For a large allocation the first entry of `freeBlocks` is the number of
superblocks. The last entry of the list is the back of the source's vector. -/
structure Superblock where
  logBlockSize : ℕ := 0
  flags : ℕ := 0
  freeBlocks : List ℕ := []
  deriving DecidableEq, Repr

/-- The members of `device_allocator` that change. -/
structure DeviceAllocator where
  superblockFreeIdx : ℕ := 0
  freeList : List ℕ := []
  superblocks : ℕ → Superblock := fun _ => {}
  superblockHeadList : ℕ → OrderedSet ℕ := fun _ => .empty

/-- What a call does: it returns, it calls `exit`, or its loops have not ended yet after the given
number of iterations. -/
inductive Outcome (α : Type*) where
  | ok (a : α)
  | exit (code : ℕ)
  | looping
  deriving DecidableEq, Repr

/-- The value a call returned, if it returned. -/
def Outcome.toOption {α : Type*} : Outcome α → Option α
  | .ok a => some a
  | _ => none

theorem Outcome.toOption_eq_some {α : Type*} {o : Outcome α} {a : α} :
    o.toOption = some a ↔ o = .ok a := by
  cases o <;> simp [Outcome.toOption]

variable (allocatorBytes : ℕ)

/-- `get_block_info`: the superblock and the block of a device address. -/
def getBlockInfo (d : DeviceAllocator) (fpgaAddr : ℕ) : ℕ × ℕ :=
  let superblockId := (fpgaAddr >>> logSuperblockSize) &&& superblockIdMask allocatorBytes
  let sb := d.superblocks superblockId
  if sb.flags &&& blockAlloc ≠ 0 then
    (superblockId, (fpgaAddr >>> sb.logBlockSize) &&& blockIdMask logSuperblockSize)
  else (superblockId, 0)

/-! ### Allocation inside a superblock -/

/-- The size class of a request: `max(log2up(len), log_min_block)`. -/
def logBlockSizeOf (len : ℕ) : ℕ := max (log2up len) logMinBlock

/-- Take a superblock from the front of the free list, or else the first one of the upper address
space. -/
def acquireSuperblock (d : DeviceAllocator) : ℕ × DeviceAllocator :=
  match d.freeList with
  | s :: rest => (s, { d with freeList := rest })
  | [] => (d.superblockFreeIdx, { d with superblockFreeIdx := d.superblockFreeIdx + 1 })

/-- The branch of `malloc` for requests of at most half a superblock. -/
def mallocBlock (d : DeviceAllocator) (logBlockSize : ℕ) : Outcome (ℕ × DeviceAllocator) :=
  let blockSize := 1 <<< logBlockSize
  let idx := logBlockSize - logMinBlock
  match (d.superblockHeadList idx).first with
  | none =>
    let (superblockId, d) := acquireSuperblock d
    let nBlocks := 1 <<< (logSuperblockSize - logBlockSize)
    if nBlocks ≥ 0x10000 then .exit 2
    else
      let blocks := List.range nBlocks
      let blockId := blocks.getLastD 0
      let sb : Superblock := ⟨logBlockSize, blockAlloc, blocks.dropLast⟩
      .ok (superblockId * superblockSize + blockId * blockSize,
        { d with
          superblocks := update d.superblocks superblockId sb
          superblockHeadList := update d.superblockHeadList idx
            ((d.superblockHeadList idx).emplace superblockId) })
  | some superblockId =>
    let sb := d.superblocks superblockId
    let blockId := sb.freeBlocks.getLastD 0
    let rest := sb.freeBlocks.dropLast
    .ok (superblockId * superblockSize + blockId * blockSize,
      { d with
        superblocks := update d.superblocks superblockId { sb with freeBlocks := rest }
        superblockHeadList :=
          if rest = [] then update d.superblockHeadList idx
            (d.superblockHeadList idx).eraseFirst
          else d.superblockHeadList })

/-! ### Allocation of whole superblocks -/

/-- The scan of the free list for runs of consecutive superblocks, from the current length and the
current start; the start is zero when the scan begins. -/
def scanSegments : List ℕ → ℕ → ℕ → List (ℕ × ℕ)
  | [], _, _ => []
  | [_], currentLen, currentSegBegin => [(currentSegBegin, currentLen + 1)]
  | x :: y :: rest, currentLen, currentSegBegin =>
    if y ≠ x + 1 then (currentSegBegin, currentLen + 1) :: scanSegments (y :: rest) 0 y
    else scanSegments (y :: rest) (currentLen + 1) currentSegBegin

/-- The variables of the best-fit search. `allocStart` has no value before the first success. -/
structure BestFit where
  bestSize : ℕ
  allocStart : Option ℕ
  deriving DecidableEq, Repr

/-- One iteration of the best-fit search, on the last segment. A comparison with `alloc_start`
before it has a value is taken to fail. -/
def BestFit.consider (needed : ℕ) (b : BestFit) (segment : ℕ × ℕ) : BestFit :=
  if segment.2 ≥ needed ∧ (segment.2 < b.bestSize ∨
      (segment.2 = b.bestSize ∧ b.allocStart.any fun start => segment.1 < start)) then
    ⟨segment.2, some segment.1⟩
  else b

/-- `while (!segments.empty())`, for at most `fuel` iterations. The body looks at the last segment
and removes none. -/
def bestFitLoop (needed : ℕ) (segments : List (ℕ × ℕ)) : ℕ → BestFit → Option BestFit
  | 0, _ => none
  | fuel + 1, b =>
    match segments.getLast? with
    | none => some b
    | some segment => bestFitLoop needed segments fuel (b.consider needed segment)

/-- The number of superblocks of a large request. The shift of an `int` by 32 or more is undefined;
the processors the runtime is built for take the shift count modulo 32. -/
def numSuperblocksNeeded (logBlockSize : ℕ) : ℕ := 1 <<< ((logBlockSize - logSuperblockSize) % 32)

/-- Mark `needed` superblocks from `allocStart` on as one allocation. -/
def markAllocation (superblocks : ℕ → Superblock) (allocStart needed : ℕ) : ℕ → Superblock :=
  fun i =>
    if i = allocStart then
      { superblocks i with flags := baseAllocation, freeBlocks := [needed % 2 ^ 16] }
    else if allocStart < i ∧ i < allocStart + needed then { superblocks i with flags := 0 }
    else superblocks i

/-- The branch of `malloc` for requests of more than half a superblock. The returned address is a
product of two 32-bit numbers. -/
def mallocSuperblocks (fuel : ℕ) (d : DeviceAllocator) (logBlockSize : ℕ) :
    Outcome (ℕ × DeviceAllocator) :=
  let needed := numSuperblocksNeeded logBlockSize
  if needed &&& 0xFFFF0000 ≠ 0 then .exit 1
  else
    match bestFitLoop needed (scanSegments d.freeList 0 0) fuel
        ⟨1 <<< logNumSuperblocks allocatorBytes, none⟩ with
    | none => .looping
    | some ⟨_, some allocStart⟩ =>
      let head := d.freeList.takeWhile (· ≠ allocStart)
      let tail := d.freeList.dropWhile (· ≠ allocStart)
      .ok ((allocStart * superblockSize) % 2 ^ 32,
        { d with
          freeList := head ++ tail.drop needed
          superblocks := markAllocation d.superblocks allocStart needed })
    | some ⟨_, none⟩ =>
      if d.superblockFreeIdx + needed > numSuperblocks allocatorBytes then .exit 3
      else
        .ok ((d.superblockFreeIdx * superblockSize) % 2 ^ 32,
          { d with
            superblockFreeIdx := d.superblockFreeIdx + needed
            superblocks := markAllocation d.superblocks d.superblockFreeIdx needed })

/-- `device_allocator::malloc`, with at most `fuel` iterations of its best-fit loop. -/
def malloc (fuel : ℕ) (d : DeviceAllocator) (len : ℕ) : Outcome (ℕ × DeviceAllocator) :=
  let logBlockSize := logBlockSizeOf len
  if logBlockSize - logMinBlock < numLists then mallocBlock d logBlockSize
  else mallocSuperblocks allocatorBytes fuel d logBlockSize

/-! ### Release -/

/-- The loop of `unpack_free_list_THREAD_UNSAFE` on the free list read from its back. -/
def unpackFreeListLoop : List ℕ → ℕ → List ℕ × ℕ
  | [], freeIdx => ([], freeIdx)
  | s :: rest, freeIdx =>
    if s + 1 = freeIdx then unpackFreeListLoop rest (freeIdx - 1) else (s :: rest, freeIdx)

/-- `unpack_free_list_THREAD_UNSAFE`: give superblocks at the back of the free list that touch the
upper address space back to it. -/
def unpackFreeList (d : DeviceAllocator) : DeviceAllocator :=
  let (rest, freeIdx) := unpackFreeListLoop d.freeList.reverse d.superblockFreeIdx
  { d with freeList := rest.reverse, superblockFreeIdx := freeIdx }

/-- The binary search of `std::upper_bound` in the `len` entries from `first` on. -/
def upperBoundLoop (l : List ℕ) (v : ℕ) : ℕ → ℕ → ℕ → ℕ
  | 0, first, _ => first
  | fuel + 1, first, len =>
    if len = 0 then first
    else
      let half := len / 2
      if v < l.getD (first + half) 0 then upperBoundLoop l v fuel first half
      else upperBoundLoop l v fuel (first + half + 1) (len - half - 1)

/-- `std::upper_bound` over a whole vector. -/
def upperBound (l : List ℕ) (v : ℕ) : ℕ := upperBoundLoop l v l.length 0 l.length

/-- Give an entirely unoccupied superblock back. The first superblock of the size class leaves the
head list, whichever it is. -/
def releaseSuperblock (d : DeviceAllocator) (headIdx superblockId : ℕ) : DeviceAllocator :=
  let d := { d with
    superblockHeadList := update d.superblockHeadList headIdx
      (d.superblockHeadList headIdx).eraseFirst }
  if superblockId + 1 = d.superblockFreeIdx then
    unpackFreeList { d with superblockFreeIdx := d.superblockFreeIdx - 1 }
  else
    { d with freeList := d.freeList.insertIdx (upperBound d.freeList superblockId) superblockId }

/-- The branch of `free` for blocks of a superblock. -/
def freeBlock (d : DeviceAllocator) (superblockId blockId : ℕ) : Outcome DeviceAllocator :=
  let sb := d.superblocks superblockId
  let freeBlocks := sb.freeBlocks ++ [blockId % 2 ^ 16]
  let d := { d with
    superblocks := update d.superblocks superblockId { sb with freeBlocks := freeBlocks } }
  let maxOcc := 1 <<< (logSuperblockSize - sb.logBlockSize)
  if freeBlocks.length = maxOcc ∨ freeBlocks.length = 1 then
    let headIdx := sb.logBlockSize - logMinBlock
    if headIdx ≥ numLists then .exit 6
    else if freeBlocks.length = maxOcc then .ok (releaseSuperblock d headIdx superblockId)
    else
      .ok { d with
        superblockHeadList := update d.superblockHeadList headIdx
          ((d.superblockHeadList headIdx).emplace superblockId) }
  else .ok d

/-- Walk down from superblock `id` to the first one flagged as the base of an allocation. -/
def findBase (superblocks : ℕ → Superblock) : ℕ → Option ℕ
  | 0 => if (superblocks 0).flags &&& baseAllocation ≠ 0 then some 0 else none
  | id + 1 =>
    if (superblocks (id + 1)).flags &&& baseAllocation ≠ 0 then some (id + 1)
    else findBase superblocks id

/-- The branch of `free` for allocations of whole superblocks. Its second test of `BLOCK_ALLOC`
repeats the one that led into the branch. The length of the run is `free_blocks.front()`; the vector
is empty when the run was freed before, where the source is undefined and the length here is 0. -/
def freeSuperblocks (d : DeviceAllocator) (superblockId : ℕ) : Outcome DeviceAllocator :=
  match findBase d.superblocks superblockId with
  | none => .exit 7
  | some id =>
    let sb := d.superblocks id
    let nSuperblocks := sb.freeBlocks.headD 0
    let d := { d with
      superblocks := update d.superblocks id { sb with freeBlocks := [] } }
    if id + nSuperblocks + 1 = d.superblockFreeIdx then
      .ok (unpackFreeList { d with superblockFreeIdx := id })
    else
      .ok { d with freeList := d.freeList ++ (List.range nSuperblocks).map (id + ·) }

/-- `device_allocator::free`. -/
def free (d : DeviceAllocator) (fpgaAddr : ℕ) : Outcome DeviceAllocator :=
  let (superblockId, blockId) := getBlockInfo allocatorBytes d fpgaAddr
  let flags := (d.superblocks superblockId).flags
  if flags &&& blockAlloc ≠ 0 ∧ flags &&& baseAllocation ≠ 0 then .exit 4
  else if flags &&& blockAlloc ≠ 0 then freeBlock d superblockId blockId
  else freeSuperblocks d superblockId

end Beethoven.Allocator
