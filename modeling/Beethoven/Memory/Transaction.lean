import Beethoven.Lib.Reassembly

/-!
# Memory transactions of the simulated memory controller

The simulator serves the AXI memory ports of the accelerator from a DRAM model. A burst accepted on
a port becomes a `memory_transaction`, which is split into DRAM transactions of
`DDR_ENQUEUE_SIZE_BYTES` bytes each. The transaction records which words of the DDR bus its DRAM
reads have brought, and a single-beat transaction is made of every beat of the AXI bus whose words
are all there.

The constants that `mem_ctrl::init` computes are a `Config`. Counters and addresses are natural
numbers: the address port is read as 32 bits and a burst has at most 256 beats of 128 bytes, so that
no 64-bit address and no `int` of the source wraps around. Only `axi_bus_beats_progress` is an
integer, since write bursts count it below zero.
-/

namespace Beethoven.Memory

/-- The bus widths, in bits, and the burst length of the DRAM. -/
structure Config where
  dataBusWidth : ℕ
  ddrBusWidthBits : ℕ
  totalBurst : ℕ
  ddr_pos : 0 < ddrBusWidthBits / 8
  burst_pos : 0 < totalBurst
  ddr_le_bus : ddrBusWidthBits / 8 ≤ dataBusWidth / 8

namespace Config

/-- `mem_ctrl::init`: the assertion on the two widths. A DRAM without a bus or without a burst would
trap in the divisions by `DDR_BUS_WIDTH_BYTES` and `DDR_ENQUEUE_SIZE_BYTES`. -/
def init (dataBusWidth ddrBusWidthBits totalBurst : ℕ) : Option Config :=
  if h : 0 < ddrBusWidthBits / 8 ∧ 0 < totalBurst ∧ ddrBusWidthBits / 8 ≤ dataBusWidth / 8 then
    some ⟨dataBusWidth, ddrBusWidthBits, totalBurst, h.1, h.2.1, h.2.2⟩
  else none

variable (c : Config)

/-- The width of the AXI data bus in bytes. -/
def dataBusBytes : ℕ := c.dataBusWidth / 8

def ddrBusWidthBytes : ℕ := c.ddrBusWidthBits / 8

def axiDdrBusMultiplicity : ℕ := c.dataBusBytes / c.ddrBusWidthBytes

def ddrEnqueueSizeBytes : ℕ := c.ddrBusWidthBytes * c.totalBurst

theorem dataBusBytes_pos : 0 < c.dataBusBytes := lt_of_lt_of_le c.ddr_pos c.ddr_le_bus

theorem ddrBusWidthBytes_pos : 0 < c.ddrBusWidthBytes := c.ddr_pos

theorem ddrEnqueueSizeBytes_pos : 0 < c.ddrEnqueueSizeBytes :=
  Nat.mul_pos c.ddr_pos c.burst_pos

theorem axiDdrBusMultiplicity_pos : 0 < c.axiDdrBusMultiplicity :=
  Nat.div_pos c.ddr_le_bus c.ddr_pos

end Config

/-- A `memory_transaction`: a burst, or one beat of a read burst on its way to the R channel. -/
structure MemoryTransaction where
  addr : ℕ
  size : ℕ
  len : ℕ
  axiBusBeatsProgress : ℤ
  id : ℕ
  fixed : Bool
  fpgaAddr : ℕ
  dramTxNEnqueues : ℕ
  dramTxAxiEnqueueProgress : ℕ
  dramTxLoadProgress : ℕ
  canBeLast : Bool
  isIntermediate : Bool
  ddrBusBeatsRetrieved : List Bool
  deriving DecidableEq, Inhabited

namespace MemoryTransaction

variable (c : Config)

/-- The constructor of the source. -/
def new (addr size len : ℕ) (progress : ℤ) (fixed : Bool) (id fpgaAddr : ℕ)
    (isIntermediate : Bool) : MemoryTransaction :=
  let dramTxNEnqueues :=
    if len * size / c.ddrEnqueueSizeBytes = 0 then 1 else len * size / c.ddrEnqueueSizeBytes
  { addr, size, len, axiBusBeatsProgress := progress, id, fixed, fpgaAddr, dramTxNEnqueues
    dramTxAxiEnqueueProgress := 0
    dramTxLoadProgress := 0
    canBeLast := true
    isIntermediate
    ddrBusBeatsRetrieved := List.replicate (dramTxNEnqueues * c.totalBurst) false }

variable (tx : MemoryTransaction)

def axiBusBeatsLength : ℕ := tx.len * tx.size / c.dataBusBytes

/-- A burst of full beats has as many beats in the bookkeeping as on the bus. -/
theorem axiBusBeatsLength_of_full {c : Config} {tx : MemoryTransaction}
    (h : tx.size = c.dataBusBytes) : tx.axiBusBeatsLength c = tx.len := by
  rw [axiBusBeatsLength, h, Nat.mul_div_cancel _ c.dataBusBytes_pos]

def dramsimTxFinished : Bool := tx.dramTxNEnqueues ≤ tx.dramTxAxiEnqueueProgress

/-- The address of the next DRAM transaction. -/
def dimmAddr : ℕ := tx.fpgaAddr + c.ddrEnqueueSizeBytes * tx.dramTxAxiEnqueueProgress

/-- The entry of `ddr_bus_beats_retrieved` at an index. The source does not check the index; past
the end it finds whatever bits `outside` happen to be there. -/
def retrieved (outside : ℕ → Bool) (k : ℕ) : Bool := tx.ddrBusBeatsRetrieved[k]?.getD (outside k)

/-- All DDR words of the next beat have been retrieved. -/
def dramsimHasBeatReady (outside : ℕ → Bool) : Bool :=
  let first := (tx.axiBusBeatsProgress * c.axiDdrBusMultiplicity).toNat
  if tx.axiBusBeatsProgress = tx.axiBusBeatsLength c then false
  else
    ((List.range c.axiDdrBusMultiplicity).all fun i => tx.retrieved outside (first + i)) &&
      tx.retrieved outside first

/-- What the read callback does to the burst of the DRAM read at `addr` before it looks for
beats. -/
def retrieve (addr : ℕ) : MemoryTransaction :=
  { tx with
    dramTxLoadProgress := tx.dramTxLoadProgress + 1
    ddrBusBeatsRetrieved := (List.range c.totalBurst).foldl
      (fun bits i => bits.set ((addr - tx.fpgaAddr) / c.ddrBusWidthBytes + i) true)
      tx.ddrBusBeatsRetrieved }

/-- The single-beat transaction of the next beat. -/
def intermediate : MemoryTransaction :=
  { new c tx.addr tx.size 1 0 false tx.id 0 true with
    fpgaAddr := tx.fpgaAddr
    canBeLast := tx.axiBusBeatsProgress = (tx.axiBusBeatsLength c : ℤ) - 1 }

/-- The burst after its next beat. -/
def advance : MemoryTransaction :=
  { tx with addr := tx.addr + tx.size, axiBusBeatsProgress := tx.axiBusBeatsProgress + 1 }

/-- The read callback on the burst of the DRAM read at `addr`: the burst afterwards and the
single-beat transactions it hands out. The loop ends by its own condition within the rounds allowed
to it, since it makes at most one round for each beat. -/
def load (outside : ℕ → Bool) (addr : ℕ) : MemoryTransaction × List MemoryTransaction :=
  Lib.drain (fun tx => tx.dramsimHasBeatReady c outside) advance (intermediate c)
    (tx.axiBusBeatsLength c + 1) (tx.retrieve c addr)

end MemoryTransaction

end Beethoven.Memory
