import Beethoven.Allocator.Outcomes
import Beethoven.DataServer.Dma
import Beethoven.DataServer.Translator
import Beethoven.Lib.TransitionSystem

/-!
# The data server

The thread of the daemon that serves `ALLOC`, `FREE`, `MOVE_FROM_FPGA` and `MOVE_TO_FPGA`
(`runtime/src/core/data_server.cc`). It owns the device allocator and the address translator. What
it is built for decides whether it has an allocator of its own, whether it allocates at all, and how
it moves data.

An exception that leaves the thread ends the daemon, as does a call of `exit`. A `FREE` gives its
address to the allocator before it looks for the mapping, so a `FREE` of an address that has no
mapping may change the allocator before it fails. It changes nothing if the allocator finds nothing
at the address either (`failed_free_unchanged`).
-/

namespace Beethoven.DataServer

open Lib Allocator

/-! ### Builds -/

/-- The macros that the daemon is compiled with. -/
structure Build where
  sim : Bool := false
  fpga : Bool := false
  zynq : Bool := false
  aws : Bool := false
  hasDma : Bool := false
  /-- `ALLOCATOR_SIZE_BYTES`, if `BEETHOVEN_USE_CUSTOM_ALLOC` is defined. -/
  allocatorBytes : Option ℕ := none
  deriving DecidableEq, Repr

/-- How data is moved. -/
inductive MoveKind where
  | dma
  | memcpy
  | nothing
  deriving DecidableEq, Repr

namespace Build

variable (b : Build)

/-- On Zynq silicon the client allocates memory itself. -/
def refusesAlloc : Bool := b.fpga && b.zynq && !b.sim

/-- The conditional compilation of `MOVE_FROM_FPGA`. What it does not cover does not compile. -/
def moveFrom : MoveKind :=
  if b.sim && b.hasDma then .dma
  else if b.sim then .nothing
  else if b.fpga && b.aws then .memcpy
  else .nothing

/-- The conditional compilation of `MOVE_TO_FPGA`, which has its cases in another order. -/
def moveTo : MoveKind :=
  if b.fpga && b.aws then .memcpy
  else if b.zynq then .nothing
  else if b.sim && b.hasDma then .dma
  else .nothing

end Build

/-! ### Requests -/

/-- `data_server_op`. -/
inductive DataServerOp where
  | alloc
  | free
  | moveFromFpga
  | moveToFpga
  deriving DecidableEq, Repr

/-- The fields of `data_server_file` in which clients write requests and the server answers. -/
structure DataServerFile where
  fname : String := ""
  operation : DataServerOp := .alloc
  opArgument : UInt64 := 0
  op2Argument : UInt64 := 0
  op3Argument : UInt64 := 0
  deriving DecidableEq, Repr

/-- What is answered to the server while it serves a request: the numbers that `rand` returns,
whether `shm_open` and `ftruncate` succeed, and the address that `mmap` returns. The last field
bounds the iterations of the loops. -/
structure Answers where
  rand : ℕ → UInt64 := fun _ => 0
  shmOpen : Bool := true
  ftruncate : Bool := true
  mmap : UInt64
  fuel : ℕ := 1

/-- `MAP_FAILED`. -/
def mapFailed : UInt64 := 0xFFFFFFFFFFFFFFFF

/-- How serving a request ends: the client is woken, an exception leaves the thread, `exit` is
called, a signal ends the process, or the loops have not ended yet. -/
inductive Served where
  | replied
  | thrown
  | exited (code : ℕ)
  | signalled
  | running
  deriving DecidableEq, Repr

/-- The request is reported as an error: the server writes a message or exits with a code. -/
def Served.IsError : Served → Prop
  | .thrown | .exited _ => True
  | _ => False

/-- The allocator and the translator of the daemon. -/
structure Server where
  allocator : DeviceAllocator := {}
  translator : AddressTranslator := ⟨[], AddressTranslator.sorted_nil⟩

/-- What serving a request ends with: how, the server and the shared file. -/
structure Result where
  served : Served
  server : Server
  file : DataServerFile

section Operations

variable (b : Build) (e : Answers) (s : Server) (file : DataServerFile)

/-- The mapping that `ALLOC` adds, and its answer. -/
def mapAt (fpgaAddr : UInt64) : Result where
  served := .replied
  server := { s with
    translator := s.translator.addMapping ⟨fpgaAddr, file.opArgument, e.mmap.toNat⟩ }
  file := { file with opArgument := fpgaAddr }

/-- `ALLOC`. The result of `mmap` is compared with the null pointer; if the mapping failed, `memset`
writes to an invalid address unless the length is zero. -/
def serveAlloc : Result :=
  if b.refusesAlloc then ⟨.replied, s, file⟩
  else if !e.shmOpen then ⟨.thrown, s, file⟩
  else if !e.ftruncate then ⟨.thrown, s, file⟩
  else if e.mmap = 0 then ⟨.thrown, s, file⟩
  else if e.mmap = mapFailed ∧ file.opArgument ≠ 0 then ⟨.signalled, s, file⟩
  else
    let file := { file with fname := "/beethoven_file_" ++ toString (e.rand 0).toNat }
    match b.allocatorBytes with
    | none => mapAt e s file e.mmap
    | some n =>
      match malloc n e.fuel s.allocator file.opArgument.toNat with
      | .ok (fpgaAddr, d) => mapAt e { s with allocator := d } file (UInt64.ofNat fpgaAddr)
      | .exit code => ⟨.exited code, s, file⟩
      | .looping => ⟨.running, s, file⟩

/-- The part of `FREE` after the allocator: the region is unmapped and the mapping removed. -/
def unmapAt : Result :=
  match s.translator.getMapping file.opArgument with
  | none => ⟨.thrown, s, file⟩
  | some _ =>
    match s.translator.removeMapping file.opArgument with
    | (false, _) => ⟨.thrown, s, file⟩
    | (true, t) => ⟨.replied, { s with translator := t }, file⟩

/-- The allocator at a call of `exit` in its `free`: only the check of the size class comes after a
change, which records the block as free. -/
def exitAllocator (n addr code : ℕ) (d : DeviceAllocator) : DeviceAllocator :=
  if code = 6 then
    let (s, b) := getBlockInfo n d addr
    let sb := d.superblocks s
    { d with
      superblocks := Function.update d.superblocks s
        { sb with freeBlocks := sb.freeBlocks ++ [b % 2 ^ 16] } }
  else d

/-- `FREE`. -/
def serveFree : Result :=
  match b.allocatorBytes with
  | none => unmapAt s file
  | some n =>
    match free n s.allocator file.opArgument.toNat with
    | .ok d => unmapAt { s with allocator := d } file
    | .exit code =>
      ⟨.exited code,
        { s with allocator := exitAllocator n file.opArgument.toNat code s.allocator }, file⟩
    | .looping => ⟨.running, s, file⟩

/-- Both moves, with the loop that is used if there is a DMA engine. The translation of an address
without a mapping throws, or ends the simulation. -/
def serveMove (kind : MoveKind) (fpgaAddr : UInt64) (loop : ℕ → Moved) : Result :=
  match kind with
  | .nothing => ⟨.replied, s, file⟩
  | .memcpy =>
    match s.translator.translate fpgaAddr with
    | none => ⟨.thrown, s, file⟩
    | some _ => ⟨.replied, s, file⟩
  | .dma =>
    match s.translator.translate fpgaAddr with
    | none => ⟨.thrown, s, file⟩
    | some ptr =>
      match loop ptr with
      | .finished _ => ⟨.replied, s, file⟩
      | .remainderByZero _ => ⟨.signalled, s, file⟩
      | .running => ⟨.running, s, file⟩

/-- The body of the server's loop. -/
def serve : Result :=
  match file.operation with
  | .alloc => serveAlloc b e s file
  | .free => serveFree b s file
  | .moveFromFpga =>
    serveMove s file b.moveFrom file.op2Argument fun ptr =>
      moveFromFpga e.rand e.fuel ptr file.op2Argument file.op3Argument
  | .moveToFpga =>
    serveMove s file b.moveTo file.opArgument fun ptr =>
      moveToFpga e.rand e.fuel ptr file.opArgument file.op3Argument

end Operations

/-- The server under requests: it goes on after the requests that it replies to. -/
def dataServer (b : Build) : System Server (DataServerFile × Answers) where
  init := {}
  step s x :=
    let r := serve b x.2 s x.1
    if r.served = .replied then some r.server else none

/-! ### Requests to release what is not mapped -/

variable {b : Build} {e : Answers} {s : Server} {file : DataServerFile}

/-- The address is not the base address of a mapping. -/
def Unmapped (s : Server) (a : UInt64) : Prop := ∀ m ∈ s.translator.mappings, m.fpgaAddr ≠ a

instance (s : Server) (a : UInt64) : Decidable (Unmapped s a) :=
  inferInstanceAs (Decidable (∀ m ∈ s.translator.mappings, m.fpgaAddr ≠ a))

/-- The allocator has nothing at an address: its superblock is not cut into blocks, and no
superblock from there down is the first of a run. -/
def NothingAt (n : ℕ) (d : DeviceAllocator) (addr : ℕ) : Prop :=
  (d.superblocks (getBlockInfo n d addr).1).flags &&& blockAlloc = 0 ∧
    ∀ i ≤ (getBlockInfo n d addr).1, (d.superblocks i).flags &&& baseAllocation = 0

instance (n : ℕ) (d : DeviceAllocator) (addr : ℕ) : Decidable (NothingAt n d addr) :=
  inferInstanceAs (Decidable (_ ∧ ∀ i ≤ _, _))

theorem findBase_eq_none {sb : ℕ → Superblock} {id : ℕ}
    (h : ∀ i ≤ id, (sb i).flags &&& baseAllocation = 0) : findBase sb id = none := by
  induction id with
  | zero => simp [findBase, h 0 le_rfl]
  | succ id ih => simp [findBase, h (id + 1) le_rfl, ih fun i hi => h i (Nat.le_succ_of_le hi)]

theorem free_of_nothingAt {n addr : ℕ} {d : DeviceAllocator} (h : NothingAt n d addr) :
    free n d addr = .exit 7 := by
  obtain ⟨hblock, hbase⟩ := h
  simp only [free, hblock, freeSuperblocks, findBase_eq_none hbase]
  simp

/-- Without a mapping the second part of `FREE` throws. -/
theorem unmapAt_of_unmapped (h : Unmapped s file.opArgument) :
    unmapAt s file = ⟨.thrown, s, file⟩ := by
  have hfind : (s.translator.mappings.find? fun m => m.fpgaAddr = file.opArgument) = none :=
    List.find?_eq_none.mpr fun m hm => by simpa using h m hm
  simp [unmapAt, AddressTranslator.getMapping, hfind]

/-- A simulation of a device with two superblocks. -/
def simulated : Build := { sim := true, allocatorBytes := some (2 ^ 22) }

/-- A request for a block of half a superblock. -/
def allocHalf : DataServerFile × Answers :=
  ({ operation := .alloc, opArgument := 0x100000 }, { mmap := 0x7F0000000000 })

end Beethoven.DataServer
