import Beethoven.DataServer.DmaEngine
import Beethoven.Lib.TransitionSystem

/-!
# The data server and the DMA engine

The data server and the engine of `Beethoven.DataServer.DmaEngine` are two threads. They share the
variables `dma_*` under `dma_lock`, which each of them holds throughout its part, and the data
server waits for the end of a chunk at `dma_wait_lock`.

The two may interleave in any way, and the accelerator may answer in any way. What passes on the bus
is then the bursts of the chunks, one after the other, each whole before the next begins, and a
request that was served has carried its buffer, if no client writes to the buffer while it is
served. A client can do so at any time, and the engine reads the host's memory again in every tick.
-/

namespace Beethoven.DataServer

open Lib (System slice)

/-- A request of a client to move data. -/
structure Move where
  dmaWrite : Bool
  ptr : ℕ
  fpgaAddr : UInt64
  len : UInt64
  deriving DecidableEq, Repr

/-- History of a request: its chunks, and the host's memory when they were moved. -/
structure ServedMove where
  move : Move
  chunks : List Chunk
  host : ℕ → UInt8

/-- The bytes that the engine reads for a request: its buffer and, on a bus of more than 512 bits,
what stands after it, since the words of a beat are then more than 64 bytes. -/
def Move.buffer (width : ℕ) (host : ℕ → UInt8) (m : Move) : List UInt8 :=
  slice host m.ptr (m.len.toNat + 64 * (width / 8 - 64))

/-- The threads: the host's memory, the data server and the engine. -/
structure DmaSystem where
  host : ℕ → UInt8
  /-- The request that the data server serves, with the variables of its loop. -/
  transfer : Option (Move × DmaTransfer)
  /-- The data server is at the second lock of `dma_wait_lock`. -/
  waiting : Bool
  engine : DmaState
  /-- History: the requests that were served. -/
  served : List ServedMove

/-- The steps of the threads: each is one section under `dma_lock`, or touches nothing that the
threads share. -/
inductive DmaAction where
  | store (host : ℕ → UInt8)
  | start (m : Move)
  | handOver (rand : UInt64)
  | resume
  | finish
  | tick (i : DmaInputs)

namespace DmaSystem

/-- The data server has locked `dma_wait_lock` and waits for a request. -/
def init : DmaSystem :=
  { host := fun _ => 0, transfer := none, waiting := false, served := []
    engine :=
      { dmaValid := false, dmaInProgress := false, dmaChunk := ⟨0, 0, 0, false⟩
        dmaTxprogress := 0, dmaTxlength := 0, dmaWaitLock := true } }

variable (width : ℕ) (x : DmaSystem)

/-- Clients write to their buffers. -/
def store (host : ℕ → UInt8) : Option DmaSystem := some { x with host }

/-- The data server takes the next request. -/
def start (m : Move) : Option DmaSystem :=
  match x.transfer with
  | none => some { x with
      transfer := some (m, { ptr1 := m.ptr, ptr2 := m.fpgaAddr, amtLeft := m.len }) }
  | some _ => none

/-- An iteration of the loop, up to the second lock of `dma_wait_lock`; undefined where it takes a
remainder by zero. -/
def handOver (rand : UInt64) : Option DmaSystem :=
  match x.transfer with
  | none => none
  | some (m, t) =>
    if !x.waiting && t.amtLeft > 0 then
      (t.iterate m.dmaWrite rand).map fun t' =>
        { x with
          transfer := some (m, t')
          waiting := true
          engine := { x.engine with
            dmaChunk := ⟨t.ptr1, t.ptr2, 64 * t.nBeatsHere rand, m.dmaWrite⟩
            dmaValid := true
            dmaInProgress := false } }
    else none

/-- The data server gets `dma_wait_lock`. -/
def resume : Option DmaSystem :=
  if x.waiting && !x.engine.dmaWaitLock then
    some { x with waiting := false, engine := { x.engine with dmaWaitLock := true } }
  else none

/-- The end of the loop. -/
def finish : Option DmaSystem :=
  match x.transfer with
  | none => none
  | some (m, t) =>
    if !x.waiting && t.amtLeft == 0 then
      some { x with transfer := none, served := x.served ++ [⟨m, t.chunks, x.host⟩] }
    else none

/-- A step of one of the threads. -/
def step (x : DmaSystem) : DmaAction → Option DmaSystem
  | .store host => x.store host
  | .start m => x.start m
  | .handOver rand => x.handOver rand
  | .resume => x.resume
  | .finish => x.finish
  | .tick i => (x.engine.tick width x.host i).map fun y => { x with engine := y.1 }

/-- The bursts of the chunks that were handed over. -/
def bursts : List DmaEvent :=
  (x.served.flatMap fun m => m.chunks.flatMap (Chunk.burst width m.host)) ++
    ((x.transfer.map fun m => m.2.chunks).getD []).flatMap (Chunk.burst width x.host)

/-- The host's memory is the same where the engine reads it for the request that is served. -/
def SameBuffer (host : ℕ → UInt8) : Prop :=
  ∀ m ∈ x.transfer.map Prod.fst, m.buffer width host = m.buffer width x.host

end DmaSystem

/-- No client writes to the buffer of a request while it is served. -/
def KeepsBuffer (width : ℕ) (x : DmaSystem × List DmaEvent) : DmaAction → Prop
  | .store host => x.1.SameBuffer width host
  | _ => True

instance (width : ℕ) (x : DmaSystem × List DmaEvent) :
    (a : DmaAction) → Decidable (KeepsBuffer width x a)
  | .store _ => inferInstanceAs (Decidable (∀ m ∈ _, _ = _))
  | .start _ | .handOver _ | .resume | .finish | .tick _ => inferInstanceAs (Decidable True)

/-- The data server and the DMA engine on a bus of `width` bits. -/
def dmaSystem (width : ℕ) : System DmaSystem DmaAction := ⟨.init, DmaSystem.step width⟩

/-- The handshakes of a step. -/
def dmaEvents (width : ℕ) (x : DmaSystem) : DmaAction → List DmaEvent
  | .tick i => ((x.engine.tick width x.host i).map fun y =>
      y.2.1.handshakes i ++ y.2.2.handshakes i).getD []
  | _ => []

/-- The threads with the handshakes on the bus. -/
def dmaBus (width : ℕ) : System (DmaSystem × List DmaEvent) DmaAction :=
  (dmaSystem width).logged (dmaEvents width)

/-! ### Runs of the threads -/

/-- The loop of the data server has handed over the first chunks of the request. -/
structure InLoop (m : Move) (t : DmaTransfer) : Prop where
  consecutive : Consecutive m.dmaWrite m.ptr m.fpgaAddr t.chunks
  ptr1 : t.ptr1 = m.ptr + totalLen t.chunks
  ptr2 : t.ptr2 = m.fpgaAddr + fpgaLen t.chunks
  left : totalLen t.chunks + t.amtLeft.toNat = m.len.toNat

theorem InLoop.iterate {m : Move} {t t' : DmaTransfer} {rand : UInt64} (h : InLoop m t)
    (hiterate : t.iterate m.dmaWrite rand = some t') :
    InLoop m t' ∧
      t'.chunks = t.chunks ++ [⟨t.ptr1, t.ptr2, 64 * t.nBeatsHere rand, m.dmaWrite⟩] ∧
      t'.amtLeft.toNat < t.amtLeft.toNat ∧ 64 ∣ t.amtLeft.toNat - t'.amtLeft.toNat := by
  have hleft : 64 ≤ t.amtLeft.toNat := by
    by_contra hlt
    rw [DmaTransfer.iterate,
      if_pos (DmaTransfer.maxBeats_eq_zero_iff.mpr (Nat.lt_of_not_le hlt))] at hiterate
    cases hiterate
  obtain ⟨t'', c, n, hsome, hover⟩ := DmaTransfer.iterate_eq_some hleft m.dmaWrite rand
  obtain rfl : t'' = t' := Option.some.inj (hsome.symm.trans hiterate)
  have hchunks : t''.chunks =
      t.chunks ++ [⟨t.ptr1, t.ptr2, 64 * t.nBeatsHere rand, m.dmaWrite⟩] := by
    rw [DmaTransfer.iterate] at hsome
    split_ifs at hsome
    cases hsome
    rfl
  have htotal : totalLen t''.chunks = totalLen t.chunks + c.dmaLen.toNat := by
    simp [hover.chunks, totalLen]
  have hlen := hover.dmaLen
  have hamt := hover.amtLeft
  have hone := hover.one_le
  have hall := h.left
  refine ⟨⟨?_, ?_, ?_, by omega⟩, hchunks, by omega, ⟨n, by omega⟩⟩
  · rw [hover.chunks]
    exact consecutive_concat h.consecutive (hover.dmaPtr.trans h.ptr1)
      (hover.dmaFpgaAddr.trans h.ptr2) hover.dmaWrite ⟨n, hone, hover.le, hlen⟩
  · rw [hover.ptr1, h.ptr1, htotal, Nat.add_assoc]
  · rw [hover.ptr2, h.ptr2, hover.chunks, fpgaLen, fpgaLen, List.map_append, List.map_singleton,
      List.sum_append, List.sum_singleton, UInt64.add_assoc]

/-- What the engine reads for a chunk of the request, it reads for the request. -/
theorem InLoop.reads {width a : ℕ} {m : Move} {t : DmaTransfer} {c : Chunk} {host host' : ℕ → UInt8}
    (h : InLoop m t) (hc : c ∈ t.chunks) (hsame : m.buffer width host' = m.buffer width host)
    (ha : c.Reads width a) : host' a = host a := by
  obtain ⟨hptr, hend⟩ := within_of_consecutive h.consecutive c hc
  have hwhole : c.Whole := whole_of_consecutive h.consecutive c hc
  have hlen := hwhole.dmaLen
  have hleft := h.left
  have hpast : max 64 (width / 8) * c.beats ≤ 64 * c.beats + 64 * (width / 8 - 64) :=
    calc max 64 (width / 8) * c.beats = (64 + (width / 8 - 64)) * c.beats := by
          congr 1
          omega
      _ = 64 * c.beats + c.beats * (width / 8 - 64) := by rw [Nat.add_mul, Nat.mul_comm c.beats]
      _ ≤ 64 * c.beats + 64 * (width / 8 - 64) :=
        Nat.add_le_add_left (Nat.mul_le_mul_right _ hwhole.le) _
  obtain ⟨k, rfl⟩ := Nat.exists_eq_add_of_le (hptr.trans ha.1)
  refine Lib.slice_eq_iff.mp hsame k ?_
  have hlt := ha.2
  omega

/-- **The state of the threads and the bus**: `log` is what has passed, and `all` what will have
passed once the chunk that was handed over is moved. -/
structure DmaOk (width : ℕ) (x : DmaSystem) (all log : List DmaEvent) : Prop where
  phase : Phase width x.host x.waiting all x.engine log
  /-- The data server waits only for a chunk of the request that it serves. -/
  chunk : x.waiting = true → ∃ m t, x.transfer = some (m, t) ∧ x.engine.dmaChunk ∈ t.chunks
  loop : ∀ m t, x.transfer = some (m, t) → InLoop m t
  served : ∀ m ∈ x.served,
    Consecutive m.move.dmaWrite m.move.ptr m.move.fpgaAddr m.chunks ∧
      totalLen m.chunks = m.move.len.toNat

namespace DmaOk

variable {width : ℕ} {x y : DmaSystem} {all log : List DmaEvent} {host : ℕ → UInt8}

theorem init : DmaOk width .init [] [] :=
  ⟨.idle rfl rfl rfl rfl rfl, fun h => absurd h Bool.false_ne_true, fun _ _ => nofun,
    fun _ h => absurd h List.not_mem_nil⟩

theorem reads (h : DmaOk width x all log) (hsame : x.SameBuffer width host)
    (hwaiting : x.waiting = true) : ∀ a, x.engine.dmaChunk.Reads width a → host a = x.host a := by
  obtain ⟨m, t, htransfer, hchunk⟩ := h.chunk hwaiting
  have hbuffer := hsame m (by simp [htransfer])
  exact fun a ha => (h.loop m t htransfer).reads hchunk hbuffer ha

/-- A client writes, but not to the buffer of the request that is served. -/
theorem store (h : DmaOk width x all log) (hsame : x.SameBuffer width host) :
    DmaOk width { x with host } all log ∧
      DmaSystem.bursts width { x with host } = x.bursts width := by
  refine ⟨⟨h.phase.host_congr (h.reads hsame), h.chunk, h.loop, h.served⟩, ?_⟩
  refine congrArg (_ ++ ·) (List.flatMap_congr fun c hc => ?_)
  cases htransfer : x.transfer with
  | none => simp [htransfer] at hc
  | some r =>
    obtain ⟨m, t⟩ := r
    have hchunk : c ∈ t.chunks := by simpa [htransfer] using hc
    have hbuffer := hsame m (by simp [htransfer])
    exact Chunk.burst_congr fun a ha => (h.loop m t htransfer).reads hchunk hbuffer ha

/-- A client writes anywhere. -/
theorem exists_store (h : DmaOk width x all log) (host : ℕ → UInt8) :
    ∃ all' log', DmaOk width { x with host } all' log' := by
  obtain ⟨all', log', hphase⟩ := h.phase.exists_of_host host
  exact ⟨all', log', hphase, h.chunk, h.loop, h.served⟩

theorem start (h : DmaOk width x all log) {m : Move} (hstep : x.start m = some y) :
    DmaOk width y all log ∧ y.bursts width = x.bursts width := by
  rw [DmaSystem.start] at hstep
  split at hstep
  · next hnone =>
    cases hstep
    refine ⟨⟨h.phase, fun hwaiting => ?_, fun m' t' heq => ?_, h.served⟩, ?_⟩
    · obtain ⟨m', t', htransfer, -⟩ := h.chunk hwaiting
      exact absurd (hnone.symm.trans htransfer) nofun
    · cases heq
      exact ⟨trivial, by simp [totalLen], by simp [fpgaLen], by simp [totalLen]⟩
    · simp [DmaSystem.bursts, hnone]
  · cases hstep

theorem handOver (h : DmaOk width x all log) {rand : UInt64} (hstep : x.handOver rand = some y) :
    ∃ c : Chunk, DmaOk width y (all ++ c.burst width x.host) log ∧
      y.bursts width = x.bursts width ++ c.burst width x.host := by
  rw [DmaSystem.handOver] at hstep
  split at hstep
  · cases hstep
  · next m t htransfer =>
    split_ifs at hstep with hguard
    obtain ⟨t', hiterate, rfl⟩ := Option.map_eq_some_iff.mp hstep
    obtain ⟨hloop, hchunks, -⟩ := (h.loop m t htransfer).iterate hiterate
    have hwaiting : x.waiting = false := by simpa using (Bool.and_eq_true_iff.mp hguard).1
    have hmem : (⟨t.ptr1, t.ptr2, 64 * t.nBeatsHere rand, m.dmaWrite⟩ : Chunk) ∈ t'.chunks := by
      simp [hchunks]
    have hwhole := whole_of_consecutive hloop.consecutive _ hmem
    refine ⟨_, ⟨(hwaiting ▸ h.phase).handOver hwhole, fun _ => ⟨m, t', rfl, hmem⟩,
      fun m' t'' heq => ?_, h.served⟩, ?_⟩
    · cases heq
      exact hloop
    · simp [DmaSystem.bursts, htransfer, hchunks]

theorem resume (h : DmaOk width x all log) (hstep : x.resume = some y) :
    DmaOk width y all log ∧ y.bursts width = x.bursts width := by
  rw [DmaSystem.resume] at hstep
  split_ifs at hstep with hguard
  cases hstep
  rw [Bool.and_eq_true_iff] at hguard
  have hlock : x.engine.dmaWaitLock = false := by simpa using hguard.2
  exact ⟨⟨(hguard.1 ▸ h.phase).resume hlock, fun h => absurd h Bool.false_ne_true, h.loop,
    h.served⟩, rfl⟩

theorem finish (h : DmaOk width x all log) (hstep : x.finish = some y) :
    DmaOk width y all log ∧ y.bursts width = x.bursts width := by
  rw [DmaSystem.finish] at hstep
  split at hstep
  · cases hstep
  · next m t htransfer =>
    split_ifs at hstep with hguard
    cases hstep
    rw [Bool.and_eq_true_iff] at hguard
    have hwaiting : x.waiting = false := by simpa using hguard.1
    have hloop := h.loop m t htransfer
    refine ⟨⟨h.phase, fun hw => absurd hw (by simp [hwaiting]), fun _ _ => nofun, ?_⟩, ?_⟩
    · intro m' hm'
      rcases List.mem_append.mp hm' with hm' | hm'
      · exact h.served m' hm'
      · obtain rfl := List.mem_singleton.mp hm'
        have hzero : t.amtLeft = 0 := by simpa using hguard.2
        exact ⟨hloop.consecutive, by simpa [hzero] using hloop.left⟩
    · simp [DmaSystem.bursts, htransfer]

theorem tick (h : DmaOk width x all log) {i : DmaInputs} {e : DmaState} {r : RequestOut}
    {o : DataOut} (htick : x.engine.tick width x.host i = some (e, r, o)) :
    DmaOk width { x with engine := e } all (log ++ (r.handshakes i ++ o.handshakes i)) := by
  refine ⟨h.phase.tick htick, fun hwaiting => ?_, h.loop, h.served⟩
  obtain ⟨m, t, htransfer, hchunk⟩ := h.chunk hwaiting
  obtain ⟨hmove, -⟩ := DmaState.tick_eq_some htick
  have hsame : e.dmaChunk = x.engine.dmaChunk :=
    (DmaState.dmaChunk_move hmove).trans (DmaState.dmaChunk_offer ..)
  exact ⟨m, t, htransfer, hsame ▸ hchunk⟩

/-- **A step of the threads**, where no client writes to the buffer that is served: `new` is the
burst of a chunk that is handed over. -/
theorem step (h : DmaOk width x all log) {a : DmaAction} (hkeeps : KeepsBuffer width (x, log) a)
    (hstep : x.step width a = some y) :
    ∃ new, DmaOk width y (all ++ new) (log ++ dmaEvents width x a) ∧
      y.bursts width = x.bursts width ++ new := by
  -- only a tick shows on the bus, and only a chunk that is handed over adds to it
  have hquiet (hy : DmaOk width y all log ∧ y.bursts width = x.bursts width) :
      ∃ new, DmaOk width y (all ++ new) (log ++ []) ∧ y.bursts width = x.bursts width ++ new :=
    ⟨[], by simpa using hy⟩
  cases a with
  | store host =>
    cases hstep
    exact hquiet (h.store hkeeps)
  | start m => exact hquiet (h.start hstep)
  | resume => exact hquiet (h.resume hstep)
  | finish => exact hquiet (h.finish hstep)
  | handOver rand =>
    obtain ⟨c, hy, hbursts⟩ := h.handOver hstep
    exact ⟨_, by simpa [dmaEvents] using hy, hbursts⟩
  | tick i =>
    obtain ⟨⟨e, r, o⟩, htick, rfl⟩ := Option.map_eq_some_iff.mp hstep
    have hevents : dmaEvents width x (.tick i) = r.handshakes i ++ o.handshakes i := by
      simp [dmaEvents, htick]
    exact ⟨[], by simpa [hevents] using h.tick htick, by simp [DmaSystem.bursts]⟩

/-- Whatever the clients write, the threads are in order. -/
theorem exists_of_reaches {x : DmaSystem × List DmaEvent}
    (h : (dmaBus width).Reaches System.anyStep x) : ∃ all log, DmaOk width x.1 all log := by
  refine h.invariant (I := fun x => ∃ all log, DmaOk width x.1 all log) ⟨[], [], .init⟩ ?_
  rintro ⟨x, log'⟩ a ⟨y, log''⟩ ⟨all, log, hx⟩ - hlogged
  obtain ⟨hstep, -⟩ := System.logged_step hlogged
  dsimp only at hx hstep ⊢
  by_cases hkeeps : KeepsBuffer width (x, log) a
  · obtain ⟨new, hy, -⟩ := hx.step hkeeps hstep
    exact ⟨_, _, hy⟩
  · cases a with
    | store host =>
      cases hstep
      exact hx.exists_store host
    | start m | handOver rand | resume | finish | tick i => exact absurd trivial hkeeps

/-- **What has passed is the beginning of the bursts** of the chunks that were handed over. -/
theorem of_reaches {x : DmaSystem × List DmaEvent}
    (h : (dmaBus width).Reaches (KeepsBuffer width) x) :
    DmaOk width x.1 (x.1.bursts width) x.2 := by
  refine h.invariant (I := fun x => DmaOk width x.1 (x.1.bursts width) x.2) .init ?_
  rintro ⟨x, log⟩ a ⟨y, log'⟩ hx hkeeps hlogged
  obtain ⟨hstep, hlog⟩ := System.logged_step hlogged
  obtain ⟨new, hy, hbursts⟩ := hx.step hkeeps hstep
  dsimp only at hlog ⊢
  rw [hlog, hbursts]
  exact hy

end DmaOk

/-- **What passes on the bus are the bursts of the chunks, one after the other.** However the data
server and the engine interleave, however the accelerator answers, and whatever the clients write
but to the buffer that is served, the handshakes are the beginning of the bursts of the chunks that
were handed over, and all of them wherever the data server does not wait. The chunks of a request
that was served are consecutive; on a bus of 512 bits their bursts have carried exactly the bytes of
its buffer, in order. -/
theorem dmaBus_bursts {width : ℕ} {x : DmaSystem × List DmaEvent}
    (h : (dmaBus width).Reaches (KeepsBuffer width) x) :
    x.2 <+: x.1.bursts width ∧ (x.1.waiting = false → x.2 = x.1.bursts width) ∧
      ∀ m ∈ x.1.served, Consecutive m.move.dmaWrite m.move.ptr m.move.fpgaAddr m.chunks ∧
        (width = 512 → payload (m.chunks.flatMap (Chunk.burst width m.host)) =
          slice m.host m.move.ptr m.move.len.toNat) := by
  have hx := DmaOk.of_reaches h
  refine ⟨hx.phase.isPrefix, fun hwaiting => (hwaiting ▸ hx.phase).idle_of_not_waiting.2,
    fun m hm => ?_⟩
  obtain ⟨hconsecutive, htotal⟩ := hx.served m hm
  refine ⟨hconsecutive, ?_⟩
  rintro rfl
  rw [payload_flatMap_burst hconsecutive, htotal]

/-- A request to move 128 bytes to the accelerator. -/
def moveTwoBeats : Move := ⟨true, 4096, 64, 128⟩

/-- An accelerator that takes and answers everything at once. -/
def prompt : DmaInputs := .serve (fun _ => 0) 0

/-- A client writes right before the buffer of the request. -/
def storeBefore : DmaAction := .store fun a => if a = 4095 then 7 else .ofNat a

/-- The request is served in two chunks of a beat. -/
def serveTwoBeats : List DmaAction :=
  [.store fun a => .ofNat a, .start moveTwoBeats, .handOver 1, .tick prompt, storeBefore,
    .tick prompt, .resume, .handOver 1, .tick prompt, .tick prompt, .resume, .finish]

theorem dmaBus_bursts_twoBeats :
    ∃ x, (dmaBus 512).Reaches (KeepsBuffer 512) x ∧
      (x.1.served.map fun m => (m.move, m.chunks)) =
        [(moveTwoBeats, [⟨4096, 64, 64, true⟩, ⟨4160, 128, 64, true⟩])] ∧
      x.2.length = 6 ∧ x.2 = x.1.bursts 512 ∧
      ∀ m ∈ x.1.served, payload (m.chunks.flatMap (Chunk.burst 512 m.host)) =
        slice m.host m.move.ptr m.move.len.toNat := by
  obtain ⟨x, hreach, hserved, hlength, hwaiting⟩ := System.exists_reaches (dmaBus 512)
    (KeepsBuffer 512) (fun x => (x.1.served.map fun m => (m.move, m.chunks)) =
      [(moveTwoBeats, [⟨4096, 64, 64, true⟩, ⟨4160, 128, 64, true⟩])] ∧ x.2.length = 6 ∧
        x.1.waiting = false) serveTwoBeats (by decide +kernel)
  obtain ⟨-, hall, hbytes⟩ := dmaBus_bursts hreach
  exact ⟨x, hreach, hserved, hlength, hall hwaiting, fun m hm => (hbytes m hm).2 rfl⟩

/-! ### What is offered -/

/-- A step that is not of the engine. -/
def DmaAction.IsServer : DmaAction → Prop
  | .tick _ => False
  | _ => True

section Stable

variable {width : ℕ} {x y : DmaSystem} {all log : List DmaEvent}

/-- The data server does nothing while a chunk is moved. -/
theorem DmaOk.eq_store_of_step (h : DmaOk width x all log) (hvalid : x.engine.dmaValid = true)
    {a : DmaAction} (ha : a.IsServer) (hstep : x.step width a = some y) :
    ∃ host, y = { x with host } := by
  obtain ⟨hwaiting, hlock⟩ := h.phase.locked_of_valid hvalid
  obtain ⟨m, t, htransfer, -⟩ := h.chunk hwaiting
  cases a with
  | store host =>
    cases hstep
    exact ⟨host, rfl⟩
  | start m => simp [DmaSystem.step, DmaSystem.start, htransfer] at hstep
  | handOver rand => simp [DmaSystem.step, DmaSystem.handOver, htransfer, hwaiting] at hstep
  | resume => simp [DmaSystem.step, DmaSystem.resume, hlock] at hstep
  | finish => simp [DmaSystem.step, DmaSystem.finish, htransfer, hwaiting] at hstep
  | tick i => exact ha.elim

theorem DmaOk.eq_store_of_run {l : List DmaAction} (h : DmaOk width x all log)
    (hvalid : x.engine.dmaValid = true)
    (hrun : (dmaSystem width).Run (fun _ a => a.IsServer) x l y) : ∃ host, y = { x with host } := by
  have hinv : (∃ host, y = { x with host }) ∧ ∃ all log, DmaOk width y all log := by
    refine hrun.invariant (I := fun y => (∃ host, y = { x with host }) ∧
      ∃ all log, DmaOk width y all log) ?_ ⟨⟨x.host, rfl⟩, all, log, h⟩
    rintro _ a z ⟨⟨host, rfl⟩, all, log, hz⟩ ha hstep
    obtain ⟨host', rfl⟩ := hz.eq_store_of_step hvalid ha hstep
    exact ⟨⟨host', rfl⟩, hz.exists_store host'⟩
  exact hinv.1

theorem DmaState.move_again {host host' : ℕ → UInt8} {e e' e'' : DmaState} {b : Beat}
    {i i' : DmaInputs} {o o' : DataOut} (hmove : e.move width host i = some (e', o))
    (hw : o.w = some b) (hready : i.wReady = false)
    (hmove' : e'.move width host' i' = some (e'', o')) :
    b = e.offered width host ∧ o'.w = some (e.offered width host') := by
  obtain ⟨hprogress, hwrite, hlt⟩ := w_of_move hmove hw
  rw [move_beat hprogress hwrite hlt, hready, if_neg Bool.false_ne_true] at hmove
  cases hmove
  rw [move_beat hprogress hwrite hlt] at hmove'
  cases hmove'
  cases hw
  exact ⟨rfl, rfl⟩

theorem DmaOk.offered_eq (h : DmaOk width x all log) {host : ℕ → UInt8}
    (hsame : x.SameBuffer width host) (hprogress : x.engine.dmaInProgress = true)
    (hlt : (x.engine.dmaTxprogress : ℤ) < x.engine.dmaTxlength) :
    x.engine.offered width host = x.engine.offered width x.host := by
  obtain ⟨hwaiting, -⟩ := h.phase.locked_of_valid (h.phase.valid_of_inProgress hprogress)
  have hbeats := h.phase.length_of_inProgress hprogress
  rw [DmaState.offered, Chunk.words_congr (h.reads hsame hwaiting) (by omega), DmaState.offered]

end Stable

/-- **What is offered stays until it is taken.** Whatever the data server and the clients do between
two ticks, a burst that is offered on AW or AR and not taken is offered again, with another ID. A
beat on W that is not taken is offered again, with the same data if no client has written to the
buffer that is served. -/
theorem dmaBus_stable {width : ℕ} {x : DmaSystem × List DmaEvent}
    (h : (dmaBus width).Reaches System.anyStep x) {i i' : DmaInputs} {e e' : DmaState}
    {r r' : RequestOut} {o o' : DataOut} {l : List DmaAction} {y : DmaSystem}
    (htick : x.1.engine.tick width x.1.host i = some (e, r, o))
    (hrun : (dmaSystem width).Run (fun _ a => a.IsServer) { x.1 with engine := e } l y)
    (htick' : y.engine.tick width y.host i' = some (e', r', o')) :
    (i.awReady = false → ∀ q id, r.aw = some (q, id) → r'.aw = some (q, i'.rand % 16)) ∧
      (i.arReady = false → ∀ q id, r.ar = some (q, id) → r'.ar = some (q, i'.rand % 16)) ∧
      (i.wReady = false → ∀ b, o.w = some b → ∃ b', o'.w = some b' ∧ b'.last = b.last ∧
        (x.1.SameBuffer width y.host → b' = b)) := by
  obtain ⟨all, log, hx⟩ := DmaOk.exists_of_reaches h
  have hok := hx.tick htick
  have hnext : e.dmaValid = true → y.engine = e := fun hvalid => by
    obtain ⟨host, rfl⟩ := hok.eq_store_of_run hvalid hrun
    rfl
  obtain ⟨hmove, rfl⟩ := DmaState.tick_eq_some htick
  obtain ⟨hmove', rfl⟩ := DmaState.tick_eq_some htick'
  refine ⟨fun hready q id hq => ?_, fun hready q id hq => ?_, fun hready b hb => ?_⟩
  · obtain ⟨hvalid, hprogress, hwrite, rfl⟩ := DmaState.of_offer_aw hq
    rw [DmaState.offer_write hvalid hprogress hwrite, hready, DmaState.move_of_not rfl] at hmove
    cases hmove
    rw [hnext hvalid]
    have hagain := DmaState.offer_write (e := x.1.engine.reset false) hvalid rfl hwrite i'
    exact congrArg (fun z => z.2.aw) hagain
  · obtain ⟨hvalid, hprogress, hread, rfl⟩ := DmaState.of_offer_ar hq
    rw [DmaState.offer_read hvalid hprogress hread, hready, DmaState.move_of_not rfl] at hmove
    cases hmove
    rw [hnext hvalid]
    have hagain := DmaState.offer_read (e := x.1.engine.reset false) hvalid rfl hread i'
    exact congrArg (fun z => z.2.ar) hagain
  · obtain ⟨hprogress, hwrite, hlt⟩ := DmaState.w_of_move hmove hb
    have hsame : e = (x.1.engine.offer i).1 := by
      rw [DmaState.move_beat hprogress hwrite hlt, hready, if_neg Bool.false_ne_true] at hmove
      cases hmove
      rfl
    subst hsame
    rw [hnext (hok.phase.valid_of_inProgress hprogress),
      DmaState.offer_of_not (by simp [hprogress])] at hmove'
    obtain ⟨rfl, hw⟩ := DmaState.move_again hmove hb hready hmove'
    exact ⟨_, hw, rfl, fun hbuffer => hok.offered_eq hbuffer hprogress hlt⟩

/-- An accelerator that takes nothing. -/
def stalled (rand : ℕ) : DmaInputs :=
  { awReady := false, arReady := false, wReady := false, bValid := false, rValid := false
    rData := fun _ => 0, rand }

-- the burst is offered with ID 3 and again with ID 5, and the beat twice, with a write between
theorem dmaBus_stable_twoBeats :
    (∃ x e r o e' r' o', (dmaBus 512).Reaches System.anyStep x ∧
      x.1.engine.tick 512 x.1.host (stalled 3) = some (e, r, o) ∧
      e.tick 512 x.1.host (stalled 5) = some (e', r', o') ∧
      r.aw = some (⟨64, 6, 0, 1⟩, 3) ∧ r'.aw = some (⟨64, 6, 0, 1⟩, 5)) ∧
    ∃ x e r o e' r' o' b, ∃ y : DmaSystem, (dmaBus 512).Reaches System.anyStep x ∧
      x.1.engine.tick 512 x.1.host .takeRequest = some (e, r, o) ∧
      DmaSystem.step 512 { x.1 with engine := e } storeBefore = some y ∧
      y.engine.tick 512 y.host (stalled 0) = some (e', r', o') ∧ y.host 4095 = 7 ∧
      o.w = some b ∧ o'.w = some b := by
  refine ⟨?_, ?_⟩
  · obtain ⟨x, hreach, hticks⟩ := System.exists_reaches (dmaBus 512) System.anyStep
      (fun x => ((x.1.engine.tick 512 x.1.host (stalled 3)).bind fun y =>
        (y.1.tick 512 x.1.host (stalled 5)).map fun _ => y.2.1.aw) = some (some (⟨64, 6, 0, 1⟩, 3)))
      (serveTwoBeats.take 3) (by decide +kernel)
    obtain ⟨⟨e, r, o⟩, htick, hticks⟩ := Option.bind_eq_some_iff.mp hticks
    obtain ⟨⟨e', r', o'⟩, htick', haw⟩ := Option.map_eq_some_iff.mp hticks
    exact ⟨x, e, r, o, e', r', o', hreach, htick, htick', haw,
      (dmaBus_stable hreach htick (.nil _) htick').1 rfl _ _ haw⟩
  · obtain ⟨x, hreach, hbuffer, hticks⟩ := System.exists_reaches (dmaBus 512) System.anyStep
      (fun x => KeepsBuffer 512 x storeBefore ∧
        ((x.1.engine.tick 512 x.1.host .takeRequest).bind fun z =>
          (DmaSystem.step 512 { x.1 with engine := z.1 } storeBefore).bind fun y =>
            (y.engine.tick 512 y.host (stalled 0)).bind fun _ =>
              if y.host 4095 = 7 then z.2.2.w else none).isSome)
      (serveTwoBeats.take 3) (by decide +kernel)
    obtain ⟨b, hticks⟩ := Option.isSome_iff_exists.mp hticks
    obtain ⟨⟨e, r, o⟩, htick, hticks⟩ := Option.bind_eq_some_iff.mp hticks
    obtain ⟨y, hstep, hticks⟩ := Option.bind_eq_some_iff.mp hticks
    obtain ⟨⟨e', r', o'⟩, htick', hw⟩ := Option.bind_eq_some_iff.mp hticks
    split_ifs at hw with hwritten
    obtain ⟨b', hw', -, hsame⟩ := (dmaBus_stable hreach htick
      (.cons (a := storeBefore) trivial hstep (.nil _)) htick').2.2 rfl b hw
    cases hstep
    exact ⟨x, e, r, o, e', r', o', b, _, hreach, htick, rfl, htick', hwritten, hw,
      hsame hbuffer ▸ hw'⟩

/-! ### A request can be served to its end -/

/-- The bytes of the request that are left, and what is left of the chunk that is handed over. -/
def DmaSystem.remaining (x : DmaSystem) : ℕ :=
  (match x.transfer with
    | none => 0
    | some (_, t) => t.amtLeft.toNat + 1) +
  if x.waiting then x.engine.remaining else 0

/-- The data server serves the request `m`, of which whole beats are left, or has served it. -/
def DmaSystem.Serves (m : Move) (served : List ServedMove) (x : DmaSystem) : Prop :=
  (∃ t, x.transfer = some (m, t) ∧ 64 ∣ t.amtLeft.toNat ∧ x.served = served) ∨
    (x.transfer = none ∧ ∃ s, x.served = served ++ [s] ∧ s.move = m)

section Progress

variable {width : ℕ} {x : DmaSystem} {all log : List DmaEvent} {m : Move} {t : DmaTransfer}

/-- The engine takes the chunk further, or the data server sees that it is moved. -/
theorem DmaOk.exists_step_of_waiting (h : DmaOk width x all log)
    (htransfer : x.transfer = some (m, t)) (hwaiting : x.waiting = true) :
    ∃ a y, x.step width a = some y ∧ y.transfer = x.transfer ∧ y.served = x.served ∧
      y.remaining < x.remaining := by
  have hphase := hwaiting ▸ h.phase
  cases hvalid : x.engine.dmaValid with
  | true =>
    obtain ⟨i, e, r, o, htick, hlt⟩ := hphase.exists_tick hvalid
    refine ⟨.tick i, { x with engine := e }, congrArg (Option.map _) htick, rfl, rfl, ?_⟩
    simpa [DmaSystem.remaining, htransfer, hwaiting] using hlt
  | false =>
    have hlock := hphase.unlocked_of_not_valid hvalid
    have hresume : x.resume = some
        { x with waiting := false, engine := { x.engine with dmaWaitLock := true } } :=
      if_pos (by simp [hwaiting, hlock])
    refine ⟨.resume, _, hresume, rfl, rfl, ?_⟩
    simp [DmaSystem.remaining, htransfer, hwaiting, DmaState.remaining, hvalid]

theorem DmaOk.exists_handOver (h : DmaOk width x all log) (htransfer : x.transfer = some (m, t))
    (hwaiting : x.waiting = false) (hbeats : 64 ∣ t.amtLeft.toNat) (hpos : 0 < t.amtLeft.toNat) :
    ∃ y t', x.handOver 0 = some y ∧ y.transfer = some (m, t') ∧ 64 ∣ t'.amtLeft.toNat ∧
      y.served = x.served ∧ y.remaining < x.remaining := by
  obtain ⟨t', c, n, hiterate, hover⟩ :=
    DmaTransfer.iterate_eq_some (Nat.le_of_dvd hpos hbeats) m.dmaWrite 0
  obtain ⟨-, hchunks, -⟩ := (h.loop m t htransfer).iterate hiterate
  obtain rfl : c = ⟨t.ptr1, t.ptr2, 64 * t.nBeatsHere 0, m.dmaWrite⟩ :=
    List.singleton_inj.mp (List.append_cancel_left (hover.chunks.symm.trans hchunks))
  have hlen := hover.dmaLen
  have hamt := hover.amtLeft
  have hone := hover.one_le
  have hguard : (!x.waiting && decide (t.amtLeft > 0)) = true := by
    rw [hwaiting]
    exact decide_eq_true (UInt64.lt_iff_toNat_lt.mpr hpos)
  have hx : x.remaining = t.amtLeft.toNat + 1 := by
    simp [DmaSystem.remaining, htransfer, hwaiting]
  rw [DmaSystem.handOver, htransfer]
  dsimp only
  rw [if_pos hguard, hiterate]
  refine ⟨_, t', rfl, rfl, by omega, rfl, ?_⟩
  have hy : t'.amtLeft.toNat + 1 + (n + 3) < t.amtLeft.toNat + 1 := by omega
  simpa [DmaSystem.remaining, DmaState.remaining, Chunk.beats, hlen, htransfer, hwaiting] using hy

/-- **One of the threads takes the request further.** -/
theorem DmaOk.exists_step {served : List ServedMove} (h : DmaOk width x all log)
    (hserves : x.Serves m served) (hnot : x.transfer ≠ none) :
    ∃ a y, x.step width a = some y ∧ y.Serves m served ∧ y.remaining < x.remaining := by
  obtain ⟨t, htransfer, hbeats, rfl⟩ | ⟨hnone, -⟩ := hserves
  case inr => exact absurd hnone hnot
  cases hwaiting : x.waiting with
  | true =>
    obtain ⟨a, y, hstep, hsame, hserved, hlt⟩ := h.exists_step_of_waiting htransfer hwaiting
    exact ⟨a, y, hstep, .inl ⟨t, hsame.trans htransfer, hbeats, hserved⟩, hlt⟩
  | false =>
    by_cases hzero : t.amtLeft = 0
    · have hfinish : x.finish =
          some { x with transfer := none, served := x.served ++ [⟨m, t.chunks, x.host⟩] } := by
        simp [DmaSystem.finish, htransfer, hwaiting, hzero]
      refine ⟨.finish, _, hfinish, .inr ⟨rfl, _, rfl, rfl⟩, ?_⟩
      simp [DmaSystem.remaining, htransfer, hwaiting]
    · have hpos : 0 < t.amtLeft.toNat := by
        refine Nat.pos_of_ne_zero fun h => hzero ?_
        rw [← UInt64.toNat_inj]
        exact h
      obtain ⟨y, t', hstep, htransfer', hbeats', hserved, hlt⟩ :=
        h.exists_handOver htransfer hwaiting hbeats hpos
      exact ⟨.handOver 0, y, hstep, .inl ⟨t', htransfer', hbeats', hserved⟩, hlt⟩

end Progress

/-- **A request of whole beats can always be served to its end.** From every state of the threads in
which whole beats are left of the request that the data server serves, some continuation of the run
serves it, with no write of a client on the way. -/
theorem dmaBus_finishes {width : ℕ} {x : DmaSystem × List DmaEvent}
    (h : (dmaBus width).Reaches System.anyStep x) {m : Move} {t : DmaTransfer}
    (htransfer : x.1.transfer = some (m, t)) (hbeats : 64 ∣ t.amtLeft.toNat) :
    ∃ l y, (dmaBus width).Run System.anyStep x l y ∧ y.1.transfer = none ∧
      ∃ s, y.1.served = x.1.served ++ [s] ∧ s.move = m := by
  have hrun : ∃ l y, (dmaBus width).Run System.anyStep x l y ∧ y.1.Serves m x.1.served ∧
      y.1.transfer = none := by
    refine h.exists_run (fun y => y.1.remaining) (fun y hy hserves hnot => ?_)
      (.inl ⟨t, htransfer, hbeats, rfl⟩)
    obtain ⟨all, log, hok⟩ := DmaOk.exists_of_reaches hy
    obtain ⟨a, z, hstep, hz, hlt⟩ := hok.exists_step hserves hnot
    exact ⟨a, _, trivial, System.step_logged hstep y.2, hz, hlt⟩
  obtain ⟨l, y, hrun, hserves, hnone⟩ := hrun
  refine ⟨l, y, hrun, hnone, ?_⟩
  obtain ⟨t', ht', -⟩ | ⟨-, hserved⟩ := hserves
  · exact absurd (hnone.symm.trans ht') nofun
  · exact hserved

theorem dmaBus_finishes_twoBeats :
    ∃ x, (dmaBus 512).Reaches System.anyStep x ∧ x.1.engine.dmaInProgress = true ∧
      ∃ l y, (dmaBus 512).Run System.anyStep x l y ∧ y.1.transfer = none ∧
        ∃ s, y.1.served = x.1.served ++ [s] ∧ s.move = moveTwoBeats := by
  obtain ⟨x, hreach, htransfer, hprogress⟩ := System.exists_reaches (dmaBus 512) System.anyStep
    (fun x => x.1.transfer = some (moveTwoBeats,
      { ptr1 := 4160, ptr2 := 128, amtLeft := 64, chunks := [⟨4096, 64, 64, true⟩] }) ∧
        x.1.engine.dmaInProgress = true) (serveTwoBeats.take 4) (by decide +kernel)
  exact ⟨x, hreach, hprogress, dmaBus_finishes hreach htransfer (by decide)⟩

end Beethoven.DataServer
