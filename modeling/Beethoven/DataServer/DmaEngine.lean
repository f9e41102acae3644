import Mathlib.Algebra.Order.Ring.Int
import Beethoven.DataServer.Dma
import Beethoven.Lib.ArrayLoops

/-!
# The simulated DMA engine

A chunk that the data server hands over is moved by the simulator, in the last part of
`tick_signals`: one AXI burst of 64-byte beats on the DMA port of the accelerator. For a move to the
accelerator the engine drives the AW channel, then the beats on the W channel, and waits for the
response; for a move from it the engine drives the AR channel and compares every beat of the R
channel with the host's copy, ending the simulation where they differ.

The data server waits for the end of a chunk by locking `dma_wait_lock` a second time; the engine
unlocks it. The IDs are only printed where they differ from what was asked for, and are left out of
the state.

Every chunk is one burst on the bus, and `Phase` says how much of it has passed. The threads
themselves are in `Beethoven.DataServer.DmaThreads`.
-/

namespace Beethoven.DataServer

open Lib (slice)

/-! ### The engine -/

/-- What the engine drives on AW or AR, apart from the ID. -/
structure Request where
  addr : UInt64
  size : ℕ
  len : UInt64
  burst : ℕ
  deriving DecidableEq, Repr

/-- What the engine drives on W. -/
structure Beat where
  data : List UInt8
  last : Bool
  deriving DecidableEq, Repr

/-- The variables `dma_*`. `dma_ptr`, `dma_fpga_addr`, `dma_len` and `dma_write` are the chunk. -/
structure DmaState where
  dmaValid : Bool
  dmaInProgress : Bool
  dmaChunk : Chunk
  dmaTxprogress : ℕ
  dmaTxlength : ℤ
  /-- `dma_wait_lock` is locked. -/
  dmaWaitLock : Bool
  deriving DecidableEq, Repr

/-- What the accelerator drives on the DMA port, and the result of `rand()`. -/
structure DmaInputs where
  awReady : Bool
  arReady : Bool
  wReady : Bool
  bValid : Bool
  rValid : Bool
  rData : ℕ → UInt8
  rand : ℕ

/-- What the engine drives on the address channels, each request with its ID. -/
structure RequestOut where
  aw : Option (Request × ℕ) := none
  ar : Option (Request × ℕ) := none
  deriving DecidableEq, Repr

/-- What the engine drives on the other channels. -/
structure DataOut where
  w : Option Beat := none
  bReady : Bool := false
  rReady : Bool := false
  deriving DecidableEq, Repr

def Chunk.request (c : Chunk) : Request := ⟨c.dmaFpgaAddr, 6, c.dmaLen / 64 - 1, 1⟩

/-- The words of beat `k` on a bus of `width` bits. -/
def Chunk.words (width : ℕ) (host : ℕ → UInt8) (c : Chunk) (k : ℕ) : List UInt8 :=
  (List.range (width / 32)).flatMap fun i => slice host (c.dmaPtr + 4 * (i + width / 32 * k)) 4

/-- The conversion to `int`. -/
@[irreducible]
def toCInt (n : ℕ) : ℤ := Int.bmod n (2 ^ 32)

theorem toCInt_of_lt {n : ℕ} (h : n < 2 ^ 31) : toCInt n = n := by
  unfold toCInt
  exact Int.bmod_eq_of_le (by omega) (by omega)

namespace DmaState

variable (width : ℕ) (host : ℕ → UInt8) (i : DmaInputs) (e : DmaState)

/-- A burst is offered, and taken if the channel fires. -/
def reset (fire : Bool) : DmaState :=
  { e with
    dmaTxprogress := 0
    dmaTxlength := toCInt (e.dmaChunk.dmaLen >>> 6).toNat
    dmaInProgress := fire }

/-- A burst is offered as long as none is in progress; the ID is drawn anew in every tick. -/
def offer : DmaState × RequestOut :=
  if e.dmaValid && !e.dmaInProgress then
    if e.dmaChunk.dmaWrite then
      (e.reset i.awReady,
        { aw := some (e.dmaChunk.request, i.rand % 16) })
    else
      (e.reset i.arReady,
        { ar := some (e.dmaChunk.request, i.rand % 16) })
  else (e, {})

/-- The end of a chunk. -/
def finish : DmaState :=
  { e with dmaValid := false, dmaInProgress := false, dmaWaitLock := false }

/-- The beats and the response of a burst; undefined where the simulation ends. -/
def move : Option (DmaState × DataOut) :=
  if e.dmaInProgress then
    if e.dmaChunk.dmaWrite then
      if (e.dmaTxprogress : ℤ) < e.dmaTxlength then
        let beat : Beat := ⟨e.dmaChunk.words width host e.dmaTxprogress,
          (e.dmaTxprogress : ℤ) + 1 = e.dmaTxlength⟩
        some (if i.wReady then { e with dmaTxprogress := e.dmaTxprogress + 1 } else e,
          { w := some beat })
      else some (if i.bValid then e.finish else e, { bReady := true })
    else if i.rValid then
      if slice i.rData 0 64 = slice host (e.dmaChunk.dmaPtr + 64 * e.dmaTxprogress) 64 then
        let e := { e with dmaTxprogress := e.dmaTxprogress + 1 }
        some (if (e.dmaTxprogress : ℤ) = e.dmaTxlength then e.finish else e, { rReady := true })
      else none
    else some (e, { rReady := true })
  else some (e, {})

/-- The last part of `tick_signals`. -/
def tick : Option (DmaState × RequestOut × DataOut) :=
  let offered := e.offer i
  (offered.1.move width host i).map fun moved => (moved.1, offered.2, moved.2)

end DmaState

/-! ### The bus -/

/-- The handshakes on the DMA port. -/
inductive DmaEvent where
  | aw (r : Request)
  | ar (r : Request)
  | w (b : Beat)
  | b
  | r (data : List UInt8)
  deriving DecidableEq, Repr

def RequestOut.handshakes (o : RequestOut) (i : DmaInputs) : List DmaEvent :=
  (if i.awReady then o.aw.toList.map fun r => .aw r.1 else []) ++
    if i.arReady then o.ar.toList.map fun r => .ar r.1 else []

def DataOut.handshakes (o : DataOut) (i : DmaInputs) : List DmaEvent :=
  (if i.wReady then o.w.toList.map .w else []) ++ (if o.bReady && i.bValid then [.b] else []) ++
    if o.rReady && i.rValid then [.r (slice i.rData 0 64)] else []

namespace Chunk

variable (width : ℕ) (host : ℕ → UInt8) (c : Chunk)

/-- The number of beats of a chunk. -/
def beats : ℕ := c.dmaLen.toNat / 64

/-- Beat `k` of a chunk on the bus. -/
def beat (k : ℕ) : DmaEvent :=
  if c.dmaWrite then .w ⟨c.words width host k, k + 1 = c.beats⟩
  else .r (slice host (c.dmaPtr + 64 * k) 64)

/-- What a chunk is on the bus, up to its first `k` beats. -/
def begun (k : ℕ) : List DmaEvent :=
  (if c.dmaWrite then .aw c.request else .ar c.request) :: (List.range k).map (c.beat width host)

/-- What a chunk is on the bus. -/
def burst : List DmaEvent :=
  c.begun width host c.beats ++ if c.dmaWrite then [.b] else []

end Chunk

/-- The data that events carry. -/
def payload (l : List DmaEvent) : List UInt8 :=
  l.flatMap fun e => match e with
    | .w b => b.data
    | .r data => data
    | _ => []

/-! ### What the engine drives -/

namespace DmaState

variable {width : ℕ} {host : ℕ → UInt8} {i : DmaInputs} {e e' : DmaState} {r : RequestOut}
  {o : DataOut}

theorem offer_of_not (h : (e.dmaValid && !e.dmaInProgress) = false) (i : DmaInputs) :
    e.offer i = (e, {}) :=
  if_neg (by simp [h])

theorem offer_write (hvalid : e.dmaValid = true) (hprogress : e.dmaInProgress = false)
    (hwrite : e.dmaChunk.dmaWrite = true) (i : DmaInputs) :
    e.offer i = (e.reset i.awReady,
      { aw := some (e.dmaChunk.request, i.rand % 16) }) := by
  rw [offer, if_pos (by simp [hvalid, hprogress]), if_pos hwrite]

theorem of_offer_aw {q : Request} {id : ℕ} (h : (e.offer i).2.aw = some (q, id)) :
    e.dmaValid = true ∧ e.dmaInProgress = false ∧ e.dmaChunk.dmaWrite = true ∧
      q = e.dmaChunk.request := by
  rw [offer] at h
  split_ifs at h with hoffer hwrite
  cases h
  simpa [hwrite] using hoffer

theorem of_offer_ar {q : Request} {id : ℕ} (h : (e.offer i).2.ar = some (q, id)) :
    e.dmaValid = true ∧ e.dmaInProgress = false ∧ e.dmaChunk.dmaWrite = false ∧
      q = e.dmaChunk.request := by
  rw [offer] at h
  split_ifs at h with hoffer hread
  cases h
  simpa [hread] using hoffer

theorem offer_read (hvalid : e.dmaValid = true) (hprogress : e.dmaInProgress = false)
    (hread : e.dmaChunk.dmaWrite = false) (i : DmaInputs) :
    e.offer i = (e.reset i.arReady,
      { ar := some (e.dmaChunk.request, i.rand % 16) }) := by
  rw [offer, if_pos (by simp [hvalid, hprogress]), if_neg (by simp [hread])]

theorem move_of_not (h : e.dmaInProgress = false) : e.move width host i = some (e, {}) :=
  if_neg (by simp [h])

/-- The beat that is offered. -/
def offered (width : ℕ) (host : ℕ → UInt8) (e : DmaState) : Beat :=
  ⟨e.dmaChunk.words width host e.dmaTxprogress, (e.dmaTxprogress : ℤ) + 1 = e.dmaTxlength⟩

theorem move_beat (hprogress : e.dmaInProgress = true) (hwrite : e.dmaChunk.dmaWrite = true)
    (hlt : (e.dmaTxprogress : ℤ) < e.dmaTxlength) :
    e.move width host i =
      some (if i.wReady then { e with dmaTxprogress := e.dmaTxprogress + 1 } else e,
        { w := some (e.offered width host) }) := by
  rw [move, if_pos hprogress, if_pos hwrite, if_pos hlt]
  rfl

theorem move_response (hprogress : e.dmaInProgress = true) (hwrite : e.dmaChunk.dmaWrite = true)
    (hle : ¬(e.dmaTxprogress : ℤ) < e.dmaTxlength) :
    e.move width host i = some (if i.bValid then e.finish else e, { bReady := true }) := by
  rw [move, if_pos hprogress, if_pos hwrite, if_neg hle]

theorem move_read (hprogress : e.dmaInProgress = true) (hread : e.dmaChunk.dmaWrite = false)
    (hvalid : i.rValid = true) (hsame : slice i.rData 0 64 =
      slice host (e.dmaChunk.dmaPtr + 64 * e.dmaTxprogress) 64) :
    e.move width host i = some
      (if (e.dmaTxprogress + 1 : ℕ) = e.dmaTxlength then
        finish { e with dmaTxprogress := e.dmaTxprogress + 1 }
      else { e with dmaTxprogress := e.dmaTxprogress + 1 }, { rReady := true }) := by
  rw [move, if_pos hprogress, if_neg (by simp [hread]), if_pos hvalid, if_pos hsame]

theorem w_of_move {b : Beat} (hmove : e.move width host i = some (e', o)) (hw : o.w = some b) :
    e.dmaInProgress = true ∧ e.dmaChunk.dmaWrite = true ∧
      (e.dmaTxprogress : ℤ) < e.dmaTxlength := by
  by_cases hprogress : e.dmaInProgress = true
  · by_cases hwrite : e.dmaChunk.dmaWrite = true
    · by_cases hlt : (e.dmaTxprogress : ℤ) < e.dmaTxlength
      · exact ⟨hprogress, hwrite, hlt⟩
      · rw [move_response hprogress hwrite hlt] at hmove
        cases hmove
        cases hw
    · rw [move, if_pos hprogress, if_neg hwrite] at hmove
      split_ifs at hmove <;> cases hmove <;> cases hw
  · rw [move_of_not (Bool.eq_false_iff.mpr hprogress)] at hmove
    cases hmove
    cases hw

theorem dmaChunk_offer (e : DmaState) (i : DmaInputs) : (e.offer i).1.dmaChunk = e.dmaChunk := by
  rw [offer]
  split_ifs <;> rfl

theorem dmaChunk_move (hmove : e.move width host i = some (e', o)) :
    e'.dmaChunk = e.dmaChunk := by
  rw [move] at hmove
  split_ifs at hmove <;> cases hmove <;> simp [apply_ite DmaState.dmaChunk, finish]

theorem tick_eq_some (htick : e.tick width host i = some (e', r, o)) :
    (e.offer i).1.move width host i = some (e', o) ∧ (e.offer i).2 = r := by
  obtain ⟨⟨e'', o'⟩, hmove, heq⟩ := Option.map_eq_some_iff.mp htick
  cases heq
  exact ⟨hmove, rfl⟩

end DmaState

/-! ### A burst after the other -/

section Bursts

variable {width : ℕ} {host : ℕ → UInt8} {c : Chunk} {k : ℕ}

theorem Chunk.begun_succ (width : ℕ) (host : ℕ → UInt8) (c : Chunk) (k : ℕ) :
    c.begun width host (k + 1) = c.begun width host k ++ [c.beat width host k] := by
  simp [begun, List.range_succ]

/-- A chunk as the data server makes them. -/
structure Chunk.Whole (c : Chunk) : Prop where
  one_le : 1 ≤ c.beats
  le : c.beats ≤ 64
  dmaLen : c.dmaLen.toNat = 64 * c.beats

theorem Chunk.whole_of_dmaLen {n : ℕ} (hone : 1 ≤ n) (hle : n ≤ 64)
    (hlen : c.dmaLen.toNat = 64 * n) : c.Whole := by
  have hbeats : c.beats = n := by
    rw [Chunk.beats, hlen]
    omega
  exact ⟨hbeats ▸ hone, hbeats ▸ hle, hbeats ▸ hlen⟩

theorem Chunk.Whole.toCInt_beats (hc : c.Whole) : toCInt (c.dmaLen >>> 6).toNat = c.beats := by
  have hshift : (c.dmaLen >>> 6).toNat = c.beats := by
    rw [UInt64.toNat_shiftRight, Nat.shiftRight_eq_div_pow]
    rfl
  have hle := hc.le
  rw [hshift, toCInt_of_lt (by omega)]

theorem Chunk.begun_isPrefix (width : ℕ) (host : ℕ → UInt8) (h : k ≤ c.beats) :
    c.begun width host k <+: c.burst width host := by
  obtain ⟨n, hn⟩ := Nat.exists_eq_add_of_le h
  have hrange : (List.range k).map (c.beat width host) <+:
      (List.range c.beats).map (c.beat width host) := by
    rw [hn, List.range_add, List.map_append]
    exact List.prefix_append ..
  exact ((List.prefix_cons_inj _).mpr hrange).trans (List.prefix_append ..)

/-- The addresses that the engine reads for a chunk. -/
def Chunk.Reads (width : ℕ) (c : Chunk) (a : ℕ) : Prop :=
  c.dmaPtr ≤ a ∧ a < c.dmaPtr + max 64 (width / 8) * c.beats

variable {host' : ℕ → UInt8}

theorem Chunk.words_congr (hsame : ∀ a, c.Reads width a → host' a = host a) (hk : k < c.beats) :
    c.words width host' k = c.words width host k := by
  refine List.flatMap_congr fun i hi => Lib.slice_eq_iff.mpr fun j hj => hsame _ ⟨by omega, ?_⟩
  have hword : i + width / 32 * k + 1 ≤ width / 32 * c.beats :=
    calc i + width / 32 * k + 1 ≤ width / 32 * k + width / 32 := by
          have := List.mem_range.mp hi
          omega
      _ = width / 32 * (k + 1) := (Nat.mul_succ ..).symm
      _ ≤ width / 32 * c.beats := Nat.mul_le_mul_left _ hk
  have hwidth : 4 * (width / 32 * c.beats) ≤ max 64 (width / 8) * c.beats := by
    rw [← Nat.mul_assoc]
    exact Nat.mul_le_mul_right _ (by omega)
  omega

theorem Chunk.beat_congr (hsame : ∀ a, c.Reads width a → host' a = host a) (hk : k < c.beats) :
    c.beat width host' k = c.beat width host k := by
  have hread : slice host' (c.dmaPtr + 64 * k) 64 = slice host (c.dmaPtr + 64 * k) 64 := by
    refine Lib.slice_eq_iff.mpr fun j hj => hsame _ ⟨by omega, ?_⟩
    have hmax : 64 * c.beats ≤ max 64 (width / 8) * c.beats :=
      Nat.mul_le_mul_right _ (le_max_left ..)
    omega
  rw [Chunk.beat, Chunk.words_congr hsame hk, hread, Chunk.beat]

theorem Chunk.begun_congr (hsame : ∀ a, c.Reads width a → host' a = host a) (hk : k ≤ c.beats) :
    c.begun width host' k = c.begun width host k := by
  refine congrArg (List.cons _) (List.map_congr_left fun j hj => ?_)
  exact Chunk.beat_congr hsame ((List.mem_range.mp hj).trans_le hk)

theorem Chunk.burst_congr (hsame : ∀ a, c.Reads width a → host' a = host a) :
    c.burst width host' = c.burst width host := by
  rw [Chunk.burst, Chunk.begun_congr hsame le_rfl, Chunk.burst]

/-- The burst of the chunk is in progress, after what has passed before. -/
structure Moving (width : ℕ) (host : ℕ → UInt8) (before all : List DmaEvent) (e : DmaState)
    (log : List DmaEvent) : Prop where
  valid : e.dmaValid = true
  inProgress : e.dmaInProgress = true
  locked : e.dmaWaitLock = true
  all_eq : all = before ++ e.dmaChunk.burst width host
  length : e.dmaTxlength = e.dmaChunk.beats
  progress_le : e.dmaTxprogress ≤ e.dmaChunk.beats
  log_eq : log = before ++ e.dmaChunk.begun width host e.dmaTxprogress

/-- Where the engine is: `waiting` tells whether the data server waits for it, `log` is what has
passed on the bus, and `all` what will have passed once the chunk that was handed over is moved. -/
inductive Phase (width : ℕ) (host : ℕ → UInt8) (waiting : Bool) (all : List DmaEvent)
    (e : DmaState) (log : List DmaEvent) : Prop
  /-- Nothing is handed over. -/
  | idle (hwaiting : waiting = false) (hvalid : e.dmaValid = false)
      (hprogress : e.dmaInProgress = false) (hlock : e.dmaWaitLock = true) (hlog : log = all)
  /-- A chunk is handed over and its burst is offered. -/
  | handed (hwaiting : waiting = true) (hvalid : e.dmaValid = true)
      (hprogress : e.dmaInProgress = false) (hlock : e.dmaWaitLock = true)
      (hwhole : e.dmaChunk.Whole) (hall : all = log ++ e.dmaChunk.burst width host)
  /-- The burst is in progress; a write awaits its response after the last beat. -/
  | moving (before : List DmaEvent) (hwaiting : waiting = true)
      (hmoving : Moving width host before all e log)
      (hopen : e.dmaTxprogress < e.dmaChunk.beats ∨ e.dmaChunk.dmaWrite = true)
  /-- The chunk is moved and the data server has not seen it. -/
  | moved (hwaiting : waiting = true) (hvalid : e.dmaValid = false)
      (hprogress : e.dmaInProgress = false) (hlock : e.dmaWaitLock = false) (hlog : log = all)

variable {waiting : Bool} {before all log : List DmaEvent} {e e' : DmaState} {i : DmaInputs}

theorem Moving.beat (h : Moving width host before all e log)
    (hlt : e.dmaTxprogress < e.dmaChunk.beats) :
    Moving width host before all { e with dmaTxprogress := e.dmaTxprogress + 1 }
      (log ++ [e.dmaChunk.beat width host e.dmaTxprogress]) := by
  refine ⟨h.valid, h.inProgress, h.locked, h.all_eq, h.length, hlt, ?_⟩
  rw [h.log_eq, List.append_assoc, ← Chunk.begun_succ]

theorem Moving.finish (h : Moving width host before all e log)
    (hlast : e.dmaTxprogress = e.dmaChunk.beats) :
    Phase width host true all e.finish (log ++ if e.dmaChunk.dmaWrite then [.b] else []) := by
  refine .moved rfl rfl rfl rfl ?_
  rw [h.log_eq, h.all_eq, hlast, Chunk.burst, List.append_assoc]

theorem Phase.offered (hwhole : e.dmaChunk.Whole) (hvalid : e.dmaValid = true)
    (hlock : e.dmaWaitLock = true) (hall : all = log ++ e.dmaChunk.burst width host)
    (fire : Bool) :
    Phase width host true all (e.reset fire)
      (log ++ if fire then e.dmaChunk.begun width host 0 else []) := by
  cases fire with
  | true =>
    exact .moving log rfl ⟨hvalid, rfl, hlock, hall, hwhole.toCInt_beats, Nat.zero_le _, rfl⟩
      (.inl hwhole.one_le)
  | false =>
    refine .handed rfl hvalid rfl hlock hwhole ?_
    rw [if_neg Bool.false_ne_true, List.append_nil]
    exact hall

/-- **The offer of a burst.** -/
theorem Phase.offer (h : Phase width host waiting all e log) (i : DmaInputs) :
    Phase width host waiting all (e.offer i).1 (log ++ (e.offer i).2.handshakes i) := by
  -- nothing is offered outside of the phase after the handing over
  have hstay (hno : (e.dmaValid && !e.dmaInProgress) = false) :
      Phase width host waiting all (e.offer i).1 (log ++ (e.offer i).2.handshakes i) := by
    rw [DmaState.offer_of_not hno]
    simpa [RequestOut.handshakes] using h
  cases h with
  | idle hwaiting hvalid hprogress hlock hlog | moved hwaiting hvalid hprogress hlock hlog =>
    exact hstay (by simp [hvalid])
  | moving before hwaiting hmoving hopen => exact hstay (by simp [hmoving.inProgress])
  | handed hwaiting hvalid hprogress hlock hwhole hall =>
    subst hwaiting
    cases hwrite : e.dmaChunk.dmaWrite with
    | true =>
      have hphase := Phase.offered hwhole hvalid hlock hall i.awReady
      rw [DmaState.offer_write hvalid hprogress hwrite]
      simpa [RequestOut.handshakes, Chunk.begun, hwrite] using hphase
    | false =>
      have hphase := Phase.offered hwhole hvalid hlock hall i.arReady
      rw [DmaState.offer_read hvalid hprogress hwrite]
      simpa [RequestOut.handshakes, Chunk.begun, hwrite] using hphase

theorem Moving.moveWrite {o : DataOut} (h : Moving width host before all e log)
    (hwrite : e.dmaChunk.dmaWrite = true) (hmove : e.move width host i = some (e', o)) :
    Phase width host true all e' (log ++ o.handshakes i) := by
  have hlength := h.length
  have hle := h.progress_le
  by_cases hlt : (e.dmaTxprogress : ℤ) < e.dmaTxlength
  · rw [DmaState.move_beat h.inProgress hwrite hlt] at hmove
    cases hmove
    cases hready : i.wReady with
    | true =>
      have hlast : ((e.dmaTxprogress : ℤ) + 1 = e.dmaTxlength) ↔
          e.dmaTxprogress + 1 = e.dmaChunk.beats := by omega
      have hbeat : DataOut.handshakes { w := some (e.offered width host) } i =
          [e.dmaChunk.beat width host e.dmaTxprogress] := by
        simp [DataOut.handshakes, hready, Chunk.beat, hwrite, DmaState.offered, hlast]
      rw [hbeat]
      exact .moving before rfl (h.beat (by omega)) (.inr hwrite)
    | false =>
      exact .moving before rfl (by simpa [DataOut.handshakes, hready] using h) (.inr hwrite)
  · rw [DmaState.move_response h.inProgress hwrite hlt] at hmove
    cases hmove
    cases hvalid : i.bValid with
    | true =>
      have hfinish := h.finish (by omega)
      rw [if_pos hwrite] at hfinish
      simpa [DataOut.handshakes, hvalid] using hfinish
    | false =>
      exact .moving before rfl (by simpa [DataOut.handshakes, hvalid] using h) (.inr hwrite)

theorem Moving.moveRead {o : DataOut} (h : Moving width host before all e log)
    (hread : e.dmaChunk.dmaWrite = false) (hlt : e.dmaTxprogress < e.dmaChunk.beats)
    (hmove : e.move width host i = some (e', o)) :
    Phase width host true all e' (log ++ o.handshakes i) := by
  have hlength := h.length
  rw [DmaState.move, if_pos h.inProgress, if_neg (by simp [hread])] at hmove
  split_ifs at hmove with hvalid hsame
  · cases hmove
    have hshake : DataOut.handshakes { rReady := true } i =
        [e.dmaChunk.beat width host e.dmaTxprogress] := by
      simp [DataOut.handshakes, hvalid, Chunk.beat, hread, hsame]
    have hbeat := h.beat hlt
    rw [hshake]
    dsimp only
    split_ifs with hlast
    · have hfinish := hbeat.finish (by dsimp only; omega)
      dsimp only at hfinish
      rwa [hread, if_neg Bool.false_ne_true, List.append_nil] at hfinish
    · refine .moving before rfl hbeat (.inl ?_)
      dsimp only
      omega
  · cases hmove
    exact .moving before rfl (by simpa [DataOut.handshakes, hvalid] using h) (.inl hlt)

/-- **A beat or the response of a burst.** -/
theorem Phase.move {o : DataOut} (h : Phase width host waiting all e log)
    (hmove : e.move width host i = some (e', o)) :
    Phase width host waiting all e' (log ++ o.handshakes i) := by
  have hstay (hno : e.dmaInProgress = false) :
      Phase width host waiting all e' (log ++ o.handshakes i) := by
    rw [DmaState.move_of_not hno] at hmove
    cases hmove
    simpa [DataOut.handshakes] using h
  cases h with
  | idle hwaiting hvalid hprogress hlock hlog => exact hstay hprogress
  | moved hwaiting hvalid hprogress hlock hlog => exact hstay hprogress
  | handed hwaiting hvalid hprogress hlock hwhole hall => exact hstay hprogress
  | moving before hwaiting hmoving hopen =>
    subst hwaiting
    cases hwrite : e.dmaChunk.dmaWrite with
    | true => exact hmoving.moveWrite hwrite hmove
    | false => exact hmoving.moveRead hwrite (by simpa [hwrite] using hopen) hmove

/-- **A tick of the engine.** -/
theorem Phase.tick {r : RequestOut} {o : DataOut} (h : Phase width host waiting all e log)
    (htick : e.tick width host i = some (e', r, o)) :
    Phase width host waiting all e' (log ++ (r.handshakes i ++ o.handshakes i)) := by
  obtain ⟨hmove, rfl⟩ := DmaState.tick_eq_some htick
  rw [← List.append_assoc]
  exact (h.offer i).move hmove

theorem Phase.isPrefix (h : Phase width host waiting all e log) : log <+: all := by
  cases h with
  | idle hwaiting hvalid hprogress hlock hlog => exact hlog ▸ List.prefix_rfl
  | moved hwaiting hvalid hprogress hlock hlog => exact hlog ▸ List.prefix_rfl
  | handed hwaiting hvalid hprogress hlock hwhole hall => exact hall ▸ List.prefix_append ..
  | moving before hwaiting hmoving hopen =>
    rw [hmoving.log_eq, hmoving.all_eq]
    exact (List.prefix_append_right_inj _).mpr (Chunk.begun_isPrefix width host hmoving.progress_le)

/-- Where the data server does not wait, the engine is idle. -/
theorem Phase.idle_of_not_waiting (h : Phase width host false all e log) :
    e.dmaWaitLock = true ∧ log = all := by
  cases h with
  | idle hwaiting hvalid hprogress hlock hlog => exact ⟨hlock, hlog⟩
  | handed hwaiting => cases hwaiting
  | moving before hwaiting => cases hwaiting
  | moved hwaiting => cases hwaiting

theorem Phase.host_congr (h : Phase width host waiting all e log)
    (hsame : waiting = true → ∀ a, e.dmaChunk.Reads width a → host' a = host a) :
    Phase width host' waiting all e log := by
  cases h with
  | idle hwaiting hvalid hprogress hlock hlog => exact .idle hwaiting hvalid hprogress hlock hlog
  | moved hwaiting hvalid hprogress hlock hlog => exact .moved hwaiting hvalid hprogress hlock hlog
  | handed hwaiting hvalid hprogress hlock hwhole hall =>
    refine .handed hwaiting hvalid hprogress hlock hwhole ?_
    rw [hall, Chunk.burst_congr (hsame hwaiting)]
  | moving before hwaiting hmoving hopen =>
    refine .moving before hwaiting ⟨hmoving.valid, hmoving.inProgress, hmoving.locked, ?_,
      hmoving.length, hmoving.progress_le, ?_⟩ hopen
    · rw [hmoving.all_eq, Chunk.burst_congr (hsame hwaiting)]
    · rw [hmoving.log_eq, Chunk.begun_congr (hsame hwaiting) hmoving.progress_le]

/-- Whatever is written, the engine is in the same phase of the burst that it then reads. -/
theorem Phase.exists_of_host (h : Phase width host waiting all e log) (host' : ℕ → UInt8) :
    ∃ all' log', Phase width host' waiting all' e log' := by
  cases h with
  | idle hwaiting hvalid hprogress hlock =>
    exact ⟨[], [], .idle hwaiting hvalid hprogress hlock rfl⟩
  | moved hwaiting hvalid hprogress hlock =>
    exact ⟨[], [], .moved hwaiting hvalid hprogress hlock rfl⟩
  | handed hwaiting hvalid hprogress hlock hwhole =>
    exact ⟨_, [], .handed hwaiting hvalid hprogress hlock hwhole rfl⟩
  | moving before hwaiting hmoving hopen =>
    exact ⟨_, _, .moving [] hwaiting ⟨hmoving.valid, hmoving.inProgress, hmoving.locked, rfl,
      hmoving.length, hmoving.progress_le, rfl⟩ hopen⟩

/-- **The next chunk is handed over** where the data server does not wait. -/
theorem Phase.handOver (h : Phase width host false all e log) (hc : c.Whole) :
    Phase width host true (all ++ c.burst width host)
      { e with dmaChunk := c, dmaValid := true, dmaInProgress := false } log := by
  obtain ⟨hlock, rfl⟩ := h.idle_of_not_waiting
  exact .handed rfl rfl rfl hlock hc rfl

/-- **The data server goes on** where the chunk is moved. -/
theorem Phase.resume (h : Phase width host true all e log) (hlock : e.dmaWaitLock = false) :
    Phase width host false all { e with dmaWaitLock := true } log := by
  cases h with
  | idle hwaiting => cases hwaiting
  | handed hwaiting hvalid hprogress hlocked => exact absurd hlock (by simp [hlocked])
  | moving before hwaiting hmoving => exact absurd hlock (by simp [hmoving.locked])
  | moved hwaiting hvalid hprogress _ hlog => exact .idle rfl hvalid hprogress rfl hlog

theorem Phase.locked_of_valid (h : Phase width host waiting all e log)
    (hvalid : e.dmaValid = true) : waiting = true ∧ e.dmaWaitLock = true := by
  cases h with
  | idle hwaiting hnot => exact absurd hvalid (by simp [hnot])
  | handed hwaiting _ hprogress hlock => exact ⟨hwaiting, hlock⟩
  | moving before hwaiting hmoving => exact ⟨hwaiting, hmoving.locked⟩
  | moved hwaiting hnot => exact absurd hvalid (by simp [hnot])

theorem Phase.unlocked_of_not_valid (h : Phase width host true all e log)
    (hvalid : e.dmaValid = false) : e.dmaWaitLock = false := by
  cases h with
  | idle hwaiting => cases hwaiting
  | handed hwaiting hv => exact absurd hv (by simp [hvalid])
  | moving before hwaiting hmoving => exact absurd hmoving.valid (by simp [hvalid])
  | moved hwaiting _ _ hlock => exact hlock

theorem Phase.valid_of_inProgress (h : Phase width host waiting all e log)
    (hprogress : e.dmaInProgress = true) : e.dmaValid = true := by
  cases h with
  | idle hwaiting _ hnot => exact absurd hprogress (by simp [hnot])
  | handed hwaiting hvalid => exact hvalid
  | moving before hwaiting hmoving => exact hmoving.valid
  | moved hwaiting _ hnot => exact absurd hprogress (by simp [hnot])

theorem Phase.length_of_inProgress (h : Phase width host waiting all e log)
    (hprogress : e.dmaInProgress = true) : e.dmaTxlength = e.dmaChunk.beats := by
  cases h with
  | idle hwaiting _ hnot => exact absurd hprogress (by simp [hnot])
  | handed hwaiting _ hnot => exact absurd hprogress (by simp [hnot])
  | moving before hwaiting hmoving => exact hmoving.length
  | moved hwaiting _ hnot => exact absurd hprogress (by simp [hnot])

end Bursts

/-! ### A burst can end -/

/-- What is left to do of a chunk that is handed over. -/
def DmaState.remaining (e : DmaState) : ℕ :=
  if e.dmaValid then
    if e.dmaInProgress then e.dmaChunk.beats - e.dmaTxprogress + 2 else e.dmaChunk.beats + 3
  else 1

section Progress

variable {width : ℕ} {host : ℕ → UInt8} {before all log : List DmaEvent} {e : DmaState}

/-- The accelerator takes the burst that is offered and nothing else. -/
def DmaInputs.takeRequest : DmaInputs :=
  { awReady := true, arReady := true, wReady := false, bValid := false, rValid := false
    rData := fun _ => 0, rand := 0 }

/-- The accelerator takes a beat and gives what it is asked for, which is at `addr` of the host. -/
def DmaInputs.serve (host : ℕ → UInt8) (addr : ℕ) : DmaInputs :=
  { awReady := true, arReady := true, wReady := true, bValid := true, rValid := true
    rData := fun j => host (addr + j), rand := 0 }

theorem slice_serve (host : ℕ → UInt8) (addr n : ℕ) :
    slice (DmaInputs.serve host addr).rData 0 n = slice host addr n := by
  simp [slice, DmaInputs.serve]

theorem DmaState.exists_move_takeRequest (width : ℕ) (host : ℕ → UInt8) (e : DmaState) :
    ∃ o, e.move width host .takeRequest = some (e, o) := by
  simp only [DmaState.move, DmaInputs.takeRequest, Bool.false_eq_true, if_false]
  split_ifs <;> exact ⟨_, rfl⟩

/-- A burst in progress advances when the accelerator answers. -/
theorem Moving.exists_move (h : Moving width host before all e log)
    (hopen : e.dmaTxprogress < e.dmaChunk.beats ∨ e.dmaChunk.dmaWrite = true) :
    ∃ i e' o, e.move width host i = some (e', o) ∧ e'.remaining < e.remaining := by
  have hlength := h.length
  have hremaining : e.remaining = e.dmaChunk.beats - e.dmaTxprogress + 2 := by
    rw [DmaState.remaining, if_pos h.valid, if_pos h.inProgress]
  have hfinish (e : DmaState) : e.finish.remaining = 1 := rfl
  have hnext (hlt : e.dmaTxprogress < e.dmaChunk.beats) :
      DmaState.remaining { e with dmaTxprogress := e.dmaTxprogress + 1 } < e.remaining := by
    rw [hremaining, DmaState.remaining, if_pos h.valid, if_pos h.inProgress]
    dsimp only
    omega
  refine ⟨.serve host (e.dmaChunk.dmaPtr + 64 * e.dmaTxprogress), ?_⟩
  cases hwrite : e.dmaChunk.dmaWrite with
  | true =>
    by_cases hlt : (e.dmaTxprogress : ℤ) < e.dmaTxlength
    · exact ⟨_, _, DmaState.move_beat h.inProgress hwrite hlt, hnext (by omega)⟩
    · refine ⟨_, _, DmaState.move_response h.inProgress hwrite hlt, ?_⟩
      rw [hremaining]
      exact (hfinish e).trans_lt (by omega)
  | false =>
    have hlt : e.dmaTxprogress < e.dmaChunk.beats := by simpa [hwrite] using hopen
    refine ⟨_, _, DmaState.move_read h.inProgress hwrite rfl (slice_serve ..), ?_⟩
    split_ifs
    · rw [hfinish, hremaining]
      omega
    · exact hnext hlt

/-- **A chunk that is handed over advances** when the accelerator answers. -/
theorem Phase.exists_tick (h : Phase width host true all e log) (hvalid : e.dmaValid = true) :
    ∃ i e' r o, e.tick width host i = some (e', r, o) ∧ e'.remaining < e.remaining := by
  cases h with
  | idle hwaiting => cases hwaiting
  | moved hwaiting hnot => exact absurd hvalid (by simp [hnot])
  | moving before hwaiting hmoving hopen =>
    obtain ⟨i, e', o, hmove, hlt⟩ := hmoving.exists_move hopen
    refine ⟨i, e', {}, o, ?_, hlt⟩
    rw [DmaState.tick, DmaState.offer_of_not (by simp [hmoving.inProgress]), hmove]
    rfl
  | handed hwaiting _ hprogress hlock hwhole hall =>
    have hremaining : e.remaining = e.dmaChunk.beats + 3 := by
      rw [DmaState.remaining, if_pos hvalid, if_neg (by simp [hprogress])]
    have hbegun : (e.reset true).remaining < e.remaining := by
      rw [hremaining, DmaState.remaining, DmaState.reset, if_pos hvalid, if_pos rfl]
      exact Nat.lt_succ_self _
    obtain ⟨o, hmove⟩ :=
      DmaState.exists_move_takeRequest width host (e.reset true)
    have hoffer : (e.offer .takeRequest).1 = e.reset true := by
      cases hwrite : e.dmaChunk.dmaWrite with
      | true => rw [DmaState.offer_write hvalid hprogress hwrite]; rfl
      | false => rw [DmaState.offer_read hvalid hprogress hwrite]; rfl
    refine ⟨.takeRequest, e.reset true, (e.offer .takeRequest).2, o, ?_, hbegun⟩
    change ((e.offer .takeRequest).1.move width host .takeRequest).map _ = _
    rw [hoffer, hmove]
    rfl

end Progress

/-! ### The bytes of a transfer -/

section Bytes

variable {c : Chunk}

/-- The bytes of a list of chunks, as the accelerator addresses them. -/
def fpgaLen (l : List Chunk) : UInt64 := (l.map fun c => c.dmaLen).sum

theorem consecutive_concat {dmaWrite : Bool} {ptr : ℕ} {fpgaAddr : UInt64} {l : List Chunk}
    (h : Consecutive dmaWrite ptr fpgaAddr l) (hptr : c.dmaPtr = ptr + totalLen l)
    (haddr : c.dmaFpgaAddr = fpgaAddr + fpgaLen l) (hwrite : c.dmaWrite = dmaWrite)
    (hlen : ∃ n, 1 ≤ n ∧ n ≤ 64 ∧ c.dmaLen.toNat = 64 * n) :
    Consecutive dmaWrite ptr fpgaAddr (l ++ [c]) := by
  induction l generalizing ptr fpgaAddr with
  | nil =>
    exact ⟨by simpa [totalLen] using hptr, by simpa [fpgaLen] using haddr, hwrite, hlen, trivial⟩
  | cons d l ih =>
    obtain ⟨hptr', haddr', hwrite', hlen', hrest⟩ := h
    refine ⟨hptr', haddr', hwrite', hlen', ih hrest ?_ ?_⟩
    · rw [hptr, totalLen, List.map_cons, List.sum_cons, ← totalLen, Nat.add_assoc]
    · rw [haddr, fpgaLen, List.map_cons, List.sum_cons, ← fpgaLen, UInt64.add_assoc]

theorem within_of_consecutive {dmaWrite : Bool} {ptr : ℕ} {fpgaAddr : UInt64} {l : List Chunk}
    (h : Consecutive dmaWrite ptr fpgaAddr l) :
    ∀ c ∈ l, ptr ≤ c.dmaPtr ∧ c.dmaPtr + c.dmaLen.toNat ≤ ptr + totalLen l := by
  induction l generalizing ptr fpgaAddr with
  | nil => exact fun c hc => absurd hc List.not_mem_nil
  | cons d l ih =>
    obtain ⟨hptr, -, -, -, hrest⟩ := h
    have htotal : totalLen (d :: l) = d.dmaLen.toNat + totalLen l := rfl
    intro c hc
    rcases List.mem_cons.mp hc with rfl | hc
    · omega
    · have hwithin := ih hrest c hc
      omega

theorem whole_of_consecutive {dmaWrite : Bool} {ptr : ℕ} {fpgaAddr : UInt64} {l : List Chunk}
    (h : Consecutive dmaWrite ptr fpgaAddr l) : ∀ c ∈ l, c.Whole := by
  induction l generalizing ptr fpgaAddr with
  | nil => exact fun c hc => absurd hc List.not_mem_nil
  | cons d l ih =>
    obtain ⟨-, -, -, ⟨n, hone, hle, hlen⟩, hrest⟩ := h
    intro c hc
    rcases List.mem_cons.mp hc with rfl | hc
    · exact Chunk.whole_of_dmaLen hone hle hlen
    · exact ih hrest c hc

/-- The words of a beat on a bus of 512 bits are 64 consecutive bytes. -/
theorem Chunk.words_512 (host : ℕ → UInt8) (c : Chunk) (k : ℕ) :
    c.words 512 host k = slice host (c.dmaPtr + 64 * k) 64 := by
  rw [← Lib.flatMap_slice host (c.dmaPtr + 64 * k) 4 16]
  refine List.flatMap_congr fun i _ => ?_
  congr 1
  omega

theorem payload_append (l l' : List DmaEvent) : payload (l ++ l') = payload l ++ payload l' :=
  List.flatMap_append ..

/-- **A burst carries its chunk.** -/
theorem Chunk.Whole.payload_burst (hc : c.Whole) (host : ℕ → UInt8) :
    payload (c.burst 512 host) = slice host c.dmaPtr c.dmaLen.toNat := by
  have hbeat (k : ℕ) : payload [c.beat 512 host k] = slice host (c.dmaPtr + 64 * k) 64 := by
    rw [Chunk.beat]
    split_ifs
    · simp [payload, Chunk.words_512]
    · simp [payload]
  have hbeats : payload ((List.range c.beats).map (c.beat 512 host)) =
      slice host c.dmaPtr (64 * c.beats) := by
    rw [payload, List.flatMap_map, ← Lib.flatMap_slice]
    refine List.flatMap_congr fun k _ => ?_
    rw [← hbeat k, payload, List.flatMap_singleton]
  rw [Chunk.burst, Chunk.begun, hc.dmaLen, ← hbeats]
  split_ifs <;> simp [payload]

/-- **Consecutive chunks carry one slice.** -/
theorem payload_flatMap_burst {dmaWrite : Bool} {ptr : ℕ} {fpgaAddr : UInt64} {l : List Chunk}
    (h : Consecutive dmaWrite ptr fpgaAddr l) (host : ℕ → UInt8) :
    payload (l.flatMap (Chunk.burst 512 host)) = slice host ptr (totalLen l) := by
  induction l generalizing ptr fpgaAddr with
  | nil => rfl
  | cons c l ih =>
    have hc : c.Whole := whole_of_consecutive h c List.mem_cons_self
    obtain ⟨hptr, -, -, -, hrest⟩ := h
    rw [List.flatMap_cons, payload_append, hc.payload_burst, hptr, ih hrest, Lib.slice_append]
    rfl

end Bytes

end Beethoven.DataServer
