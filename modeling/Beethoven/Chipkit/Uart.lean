import Beethoven.Lib.Clocked

/-!
# The serial line of the simulated chip

A model of `ChipkitControlIntf` in `state_machine.h`. At every tick of the clock the interface sends
a bit of its input stream on the line `rxd` of the chip and samples the line `txd` of the chip. A
bit takes `baud_div` ticks. The two directions have their own states and counters; the tick runs
the one after the other.

The program may append bytes to the input stream before any tick, and the chip may change `txd`.
-/

namespace Beethoven.Chipkit

/-! ### The baud rate -/

/-- `baud_table`. -/
def baudTable : List ℕ := [1302, 217, 108, 54, 27, 22, 20, 19, 16, 15, 10, 8, 6, 5, 4, 2]

/-- `set_baud`, with the value of `baud_div` after it. The assertion excludes the last entry; a flag
that is not a number of an entry has no defined result. -/
def setBaud (baudFlag : ℕ) : Option ℕ :=
  if baudFlag = 15 then none else baudTable[baudFlag]?.map (· * 4)

/-- All baud rates that can be set have at least sixteen ticks for a bit. -/
theorem setBaud_ge {flag d : ℕ} (h : setBaud flag = some d) : 16 ≤ d := by
  have hlt : flag < 15 := by
    by_contra hge
    rcases Nat.eq_or_lt_of_le (Nat.not_lt.mp hge) with rfl | hgt
    · simp [setBaud] at h
    · simp [setBaud, baudTable, Nat.succ_le_of_lt hgt] at h
  have hall : ∀ flag < 15, ∀ d ∈ setBaud flag, 16 ≤ d := by decide
  exact hall flag hlt d h

/-! ### Bits -/

/-- The bit of a byte at a place. -/
def bit (b : UInt8) (i : ℕ) : UInt8 := (b &&& (1 <<< UInt8.ofNat i)) >>> UInt8.ofNat i

/-- A byte with a bit replaced by a bit of another one. -/
def copyBit (target : UInt8) (targetIdx : ℕ) (src : UInt8) (srcIdx : ℕ) : UInt8 :=
  (target &&& ~~~(1 <<< UInt8.ofNat targetIdx)) ||| (bit src srcIdx <<< UInt8.ofNat targetIdx)

/-- The method `set`, which writes to a line. -/
def set (target : UInt8) (targetIdx : ℕ) (src : UInt8) (srcIdx : ℕ) : UInt8 :=
  copyBit target targetIdx src srcIdx

/-- The method `set_u`, which reads a line. -/
def setU (target : UInt8) (targetIdx : ℕ) (src : UInt8) (srcIdx : ℕ) : UInt8 :=
  copyBit target targetIdx src srcIdx

theorem forall_byte {p : UInt8 → Prop} (h : ∀ n : Fin 256, p (.ofNat n)) (b : UInt8) : p b := by
  have hb := h ⟨b.toNat, b.toNat_lt⟩
  rwa [UInt8.ofNat_toNat] at hb

theorem bit_eq_zero_or_one (b : UInt8) {i : ℕ} (hi : i < 8) : bit b i = 0 ∨ bit b i = 1 := by
  have hall : ∀ b, ∀ i < 8, bit b i = 0 ∨ bit b i = 1 := forall_byte (by decide +kernel)
  exact hall b i hi

theorem set_zero {r : UInt8} (hr : r = 0 ∨ r = 1) (b : UInt8) (i : ℕ) :
    set r 0 b i = bit b i := by
  rcases hr with rfl | rfl <;> simp [set, copyBit]

/-! ### The interface -/

/-- `uart_state_t`. -/
inductive UartState
  | idle | startBaud | start | bits | bitsBaud | stop
  deriving DecidableEq, Repr

/-- The members of the interface that send. -/
structure Transmitter where
  rxd : UInt8
  inState : UartState
  baudCountIn : ℕ
  inByteProgress : ℕ
  inStream : List UInt8
  inEnable : Bool
  deriving DecidableEq, Repr

/-- The members of the interface that receive. -/
structure Receiver where
  txd : UInt8
  outByte : UInt8
  outState : UartState
  baudCountOut : ℕ
  outByteProgress : ℕ
  outStream : List UInt8
  outEnable : Bool
  deriving DecidableEq, Repr

/-- `in_stream.front()`. It is evaluated within a frame only, where the stream is not empty. -/
def front (stream : List UInt8) : UInt8 := stream.headD 0

/-- The first half of `tick`, with `d` for `baud_div`. -/
def Transmitter.tick (d : ℕ) (u : Transmitter) : Transmitter :=
  match u.inState with
  | .idle =>
    if u.inStream ≠ [] ∧ u.inEnable then
      { u with rxd := 0, inByteProgress := 0, inState := .start, baudCountIn := u.baudCountIn + 1 }
    else { u with rxd := 1 }
  | .start =>
    if u.baudCountIn + 1 = d then
      { u with
        rxd := set u.rxd 0 (front u.inStream) u.inByteProgress
        inByteProgress := u.inByteProgress + 1
        baudCountIn := 0
        inState := .bitsBaud }
    else { u with baudCountIn := u.baudCountIn + 1 }
  | .bits =>
    let u : Transmitter :=
      { u with
        rxd := set u.rxd 0 (front u.inStream) u.inByteProgress
        inByteProgress := u.inByteProgress + 1
        baudCountIn := 0 }
    if 1 < d then { u with inState := .bitsBaud }
    else if u.inByteProgress = 8 then
      { u with inState := .stop, inStream := u.inStream.tail, baudCountIn := 0 }
    else { u with inState := .bits }
  | .bitsBaud =>
    if u.baudCountIn + 1 = d then
      if u.inByteProgress = 8 then
        { u with inState := .stop, inStream := u.inStream.tail, baudCountIn := 0 }
      else { u with inState := .bits, baudCountIn := 0 }
    else { u with baudCountIn := u.baudCountIn + 1 }
  | .stop =>
    if u.baudCountIn + 1 = 2 * d then { u with rxd := 1, inState := .idle, baudCountIn := 0 }
    else { u with rxd := 1, baudCountIn := u.baudCountIn + 1 }
  -- the state is of the other direction
  | .startBaud => u

/-- The second half of `tick`. -/
def Receiver.tick (d : ℕ) (u : Receiver) : Receiver :=
  match u.outState with
  | .idle =>
    if u.txd = 0 ∧ u.outEnable then
      if d = 1 then { u with outByte := 0, outState := .bits, outByteProgress := 0 }
      else { u with outByte := 0, baudCountOut := 1, outState := .startBaud }
    else u
  | .startBaud =>
    if u.baudCountOut + 1 = d then
      { u with outState := .bits, outByteProgress := 0, baudCountOut := 0 }
    else { u with baudCountOut := u.baudCountOut + 1 }
  | .bits =>
    let u : Receiver :=
      { u with
        outByte := setU u.outByte u.outByteProgress u.txd 0
        outByteProgress := u.outByteProgress + 1 }
    if d = 1 then
      if u.outByteProgress = 8 then { u with baudCountOut := 0, outState := .stop } else u
    else { u with baudCountOut := 1, outState := .bitsBaud }
  | .bitsBaud =>
    -- the counter is reset in both cases
    if u.baudCountOut + 1 = d then
      if u.outByteProgress = 8 then { u with baudCountOut := 0, outState := .stop }
      else { u with baudCountOut := 0, outState := .bits }
    else { u with baudCountOut := 0 }
  | .stop =>
    if u.baudCountOut + 1 = 2 * d then
      { u with
        baudCountOut := u.baudCountOut + 1
        outState := .idle
        outStream := u.outStream ++ [u.outByte]
        outByte := 0 }
    else { u with baudCountOut := u.baudCountOut + 1 }
  -- the state is of the other direction
  | .start => u

/-- `ChipkitControlIntf`, with its members grouped by direction. -/
structure ChipkitControlIntf where
  transmitter : Transmitter
  receiver : Receiver
  deriving DecidableEq, Repr

/-- `tick`. The two halves have no member in common. -/
def ChipkitControlIntf.tick (d : ℕ) (u : ChipkitControlIntf) : ChipkitControlIntf :=
  ⟨u.transmitter.tick d, u.receiver.tick d⟩

/-- What happens before a tick: the bytes that the program appends to the input stream, and the
value that the chip gives `txd`. -/
structure Input where
  pushed : List UInt8
  txd : UInt8
  deriving DecidableEq, Repr

def Transmitter.step (d : ℕ) (u : Transmitter) (pushed : List UInt8) : Transmitter :=
  { u with inStream := u.inStream ++ pushed }.tick d

def Receiver.step (d : ℕ) (u : Receiver) (txd : UInt8) : Receiver :=
  { u with txd := txd }.tick d

def ChipkitControlIntf.step (d : ℕ) (u : ChipkitControlIntf) (i : Input) : ChipkitControlIntf :=
  ChipkitControlIntf.tick d
    ⟨{ u.transmitter with inStream := u.transmitter.inStream ++ i.pushed },
      { u.receiver with txd := i.txd }⟩

/-- The interface as it is constructed, on lines with any values, with the bytes that the program
puts in its input stream and with the program's choice for `out_enable`. -/
def ChipkitControlIntf.new (rxd txd : UInt8) (bytes : List UInt8) (outEnable : Bool) :
    ChipkitControlIntf :=
  ⟨⟨rxd, .idle, 0, 0, bytes, true⟩, ⟨txd, 0, .idle, 0, 0, [], outEnable⟩⟩

theorem foldl_step_receiver (d : ℕ) (u : ChipkitControlIntf) (is : List Input) :
    (is.foldl (ChipkitControlIntf.step d) u).receiver =
      (is.map Input.txd).foldl (Receiver.step d) u.receiver := by
  induction is generalizing u with
  | nil => rfl
  | cons i is ih => exact ih (u.step d i)

theorem trace_step_transmitter (d : ℕ) (u : ChipkitControlIntf) (is : List Input) :
    Lib.Clocked.trace (ChipkitControlIntf.step d) (·.transmitter.rxd) u is =
      Lib.Clocked.trace (Transmitter.step d) Transmitter.rxd u.transmitter (is.map Input.pushed) :=
  Lib.Clocked.trace_map _ _ ChipkitControlIntf.transmitter Input.pushed (fun _ _ => rfl)
    (fun _ => rfl) u is

/-! ### Frames -/

/-- A frame as it should be: a low start bit, the bits of the byte beginning with the lowest, and
`stop` ticks of a high stop bit. -/
def idealFrame (d : ℕ) (b : UInt8) (stop : ℕ) : List UInt8 :=
  List.replicate d 0 ++ (List.range 8).flatMap (fun i => List.replicate d (bit b i)) ++
    List.replicate stop 1

theorem length_idealFrame (d : ℕ) (b : UInt8) (stop : ℕ) :
    (idealFrame d b stop).length = 9 * d + stop := by
  rw [idealFrame, List.length_append, List.length_append, Lib.Clocked.length_levels,
    List.length_replicate, List.length_replicate]
  omega

theorem idealFrame_add (d : ℕ) (b : UInt8) (n m : ℕ) :
    idealFrame d b (n + m) = idealFrame d b n ++ List.replicate m 1 := by
  rw [idealFrame, idealFrame, List.replicate_add, List.append_assoc _ (List.replicate n 1)]

/-- A line shows the frames of a list of bytes as they should be, each with a stop bit of at least
`minStop` ticks, and is high before and after them. -/
def Carries (d minStop : ℕ) : List UInt8 → List UInt8 → Prop
  | [], line => ∃ k, line = List.replicate k 1
  | b :: bytes, line => ∃ k stop rest, minStop ≤ stop ∧
      line = List.replicate k 1 ++ (idealFrame d b stop ++ rest) ∧ Carries d minStop bytes rest

/-- A tick on which the line is high may be added to the beginning, or left out there. -/
theorem carries_one_cons {d minStop : ℕ} (hd : 0 < d) (bytes line : List UInt8) :
    Carries d minStop bytes (1 :: line) ↔ Carries d minStop bytes line := by
  cases bytes with
  | nil =>
    constructor
    · rintro ⟨_ | k, hk⟩
      · exact absurd hk (List.cons_ne_nil _ _)
      · exact ⟨k, List.tail_eq_of_cons_eq hk⟩
    · rintro ⟨k, rfl⟩
      exact ⟨k + 1, rfl⟩
  | cons b bytes =>
    constructor
    · rintro ⟨_ | k, stop, rest, hstop, hline, hrest⟩
      · obtain ⟨n, rfl⟩ := Nat.exists_eq_add_of_le' hd
        simp [idealFrame, List.replicate_succ] at hline
      · exact ⟨k, stop, rest, hstop, List.tail_eq_of_cons_eq hline, hrest⟩
    · rintro ⟨k, stop, rest, hstop, rfl, hrest⟩
      exact ⟨k + 1, stop, rest, hstop, rfl, hrest⟩

theorem carries_ones_append {d minStop : ℕ} (hd : 0 < d) (bytes line : List UInt8) (n : ℕ) :
    Carries d minStop bytes (List.replicate n 1 ++ line) ↔ Carries d minStop bytes line := by
  induction n with
  | zero => rfl
  | succ n ih => rw [List.replicate_succ, List.cons_append, carries_one_cons hd, ih]

end Beethoven.Chipkit
