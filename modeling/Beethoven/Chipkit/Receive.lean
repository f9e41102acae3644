import Beethoven.Chipkit.Uart

/-!
# What is received from the serial line

The receiver waits for a low line, lets the start bit pass, samples every bit once and pushes the
byte in the stop bit. Between two samples it counts the ticks of a bit; but the counter is reset at
every tick, so it counts no further than two. With one or two ticks for a bit all bytes are
received. With more ticks the receiver never leaves the first bit of the first byte, and nothing is
received.
-/

namespace Beethoven.Chipkit

/-- The byte `b` after its first `i` bits have been sampled. -/
def received (b : UInt8) : ℕ → UInt8
  | 0 => 0
  | i + 1 => setU (received b i) i (bit b i) 0

theorem received_eight (b : UInt8) : received b 8 = b := by
  have hall : ∀ b, received b 8 = b := forall_byte (by decide +kernel)
  exact hall b

namespace Receiver

/-- The receiver between two frames, when it has received `out`. -/
structure Waiting (out : List UInt8) (u : Receiver) : Prop where
  state : u.outState = .idle
  stream : u.outStream = out
  enable : u.outEnable = true

/-- The receiver in the frame of `b` when it has sampled `i` bits. -/
structure Sampling (out : List UInt8) (b : UInt8) (i : ℕ) (u : Receiver) : Prop where
  state : u.outState = if i < 8 then .bits else .stop
  count : i = 8 → u.baudCountOut = 0
  progress : u.outByteProgress = i
  byte : u.outByte = received b i
  stream : u.outStream = out
  enable : u.outEnable = true

/-! ### Bits of one or two ticks -/

section Short

variable {d : ℕ} (hd : d = 1 ∨ d = 2) {out : List UInt8} {u : Receiver} {b : UInt8}

theorem Waiting.high (h : Waiting out u) (n : ℕ) :
    Waiting out ((List.replicate n 1).foldl (step d) u) := by
  induction n generalizing u with
  | zero => exact h
  | succ n ih =>
    refine ih ?_
    obtain ⟨hstate, hstream, henable⟩ := h
    constructor <;> simp [step, tick, hstate, hstream, henable]

include hd

theorem Waiting.start (h : Waiting out u) (b : UInt8) :
    Sampling out b 0 ((List.replicate d 0).foldl (step d) u) := by
  obtain ⟨hstate, hstream, henable⟩ := h
  rcases hd with rfl | rfl <;> constructor <;>
    simp [List.replicate, step, tick, hstate, hstream, henable, received]

theorem Sampling.bit {i : ℕ} (h : Sampling out b i u) (hi : i < 8) :
    Sampling out b (i + 1) ((List.replicate d (Chipkit.bit b i)).foldl (step d) u) := by
  obtain ⟨hstate, -, hprogress, hbyte, hstream, henable⟩ := h
  rw [if_pos hi] at hstate
  -- after the last bit the receiver goes on to the stop bit
  rcases Nat.lt_or_ge (i + 1) 8 with hlt | hge
  · have hne : i ≠ 7 := by omega
    rcases hd with rfl | rfl <;> constructor <;>
      simp [List.replicate, step, tick, hstate, hprogress, hbyte, hstream, henable, received, hlt,
        hne]
  · obtain rfl : i = 7 := by omega
    rcases hd with rfl | rfl <;> constructor <;>
      simp [List.replicate, step, tick, hstate, hprogress, hbyte, hstream, henable, received]

theorem Sampling.stop (h : Sampling out b 8 u) :
    Waiting (out ++ [b]) ((List.replicate (2 * d) 1).foldl (step d) u) := by
  obtain ⟨hstate, hcount, -, hbyte, hstream, henable⟩ := h
  rw [received_eight] at hbyte
  rw [if_neg (by decide)] at hstate
  rcases hd with rfl | rfl <;> constructor <;>
    simp [List.replicate, step, tick, hstate, hstream, henable, hcount, hbyte]

theorem Sampling.bits (h : Sampling out b 0 u) {n : ℕ} (hn : n ≤ 8) :
    Sampling out b n (((List.range n).flatMap fun i =>
      List.replicate d (Chipkit.bit b i)).foldl (step d) u) := by
  induction n with
  | zero => exact h
  | succ n ih =>
    rw [List.range_succ, List.flatMap_append, List.flatMap_singleton, List.foldl_append]
    exact (ih (by omega)).bit hd (by omega)

theorem Waiting.frame (h : Waiting out u) (b : UInt8) {stop : ℕ} (hstop : 2 * d ≤ stop) :
    Waiting (out ++ [b]) ((idealFrame d b stop).foldl (step d) u) := by
  rw [← Nat.add_sub_cancel' hstop, idealFrame_add, idealFrame, List.foldl_append,
    List.foldl_append, List.foldl_append]
  exact ((((h.start hd b).bits hd (Nat.le_refl 8)).stop hd).high _)

theorem Waiting.carries (h : Waiting out u) {minStop : ℕ} (hstop : 2 * d ≤ minStop)
    {bytes line : List UInt8} (hline : Carries d minStop bytes line) :
    Waiting (out ++ bytes) (line.foldl (step d) u) := by
  induction bytes generalizing out u line with
  | nil =>
    obtain ⟨k, rfl⟩ := hline
    rw [List.append_nil]
    exact h.high k
  | cons b bytes ih =>
    obtain ⟨k, stop, rest, hle, rfl, hrest⟩ := hline
    rw [List.foldl_append, List.foldl_append, ← List.singleton_append, ← List.append_assoc]
    exact ih ((h.high k).frame hd b (Nat.le_trans hstop hle)) hrest

end Short

/-! ### Longer bits -/

/-- The receiver has received `out` and has not come to a stop bit. -/
structure Stuck (out : List UInt8) (u : Receiver) : Prop where
  state : u.outState ≠ .stop
  count : u.outState = .bitsBaud → u.baudCountOut ≤ 1
  stream : u.outStream = out

theorem Stuck.step {d : ℕ} (hd : 3 ≤ d) {out : List UInt8} {u : Receiver} (h : Stuck out u)
    (txd : UInt8) : Stuck out (u.step d txd) := by
  obtain ⟨hstate, hcount, hstream⟩ := h
  unfold Receiver.step tick
  cases hu : u.outState with
  | stop => exact absurd hu hstate
  | bitsBaud =>
    have hne : u.baudCountOut + 1 ≠ d := by
      have := hcount hu
      omega
    constructor <;> simp [hne, hstream]
  | idle =>
    dsimp only
    split_ifs with hlow h1
    · omega
    · constructor <;> simp [hstream]
    · constructor <;> simp [hstream]
  | startBaud =>
    dsimp only
    split_ifs with hlast
    · constructor <;> simp [hstream]
    · constructor <;> simp [hstream]
  | bits =>
    dsimp only
    rw [if_neg (show d ≠ 1 by omega)]
    constructor <;> simp [hstream]
  | start => constructor <;> simp [hstream]

theorem Stuck.foldl {d : ℕ} (hd : 3 ≤ d) {out : List UInt8} {u : Receiver} (h : Stuck out u)
    (line : List UInt8) : Stuck out (line.foldl (Receiver.step d) u) := by
  induction line generalizing u with
  | nil => exact h
  | cons txd line ih => exact ih (h.step hd txd)

end Receiver

/-! ### The received bytes -/

/-- The bytes that an interface with `out_enable` set has received after a run. -/
def outStreamAfter (d : ℕ) (rxd txd : UInt8) (bytes : List UInt8) (is : List Input) : List UInt8 :=
  (is.foldl (ChipkitControlIntf.step d) (.new rxd txd bytes true)).receiver.outStream

theorem outStreamAfter_of_short {d : ℕ} (hd : d = 1 ∨ d = 2) (rxd txd : UInt8)
    (sending bytes : List UInt8) {is : List Input}
    (hline : Carries d (2 * d + 1) bytes (is.map Input.txd)) :
    outStreamAfter d rxd txd sending is = bytes := by
  rw [outStreamAfter, foldl_step_receiver]
  have hwaiting : Receiver.Waiting [] (ChipkitControlIntf.new rxd txd sending true).receiver :=
    ⟨rfl, rfl, rfl⟩
  exact (hwaiting.carries hd (Nat.le_succ _) hline).stream

/-- Nothing is received with longer bits, whatever the line shows. -/
theorem outStreamAfter_of_long {d : ℕ} (hd : 3 ≤ d) (rxd txd : UInt8) (sending : List UInt8)
    (is : List Input) : outStreamAfter d rxd txd sending is = [] := by
  rw [outStreamAfter, foldl_step_receiver]
  have hstuck : Receiver.Stuck [] (ChipkitControlIntf.new rxd txd sending true).receiver :=
    ⟨nofun, nofun, rfl⟩
  exact (hstuck.foldl hd _).stream

/-- The bytes that the line carries are received exactly if a bit has at most two ticks, or there
are none; otherwise nothing is received. -/
theorem outStreamAfter_eq_iff {d : ℕ} (hd : 1 ≤ d) (rxd txd : UInt8) (sending bytes : List UInt8)
    {is : List Input} (hline : Carries d (2 * d + 1) bytes (is.map Input.txd)) :
    (outStreamAfter d rxd txd sending is = bytes ↔ d ≤ 2 ∨ bytes = []) ∧
      (3 ≤ d → outStreamAfter d rxd txd sending is = []) := by
  refine ⟨?_, fun h => outStreamAfter_of_long h rxd txd sending is⟩
  rcases Nat.lt_or_ge 2 d with hlong | hshort
  · rw [outStreamAfter_of_long hlong, or_iff_right (Nat.not_le.mpr hlong)]
    exact eq_comm
  · have hd' : d = 1 ∨ d = 2 := by omega
    exact iff_of_true (outStreamAfter_of_short hd' rxd txd sending bytes hline) (.inl hshort)

/-- A frame at two ticks for a bit. -/
theorem outStreamAfter_eq_two :
    outStreamAfter 2 1 1 [] ((idealFrame 2 0x77 5).map (⟨[], ·⟩)) = [0x77] :=
  (outStreamAfter_eq_iff (by decide) 1 1 [] [0x77]
    ⟨0, 5, [], by decide, by decide +kernel, 0, rfl⟩).1.mpr (.inl (by decide))

/-- A frame at the baud rate that the program sets. -/
theorem not_outStreamAfter_eq :
    ¬ ∀ d, 1 ≤ d → ∀ (bytes : List UInt8) (is : List Input),
      Carries d (2 * d + 1) bytes (is.map Input.txd) → outStreamAfter d 1 1 [] is = bytes := by
  intro h
  have hline : Carries 16 33 [0x77] (((idealFrame 16 0x77 33).map (⟨[], ·⟩)).map Input.txd) := by
    exact ⟨0, 33, [], Nat.le_refl _, by simp [Function.comp_def], 0, rfl⟩
  have hbytes := h 16 (by decide) [0x77] _ hline
  rw [outStreamAfter_of_long (by decide)] at hbytes
  exact absurd hbytes (by decide)

end Beethoven.Chipkit
