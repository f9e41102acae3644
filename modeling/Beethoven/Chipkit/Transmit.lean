import Mathlib.Data.List.GetD
import Beethoven.Chipkit.Uart

/-!
# What the serial line shows

The transmitter sends the bytes of its stream in order, each as a frame of a low start bit, the
eight bits of the byte beginning with the lowest, and a high stop bit. The start bit is a tick too
short, since its first tick is counted twice; the other bits are a tick too long, since the tick
that puts them on the line is not counted. The stop bit has twice the length of a bit.

The edges of a frame are where they should be for the byte `0xFE` only, whose one edge is after its
first bit.
-/

namespace Beethoven.Chipkit

open Lib.Clocked

/-- The frame of a byte as the transmitter sends it. -/
def sentFrame (d : ℕ) (b : UInt8) : List UInt8 :=
  List.replicate (d - 1) 0 ++ (List.range 8).flatMap (fun i => List.replicate (d + 1) (bit b i)) ++
    List.replicate (2 * d) 1

/-! ### The phases of a frame -/

namespace Transmitter

/-- The transmitter between two frames. -/
def idle (progress : ℕ) (q : List UInt8) : Transmitter := ⟨1, .idle, 0, progress, q, true⟩

/-- The transmitter before the tick that puts a bit of `b` on the line, and after the last bit. The
program has appended `js` since the beginning of the frame. -/
def beforeBit (d : ℕ) (b : UInt8) (q : List UInt8) (i : ℕ) (js : List (List UInt8)) : Transmitter :=
  if i = 0 then ⟨0, .start, d - 1, 0, b :: (q ++ js.flatten), true⟩
  else if i < 8 then ⟨bit b (i - 1), .bits, 0, i, b :: (q ++ js.flatten), true⟩
  else ⟨bit b 7, .stop, 0, 8, q ++ js.flatten, true⟩

section Phases

variable {d : ℕ} (hd : 2 ≤ d) (b : UInt8) (q : List UInt8)

theorem rxd_beforeBit (i : ℕ) (js : List (List UInt8)) :
    (beforeBit d b q i js).rxd = 0 ∨ (beforeBit d b q i js).rxd = 1 := by
  unfold beforeBit
  split_ifs with h0 h8
  · exact .inl rfl
  · exact bit_eq_zero_or_one b (by omega)
  · exact bit_eq_zero_or_one b (by decide)

include hd

theorem shows_start (progress : ℕ) :
    Shows (step d) rxd (idle progress (b :: q)) (List.replicate (d - 1) 0) (beforeBit d b q 0) := by
  obtain ⟨n, rfl⟩ := Nat.exists_eq_add_of_le' hd
  let counting (k : ℕ) (js : List (List UInt8)) : Transmitter :=
    ⟨0, .start, k + 1, 0, b :: (q ++ js.flatten), true⟩
  refine Shows.count (f := counting) (n := n) ?_ ?_ (fun _ _ _ => rfl)
  · intro p
    simp [counting, step, tick, idle]
  · intro k hk js p
    simp [counting, step, tick, show k ≠ n by omega]

theorem step_beforeBit {i : ℕ} (hi : i < 8) (js : List (List UInt8)) (p : List UInt8) :
    step d (beforeBit d b q i js) p =
      ⟨bit b i, .bitsBaud, 0, i + 1, b :: (q ++ (js ++ [p]).flatten), true⟩ := by
  have hline := set_zero (rxd_beforeBit (d := d) b q i js) b i
  unfold beforeBit at hline ⊢
  split_ifs at hline ⊢ with h0
  · subst h0
    simp [step, tick, front, hline, show d - 1 + 1 = d by omega]
  · simp [step, tick, front, hline, show 1 < d by omega]

/-- A bit of the byte. The tick that puts it on the line is not counted. -/
theorem shows_bit {i : ℕ} (hi : i < 8) (js : List (List UInt8)) :
    Shows (step d) rxd (beforeBit d b q i js) (List.replicate (d + 1) (bit b i)) fun is =>
      beforeBit d b q (i + 1) (js ++ is) := by
  obtain ⟨n, rfl⟩ := Nat.exists_eq_add_of_le' (Nat.le_of_succ_le hd)
  refine Shows.countAndLeave (f := fun k is =>
      ⟨bit b i, .bitsBaud, k, i + 1, b :: (q ++ (js ++ is).flatten), true⟩) (n := n)
    (step_beforeBit hd b q hi js) ?_ ?_ (fun _ _ _ => rfl) ?_
  · intro k hk is p
    simp [step, tick, show k ≠ n by omega]
  · intro is p
    rcases Nat.lt_or_ge (i + 1) 8 with h | h
    · simp [step, tick, beforeBit, h, show i ≠ 7 by omega]
    · obtain rfl : i = 7 := by omega
      simp [step, tick, beforeBit]
  · intro is
    rcases Nat.lt_or_ge (i + 1) 8 with h | h
    · simp [beforeBit, h]
    · obtain rfl : i = 7 := by omega
      rfl

theorem shows_stop (js : List (List UInt8)) :
    Shows (step d) rxd (beforeBit d b q 8 js) (List.replicate (2 * d) 1) fun is =>
      idle 8 (q ++ (js ++ is).flatten) := by
  obtain ⟨n, hn⟩ := Nat.exists_eq_add_of_le' (show 2 ≤ 2 * d by omega)
  rw [hn]
  refine Shows.countAndLeave (f := fun k is =>
      ⟨1, .stop, k + 1, 8, q ++ (js ++ is).flatten, true⟩) (n := n) ?_ ?_ ?_
    (fun _ _ _ => rfl) (fun _ => rfl)
  · intro p
    simp [step, tick, beforeBit, show 1 ≠ 2 * d by omega]
  · intro k hk is p
    simp [step, tick, show k + 1 + 1 ≠ 2 * d by omega]
  · intro is p
    simp [step, tick, idle, hn]

theorem shows_frame (progress : ℕ) :
    Shows (step d) rxd (idle progress (b :: q)) (sentFrame d b) fun is =>
      idle 8 (q ++ is.flatten) :=
  ((shows_start hd b q progress).append fun js =>
    Shows.iterate (f := beforeBit d b q) (n := 8) (fun _ hi => shows_bit hd b q hi) js).append
      fun js => shows_stop hd b q js

end Phases

theorem sender {d : ℕ} (hd : 2 ≤ d) : Sender (step d) rxd (sentFrame d) 1 idle where
  step_push t q p := by simp [step, idle]
  step_nil t := by simp [step, tick, idle]
  out_nil t := rfl
  frame_ne b h := by
    have hlength := congrArg List.length h
    simp only [sentFrame, List.length_append, List.length_replicate, List.length_nil] at hlength
    omega
  shows_frame t b q := ⟨8, shows_frame hd b q t⟩

end Transmitter

/-! ### The line -/

/-- What the line `rxd` shows after each tick. -/
def rxdLine (d : ℕ) (u : ChipkitControlIntf) (is : List Input) : List UInt8 :=
  trace (ChipkitControlIntf.step d) (·.transmitter.rxd) u is

section Line

variable {d : ℕ} (hd : 2 ≤ d) (rxd txd : UInt8) (bytes : List UInt8) (outEnable : Bool)

/-- The value of the line before the first tick does not matter. -/
theorem rxdLine_new (is : List Input) :
    rxdLine d (.new rxd txd bytes outEnable) is =
      trace (Transmitter.step d) Transmitter.rxd (Transmitter.idle 0 bytes)
        (is.map Input.pushed) := by
  rw [rxdLine, trace_step_transmitter]
  cases is with
  | nil => rfl
  | cons i is =>
    have hstep : Transmitter.step d ⟨rxd, .idle, 0, 0, bytes, true⟩ i.pushed =
        Transmitter.step d (Transmitter.idle 0 bytes) i.pushed := by
      simp only [Transmitter.step, Transmitter.tick, Transmitter.idle]
    rw [List.map_cons, trace_cons, trace_cons]
    rw [ChipkitControlIntf.new, hstep]

include hd

/-- In any run the line shows the frames of the bytes in the order of the stream. -/
theorem rxdLine_emits (is : List Input) :
    ∃ sent, Emits (sentFrame d) 1 sent (rxdLine d (.new rxd txd bytes outEnable) is) ∧
      sent <+: bytes ++ (is.map Input.pushed).flatten := by
  rw [rxdLine_new]
  exact (Transmitter.sender hd).emits 0 _ bytes

theorem length_sentFrame (b : UInt8) : (sentFrame d b).length = 11 * d + 7 := by
  rw [sentFrame, List.length_append, List.length_append, length_levels, List.length_replicate,
    List.length_replicate]
  omega

theorem length_flatMap_sentFrame :
    (bytes.flatMap (sentFrame d)).length = (11 * d + 7) * bytes.length := by
  simp [List.length_flatMap, length_sentFrame hd, Nat.mul_comm]

/-- The line during a run in which the program appends nothing to the stream. -/
theorem rxdLine_eq {is : List Input} (his : ∀ i ∈ is, i.pushed = [])
    (hlength : (11 * d + 7) * bytes.length ≤ is.length) :
    rxdLine d (.new rxd txd bytes outEnable) is = bytes.flatMap (sentFrame d) ++
      List.replicate (is.length - (11 * d + 7) * bytes.length) 1 := by
  have hpushed : is.map Input.pushed = List.replicate is.length [] :=
    List.eq_replicate_iff.mpr ⟨List.length_map _, by simpa using his⟩
  rw [rxdLine_new, hpushed, (Transmitter.sender hd).trace_of_loaded 0 bytes (Nat.le_refl _),
    List.take_append, List.take_replicate, length_flatMap_sentFrame hd,
    List.take_of_length_le (by rw [length_flatMap_sentFrame hd]; exact hlength),
    Nat.min_eq_left (Nat.sub_le _ _)]

end Line

/-! ### The frames as they are and as they should be -/

section Compare

variable {d : ℕ} (hd : 2 ≤ d) {b : UInt8}

include hd

theorem getElem?_sentFrame {i t : ℕ} (hi : i < 8) (hlo : d - 1 + i * (d + 1) ≤ t)
    (hhi : t < d - 1 + (i + 1) * (d + 1)) : (sentFrame d b)[t]? = some (bit b i) := by
  have hwithin : (i + 1) * (d + 1) ≤ 8 * (d + 1) := Nat.mul_le_mul_right _ hi
  rw [sentFrame, List.append_assoc, List.getElem?_append_right (by simp; omega),
    List.length_replicate,
    List.getElem?_append_left (by rw [length_levels]; omega),
    getElem?_levels (bit b) hi (by omega) (by omega)]

omit hd in
/-- The ticks in which a bit should be shown; the stop bit counts as the last one. -/
theorem getElem?_idealFrame {i t : ℕ} (hi : i ≤ 8) (hlo : (i + 1) * d ≤ t)
    (hhi : t < (i + 2) * d) :
    (idealFrame d b d)[t]? = some (if i < 8 then bit b i else 1) := by
  rw [Nat.add_mul, Nat.one_mul] at hlo
  rw [Nat.add_mul] at hhi
  have hlength := length_levels (bit b) d 8
  rw [idealFrame, List.append_assoc, List.getElem?_append_right (by simp; omega),
    List.length_replicate]
  split_ifs with h
  · have hwithin : (i + 1) * d ≤ 8 * d := Nat.mul_le_mul_right _ h
    rw [Nat.succ_mul] at hwithin
    rw [List.getElem?_append_left (by omega),
      getElem?_levels (bit b) h (by omega) (by rw [Nat.succ_mul]; omega)]
  · obtain rfl : i = 8 := by omega
    rw [List.getElem?_append_right (by omega), List.getElem?_replicate_of_lt (by omega)]

omit hd in
theorem getElem?_eq_of_take_eq (h : (sentFrame d b).take (10 * d) = idealFrame d b d) {t : ℕ}
    (ht : t < 10 * d) : (sentFrame d b)[t]? = (idealFrame d b d)[t]? := by
  rw [← h, List.getElem?_take_of_lt ht]

/-- Where the two frames agree up to the first ticks of the stop bit, a bit other than the first
has the value of a later one, or is high. -/
theorem bit_eq_later (hd4 : 4 ≤ d) (h : (sentFrame d b).take (10 * d) = idealFrame d b d) {i : ℕ}
    (hi : i < 8) (hpos : 0 < i) :
    ∃ j, i < j ∧ j ≤ 8 ∧ bit b i = if j < 8 then bit b j else 1 := by
  -- the first tick in which the transmitter shows the bit and a later one is due
  obtain ⟨t, ht⟩ : ∃ t, t = max ((i + 2) * d) ((i + 1) * d + i - 1) := ⟨_, rfl⟩
  have hsmall : i * d ≤ 7 * d := Nat.mul_le_mul_right _ (by omega)
  have hi2 : (i + 2) * d = i * d + 2 * d := Nat.add_mul _ _ _
  have hi1 : (i + 1) * d = i * d + d := Nat.succ_mul _ _
  have hsent : (sentFrame d b)[t]? = some (bit b i) := by
    refine getElem?_sentFrame hd hi ?_ ?_
    · rw [Nat.mul_succ]
      omega
    · rw [Nat.mul_succ, hi1]
      omega
  have hlo : t / d * d ≤ t := Nat.div_mul_le_self _ _
  have hhi : t < t / d * d + d := Nat.lt_div_mul_add (by omega)
  have hj : i + 2 ≤ t / d := (Nat.le_div_iff_mul_le (by omega)).mpr (by omega)
  have hj' : t / d < 10 := (Nat.div_lt_iff_lt_mul (by omega)).mpr (by omega)
  have hideal : (idealFrame d b d)[t]? =
      some (if t / d - 1 < 8 then bit b (t / d - 1) else 1) := by
    refine getElem?_idealFrame (by omega) ?_ ?_
    · rwa [show t / d - 1 + 1 = t / d by omega]
    · rwa [show t / d - 1 + 2 = t / d + 1 by omega, Nat.succ_mul]
  refine ⟨t / d - 1, by omega, by omega, ?_⟩
  have hagree := getElem?_eq_of_take_eq h (show t < 10 * d by omega)
  rw [hsent, hideal] at hagree
  exact Option.some_inj.mp hagree

theorem bit_eq_one (hd4 : 4 ≤ d) (h : (sentFrame d b).take (10 * d) = idealFrame d b d) (n : ℕ)
    {i : ℕ} (hi : 8 - i ≤ n) (hpos : 0 < i) (hlt : i < 8) : bit b i = 1 := by
  induction n generalizing i with
  | zero => omega
  | succ n ih =>
    obtain ⟨j, hij, -, hbit⟩ := bit_eq_later hd hd4 h hlt hpos
    rw [hbit]
    split_ifs with hj
    · exact ih (by omega) (by omega) hj
    · rfl

omit hd in
theorem eq_of_bits (h0 : bit b 0 = 0) (h : ∀ i < 8, 0 < i → bit b i = 1) : b = 0xFE := by
  have hall : ∀ b, bit b 0 = 0 → (∀ i < 8, 0 < i → bit b i = 1) → b = 0xFE :=
    forall_byte (by decide +kernel)
  exact hall b h0 h

theorem eq_of_frames_agree (h : (sentFrame d b).take (10 * d) = idealFrame d b d) : b = 0xFE := by
  rcases Nat.lt_or_ge d 4 with hlt | hge
  · -- the last bits of the byte are sent after the end of the ideal frame
    have hsmall : ∀ b, ∀ d < 4, 2 ≤ d →
        (sentFrame d b).take (10 * d) = idealFrame d b d → b = 0xFE :=
      forall_byte (by decide +kernel)
    exact hsmall b d hlt hd h
  · refine eq_of_bits ?_ fun i hi hpos => bit_eq_one hd hge h 8 (Nat.sub_le _ _) hpos hi
    -- the last tick of the start bit
    have hagree := getElem?_eq_of_take_eq h (show d - 1 < 10 * d by omega)
    rw [getElem?_sentFrame hd (i := 0) (by decide) (by omega) (by omega), idealFrame,
      List.append_assoc, List.getElem?_append_left (by rw [List.length_replicate]; omega),
      List.getElem?_replicate_of_lt (by omega)] at hagree
    exact Option.some_inj.mp hagree

theorem sentFrame_eq_idealFrame : sentFrame d 0xFE = idealFrame d 0xFE (2 * d + 7) := by
  have hzero : bit 0xFE 0 = 0 := by decide
  have hone : ∀ i ∈ List.range 7, bit 0xFE (i + 1) = 1 := by decide
  have hlevels : ∀ w, (List.range 8).flatMap (fun i => List.replicate w (bit 0xFE i)) =
      List.replicate w 0 ++ List.replicate (7 * w) 1 := by
    intro w
    rw [List.range_succ_eq_map, List.flatMap_cons, List.flatMap_map, hzero,
      List.flatMap_congr fun i hi => congrArg (List.replicate w) (hone i hi)]
    congr 1
    exact List.eq_replicate_iff.mpr ⟨length_levels _ w 7, by simp⟩
  rw [sentFrame, idealFrame, hlevels, hlevels]
  simp only [List.append_assoc, ← List.replicate_add]
  simp only [← List.append_assoc, ← List.replicate_add]
  congr 2 <;> omega

theorem eq_zero_of_sentFrame_append {k : ℕ} {line line' : List UInt8}
    (h : sentFrame d b ++ line = List.replicate k 1 ++ line') : k = 0 := by
  by_contra hk
  have hhead := congrArg (fun os => os[0]?) h
  simp only [sentFrame, List.append_assoc] at hhead
  rw [List.getElem?_append_left (by rw [List.length_replicate]; omega),
    List.getElem?_append_left (by rw [List.length_replicate]; omega),
    List.getElem?_replicate_of_lt (by omega), List.getElem?_replicate_of_lt (by omega)] at hhead
  exact absurd hhead (by decide)

theorem carries_sentFrame_append (b : UInt8) (bytes line : List UInt8) :
    Carries d d (b :: bytes) (sentFrame d b ++ line) ↔ b = 0xFE ∧ Carries d d bytes line := by
  constructor
  · rintro ⟨k, stop, rest, hstop, hline, hrest⟩
    obtain rfl : k = 0 := eq_zero_of_sentFrame_append hd hline
    rw [List.replicate_zero, List.nil_append] at hline
    obtain rfl : b = 0xFE := by
      refine eq_of_frames_agree hd ?_
      rw [← List.take_append_of_le_length (by rw [length_sentFrame hd]; omega), hline,
        ← Nat.add_sub_cancel' hstop, idealFrame_add, List.append_assoc,
        List.take_left' (by rw [length_idealFrame]; omega)]
    refine ⟨rfl, (carries_ones_append (by omega) bytes line (2 * d + 7)).mp ?_⟩
    rw [sentFrame_eq_idealFrame hd, idealFrame, idealFrame, List.append_assoc,
      List.append_assoc _ (List.replicate stop 1)] at hline
    rw [List.append_cancel_left hline]
    exact (carries_ones_append (by omega) bytes rest stop).mpr hrest
  · rintro ⟨rfl, hrest⟩
    exact ⟨0, 2 * d + 7, line, by omega, by rw [sentFrame_eq_idealFrame hd]; rfl, hrest⟩

theorem carries_flatMap_sentFrame (bytes : List UInt8) (n : ℕ) :
    Carries d d bytes (bytes.flatMap (sentFrame d) ++ List.replicate n 1) ↔
      ∀ b ∈ bytes, b = 0xFE := by
  induction bytes with
  | nil => simp [Carries]
  | cons b bytes ih =>
    rw [List.flatMap_cons, List.append_assoc, carries_sentFrame_append hd, ih, List.forall_mem_cons]

end Compare

/-- The transmitter sends the bytes of its stream in order, none of them twice, but its frames have
the lengths that they should have only if all bytes are `0xFE`: the start bit is too short and the
other bits are too long. -/
theorem rxdLine_carries_iff {d : ℕ} (hd : 2 ≤ d) (rxd txd : UInt8) (bytes : List UInt8)
    (outEnable : Bool) :
    (∀ is : List Input,
      ∃ sent, Emits (sentFrame d) 1 sent (rxdLine d (.new rxd txd bytes outEnable) is) ∧
        sent <+: bytes ++ (is.map Input.pushed).flatten) ∧
    ∀ is : List Input, (∀ i ∈ is, i.pushed = []) → (11 * d + 7) * bytes.length ≤ is.length →
      (Carries d d bytes (rxdLine d (.new rxd txd bytes outEnable) is) ↔
        ∀ b ∈ bytes, b = 0xFE) := by
  refine ⟨rxdLine_emits hd rxd txd bytes outEnable, fun is his hlength => ?_⟩
  rw [rxdLine_eq hd rxd txd bytes outEnable his hlength]
  exact carries_flatMap_sentFrame hd bytes _

/-- The byte `0xFE` at two ticks for a bit. -/
theorem rxdLine_carries_two :
    Carries 2 2 [0xFE] (rxdLine 2 (.new 1 1 [0xFE] false) (List.replicate 29 ⟨[], 1⟩)) :=
  ((rxdLine_carries_iff (Nat.le_refl 2) 1 1 [0xFE] false).2 (List.replicate 29 ⟨[], 1⟩)
    (by simp) (by decide)).mpr (List.forall_mem_singleton.mpr rfl)

/-- The first byte of a packet at the baud rate that the program sets. -/
theorem not_rxdLine_carries :
    ¬ ∀ d, 2 ≤ d → ∀ (bytes : List UInt8) (is : List Input), (∀ i ∈ is, i.pushed = []) →
      (11 * d + 7) * bytes.length ≤ is.length →
      Carries d d bytes (rxdLine d (.new 1 1 bytes false) is) := by
  intro h
  have his : ∀ i ∈ List.replicate 183 (⟨[], 1⟩ : Input), i.pushed = [] := fun i hi => by
    rw [List.eq_of_mem_replicate hi]
  have hlength : 183 ≤ (List.replicate 183 (⟨[], 1⟩ : Input)).length :=
    Nat.le_of_eq List.length_replicate.symm
  have hcarries := h 16 (by decide) [0x77] _ his hlength
  rw [rxdLine_eq (by decide) _ _ _ _ his hlength,
    carries_flatMap_sentFrame (by decide)] at hcarries
  exact absurd (hcarries 0x77 List.mem_cons_self) (by decide)

end Beethoven.Chipkit
