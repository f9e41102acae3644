import Beethoven.DataServer.Translator
import Beethoven.Memory.Containment

/-!
# The byte lanes of write beats

AXI gives every byte of a write beat a device address: byte lane `n` of a beat holds the byte at the
beat's address aligned down to the width of the data bus, plus `n`. The W channel of the port stores
lane `n` at the address of the burst plus `n`, and moves the address on by the size of a beat,
without aligning it. Both agree exactly for the beats whose address is a multiple of the bus width
and, after the first beat of an incrementing burst, whose burst starts at a multiple of the beat
size (`AxiBeat.InPlace`, `AxiBeat.runningAddr_eq_iff`). A burst of narrow beats is not stored where
AXI has it (`not_lanes_stored`).

The beats of all bursts, in the order in which AXI asks for their data, are numbered through, and so
are the beats of data.
-/

namespace Beethoven.Memory

open Lib DataServer

/-! ### The bytes of a beat -/

theorem WriteDataIn.getStrb_eq_testBit (w : WriteDataIn) (i : ℕ) :
    w.getStrb i = w.strb.testBit i := by
  have hlt : i % 32 < 32 := Nat.mod_lt _ (by decide)
  rw [getStrb, Nat.testBit_mod_two_pow, Nat.testBit_div_two_pow, Nat.mod_add_div]
  simp [hlt]

theorem State.storeBeat_apply (c : Config) (w : WriteDataIn) (addr : ℕ) (host : Host) (p : ℕ) :
    storeBeat c w addr host p =
      if addr ≤ p ∧ p < addr + c.dataBusBytes ∧ w.strb.testBit (p - addr) = true then
        w.data (p - addr)
      else host p := by
  rw [storeBeat]
  induction c.dataBusBytes with
  | zero =>
    have hempty : ¬ (addr ≤ p ∧ p < addr + 0 ∧ w.strb.testBit (p - addr) = true) := by omega
    rw [if_neg hempty]
    rfl
  | succ n ih =>
    rw [List.range_succ, List.foldl_append, List.foldl_cons, List.foldl_nil,
      w.getStrb_eq_testBit]
    by_cases hp : p = addr + n
    · subst hp
      have hold : ¬ (addr ≤ addr + n ∧ addr + n < addr + n ∧
          w.strb.testBit (addr + n - addr) = true) := by omega
      rw [if_neg hold] at ih
      cases hstrb : w.strb.testBit n with
      | false => simpa [hstrb] using ih
      | true => simp [hstrb]
    · have hrange : p < addr + (n + 1) ↔ p < addr + n := by omega
      simp only [hrange, ← ih]
      split_ifs
      · exact Function.update_of_ne hp _ _
      · rfl

/-! ### The addresses of AXI -/

namespace AddressIn

variable (c : Config) (aw : AddressIn)

/-- The address of a beat: the start address for every beat of a FIXED burst and for the first beat
of an INCR burst; the other beats of an INCR burst follow the start address aligned to their
size. -/
def beatAddr (k : ℕ) : ℕ :=
  if aw.burst = 0 ∨ k = 0 then aw.addr
  else aw.addr / 2 ^ (aw.size : ℕ) * 2 ^ (aw.size : ℕ) + k * 2 ^ (aw.size : ℕ)

/-- The device address of a byte lane of a beat. -/
def laneAddr (k lane : ℕ) : ℕ := aw.beatAddr k / c.dataBusBytes * c.dataBusBytes + lane

end AddressIn

/-- An accepted request for a write burst, with the mapping in which the burst starts. -/
structure WriteRequest where
  aw : AddressIn
  m : AddrPair
  covers : m.covers (.ofNat aw.getAddr) = true

/-- The transaction that the port makes of a request. -/
def WriteRequest.burst (c : Config) (r : WriteRequest) : MemoryTransaction :=
  .new c (r.m.cpuAddr + (r.aw.getAddr - r.m.fpgaAddr.toNat)) (2 ^ (r.aw.size : ℕ)) (1 + r.aw.len) 0
    (r.aw.burst = 0) r.aw.id r.aw.getAddr false

/-- A beat of a write burst. -/
structure AxiBeat where
  req : WriteRequest
  number : ℕ

/-- The beats of bursts in the order in which AXI asks for their data. -/
def axiBeats (requests : List WriteRequest) : List AxiBeat :=
  requests.flatMap fun r => (List.range (r.aw.len + 1)).map (⟨r, ·⟩)

namespace AxiBeat

variable (c : Config) (b : AxiBeat) (w : WriteDataIn)

/-- The host location of a byte lane. -/
def location (lane : ℕ) : Option ℕ :=
  b.req.m.location (b.req.aw.laneAddr c b.number lane)

/-- How far the port has moved the address of the burst on. -/
def offset : ℕ := if b.req.aw.burst = 0 then 0 else b.number * 2 ^ (b.req.aw.size : ℕ)

/-- The device address at which the port stores lane 0 of the beat. -/
def runningAddr : ℕ := b.req.aw.getAddr + b.offset

/-- The host address at which the port stores lane 0 of the beat. -/
def hostAddr : ℕ := (b.req.burst c).addr + b.offset

/-- The lanes of the beat start at the address of the burst, and the strobed ones lie in the mapping
in which the burst starts. The burst is an INCR or FIXED one at an address of 32 bits, which is what
the port reads of it. -/
structure InPlace : Prop where
  incr_or_fixed : b.req.aw.burst = 0 ∨ b.req.aw.burst = 1
  addr_lt : b.req.aw.addr < 2 ^ 32
  size_dvd : b.req.aw.burst = 0 ∨ b.number = 0 ∨ 2 ^ (b.req.aw.size : ℕ) ∣ b.req.aw.addr
  bus_dvd : c.dataBusBytes ∣ b.req.aw.beatAddr b.number
  lane_lt : ∀ n < c.dataBusBytes, w.strb.testBit n = true →
    b.req.aw.laneAddr c b.number n < b.req.m.fpgaEnd

instance : Decidable (b.InPlace c w) :=
  decidable_of_iff
    ((b.req.aw.burst = 0 ∨ b.req.aw.burst = 1) ∧ b.req.aw.addr < 2 ^ 32 ∧
      (b.req.aw.burst = 0 ∨ b.number = 0 ∨ 2 ^ (b.req.aw.size : ℕ) ∣ b.req.aw.addr) ∧
      c.dataBusBytes ∣ b.req.aw.beatAddr b.number ∧
      ∀ n < c.dataBusBytes, w.strb.testBit n = true →
        b.req.aw.laneAddr c b.number n < b.req.m.fpgaEnd)
    ⟨fun h => ⟨h.1, h.2.1, h.2.2.1, h.2.2.2.1, h.2.2.2.2⟩, fun h => ⟨h.1, h.2, h.3, h.4, h.5⟩⟩

end AxiBeat

/-! ### The port with its requests -/

/-- The request that the AW channel accepts in a tick. -/
def State.acceptedRequest (s : State) (tr : AddressTranslator) (aw : AddressIn) :
    Option WriteRequest :=
  if aw.valid && s.w.awReady then
    match h : tr.find (.ofNat aw.getAddr) with
    | none => none
    | some m => some ⟨aw, m, AddressTranslator.covers_of_find h⟩
  else none

def requests (s : State) : AddressTranslator × Action → List WriteRequest
  | (tr, .tickSignals _ i) => (s.acceptedRequest tr i.aw).toList
  | _ => []

/-- A port with the log of its write channels and the requests that it has accepted. -/
abbrev LaneState := (State × List WriteEvent) × List WriteRequest

/-- The port under a translator that may change from step to step, with a log of its write channels
and of the accepted requests. -/
def lanePort (c : Config) : System LaneState (AddressTranslator × Action) :=
  ((writePort c).relabel fun x => x.2.under x.1).logged fun x => requests x.1

/-- The beats of data follow the requests of their bursts, and the last ones are marked. -/
def DataFollows (c : Config) (x : LaneState) (a : AddressTranslator × Action) : Prop :=
  BeatsFollow c x.1 (a.2.under a.1)

instance (c : Config) (x : LaneState) (a : AddressTranslator × Action) :
    Decidable (DataFollows c x a) :=
  inferInstanceAs (Decidable (BeatsFollow c x.1 (a.2.under a.1)))

/-- The beat of data that comes in the step from `x` to `y`. -/
def newData (x y : LaneState) : Option WriteDataIn := (beatsOf y.1.2)[(beatsOf x.1.2).length]?

/-- The beat of a burst to which AXI assigns the next beat of data after `x`. -/
def nextBeat (x y : LaneState) : Option AxiBeat := (axiBeats y.2)[(beatsOf x.1.2).length]?

/-- In the step from `x` to `y`, the strobed bytes of a beat of data are stored at their device
addresses, and no other byte changes. -/
structure LanesStored (c : Config) (x y : LaneState) : Prop where
  stored : ∀ w ∈ newData x y, ∃ b ∈ nextBeat x y, ∀ n < c.dataBusBytes,
    w.strb.testBit n = true → ∃ p, b.location c n = some p ∧ y.1.1.host p = w.data n
  other : ∀ p, (∀ w ∈ newData x y, ∀ b ∈ nextBeat x y, ∀ n < c.dataBusBytes,
    w.strb.testBit n = true → b.location c n ≠ some p) → y.1.1.host p = x.1.1.host p

/-! ### Where the port stores a beat -/

namespace AxiBeat

variable {c : Config} {b : AxiBeat} {w : WriteDataIn}

/-- The port stores a beat from its lane 0 on exactly if the address of the beat is a multiple of
the bus width and the port has not skipped the alignment of an earlier address. -/
theorem runningAddr_eq_iff (haddr : b.req.aw.addr < 2 ^ 32) :
    b.runningAddr = b.req.aw.laneAddr c b.number 0 ↔
      (b.req.aw.burst = 0 ∨ b.number = 0 ∨ 2 ^ (b.req.aw.size : ℕ) ∣ b.req.aw.addr) ∧
        c.dataBusBytes ∣ b.req.aw.beatAddr b.number := by
  have hget : b.req.aw.getAddr = b.req.aw.addr := Nat.mod_eq_of_lt haddr
  rw [runningAddr, hget, offset, AddressIn.laneAddr, Nat.add_zero]
  by_cases hstart : b.req.aw.burst = 0 ∨ b.number = 0
  · have hoffset : (if b.req.aw.burst = 0 then 0 else b.number * 2 ^ (b.req.aw.size : ℕ)) = 0 := by
      rcases hstart with hfixed | hfirst
      · exact if_pos hfixed
      · rw [hfirst, Nat.zero_mul, ite_self]
    rw [hoffset, Nat.add_zero, AddressIn.beatAddr, if_pos hstart, ← or_assoc]
    constructor
    · intro h
      exact ⟨.inl hstart, Dvd.intro_left _ h.symm⟩
    · rintro ⟨-, hdvd⟩
      exact (Nat.div_mul_cancel hdvd).symm
  · obtain ⟨hincr, hlater⟩ := not_or.mp hstart
    have hsize := Nat.div_mul_le_self b.req.aw.addr (2 ^ (b.req.aw.size : ℕ))
    have hbus := Nat.div_mul_le_self (b.req.aw.beatAddr b.number) c.dataBusBytes
    have hbeat : b.req.aw.beatAddr b.number =
        b.req.aw.addr / 2 ^ (b.req.aw.size : ℕ) * 2 ^ (b.req.aw.size : ℕ) +
          b.number * 2 ^ (b.req.aw.size : ℕ) := if_neg hstart
    simp only [if_neg hincr, Nat.dvd_iff_div_mul_eq]
    constructor
    · intro h
      exact ⟨.inr (.inr (by omega)), by omega⟩
    · rintro ⟨halign, hdvd⟩
      have halign' := (halign.resolve_left hincr).resolve_left hlater
      omega

theorem InPlace.location_eq (h : b.InPlace c w) {n : ℕ} (hn : n < c.dataBusBytes)
    (hstrb : w.strb.testBit n = true) : b.location c n = some (b.hostAddr c + n) := by
  have hrunning := (runningAddr_eq_iff (c := c) h.addr_lt).mpr ⟨h.size_dvd, h.bus_dvd⟩
  have hlane : b.req.aw.laneAddr c b.number n = b.runningAddr + n := by
    rw [hrunning]
    rfl
  have hend := h.lane_lt n hn hstrb
  have hstart := (AddrPair.range_of_covers b.req.covers).1
  rw [AddressIn.toNat_getAddr] at hstart
  rw [hlane] at hend
  have hin : b.req.m.fpgaAddr.toNat ≤ b.runningAddr + n := by
    rw [runningAddr]
    omega
  rw [location, hlane, AddrPair.location, if_pos ⟨hin, hend⟩, Option.some.injEq, runningAddr,
    hostAddr]
  simp only [WriteRequest.burst, MemoryTransaction.new]
  omega

end AxiBeat

theorem addr_slots (c : Config) (rs : List WriteRequest) :
    (slots (rs.map (WriteRequest.burst c))).map BeatSlot.addr =
      (axiBeats rs).map (AxiBeat.hostAddr c) := by
  induction rs using List.reverseRecOn with
  | nil => rfl
  | append_singleton rs r ih =>
    have hbeats : axiBeats (rs ++ [r]) =
        axiBeats rs ++ (List.range (r.aw.len + 1)).map (⟨r, ·⟩) := by
      simp [axiBeats]
    have hfixed : (r.burst c).fixed = decide (r.aw.burst = 0) := rfl
    have hleft : (r.burst c).len - (r.burst c).axiBusBeatsProgress.toNat = r.aw.len + 1 :=
      Nat.add_comm 1 _
    rw [List.map_append, List.map_singleton, slots_append, List.map_append, ih, hbeats,
      List.map_append, MemoryTransaction.lacking, hleft, List.map_map, List.map_map]
    congr 1
    refine List.map_congr_left fun k _ => ?_
    simp only [Function.comp, AxiBeat.hostAddr, AxiBeat.offset, hfixed, decide_eq_true_eq]
    split_ifs <;> rfl

/-! ### The runs of the port -/

section Run

variable {c : Config} {s t : State} {tr : AddressTranslator} {x y : LaneState}
  {a : AddressTranslator × Action}

theorem accepted_acceptAW {aw : AddressIn} {wr : DramWrites}
    (h : s.acceptAW c (fun a => tr.translate (.ofNat a)) aw = some wr) :
    wr.accepted = s.wr.accepted ++ (s.acceptedRequest tr aw).toList.map (WriteRequest.burst c) := by
  rw [State.acceptAW] at h
  rw [State.acceptedRequest]
  split_ifs at h ⊢
  · obtain ⟨ad, had, rfl⟩ := Option.map_eq_some_iff.mp h
    obtain ⟨m, hfind, hplace⟩ := AddressTranslator.exists_location had
    rw [aw.toNat_getAddr, AddrPair.location] at hplace
    split_ifs at hplace
    obtain rfl := Option.some.inj hplace
    split
    · next hnone =>
      rw [hfind] at hnone
      cases hnone
    · next m' hm' =>
      obtain rfl : m = m' := Option.some.inj (hfind.symm.trans hm')
      rfl
  · cases h
    simp

theorem accepted_of_dram {a : Action} (hok : WritesOk s.wr)
    (ha : ∀ translate i, a ≠ .tickSignals translate i) (ht : step c s a = some t) :
    t.wr.accepted = s.wr.accepted := by
  rcases step_cases ht with ⟨translate, i, rfl⟩ | ⟨hdram, -, -⟩
  · exact absurd rfl (ha translate i)
  · exact (hdram.waiting hok).1

theorem accepted_step {a : Action} (hok : WritesOk s.wr) (ht : step c s (a.under tr) = some t) :
    t.wr.accepted = s.wr.accepted ++ (requests s (tr, a)).map (WriteRequest.burst c) := by
  cases a with
  | tickSignals translate i =>
    obtain ⟨wr, num, hwr, htwr, -⟩ := State.tickSignals_write ht
    rw [htwr, (State.acceptW_frame ..).2, accepted_acceptAW hwr]
    rfl
  | readCallback addr outside | writeCallback addr | tryToEnqueueDdr accepts =>
    simpa [requests] using accepted_of_dram hok (by simp [Action.under]) ht

theorem accepted_of_reaches {ok : LaneState → AddressTranslator × Action → Prop}
    (h : (lanePort c).Reaches ok x) : x.1.1.wr.accepted = x.2.map (WriteRequest.burst c) := by
  refine System.Reaches.invariant_of
    (I := fun x : LaneState => x.1.1.wr.accepted = x.2.map (WriteRequest.burst c))
    (J := fun x => WritesOk x.1.1.wr) (fun x hx => ?_) rfl ?_ h
  · exact WritesOk.of_reaches hx.of_logged.of_relabel.of_logged
  · intro x a y hok hx _ hstep
    obtain ⟨hstep', hrequests⟩ := System.logged_step hstep
    rw [hrequests, List.map_append, ← hx]
    exact accepted_step hok (System.logged_step hstep').1

theorem beatsOf_tick {translate : ℕ → Option ℕ} {i : Inputs} {wr : DramWrites}
    (hwr : s.acceptAW c translate i.aw = some wr) (l : List WriteEvent) :
    beatsOf (l ++ writeEvents c s (.tickSignals translate i)) =
      beatsOf l ++ if i.w.valid && s.w.wReady then [i.w] else [] := by
  rw [writeEvents_tickSignals hwr, beatsOf_append, beatsOf_append, beatsOf_responseEvents,
    List.nil_append, beatEvents]
  congr 1
  split_ifs
  · cases wr.writeTransactions <;> rfl
  · rfl

theorem reaches_writePort (h : (lanePort c).Reaches (DataFollows c) x) :
    (writePort c).Reaches (BeatsFollow c) x.1 := by
  refine System.Reaches.invariant (I := fun x : LaneState => (writePort c).Reaches _ x.1)
    (.init _ _) ?_ h
  intro x a y hx hfollow hstep
  exact hx.step hfollow (System.logged_step hstep).1

/-- What a tick does to the host's memory: a beat of data is stored at the address of its slot. -/
theorem host_tick {l : List WriteEvent} {translate : ℕ → Option ℕ} {i : Inputs}
    (hdata : DataOk s.wr l) (hok : WritesOk s.wr)
    (hfollow : BeatsFollow c (s, l) (.tickSignals translate i))
    (ht : s.tickSignals c translate i = some t) :
    ((i.w.valid && s.w.wReady) = false ∧ t.host = s.host) ∨
      ((i.w.valid && s.w.wReady) = true ∧
        ∃ slot ∈ (slots t.wr.accepted)[(beatsOf l).length]?,
          t.host = State.storeBeat c i.w slot.addr s.host) := by
  obtain ⟨wr, num, hwr, htwr, hhost, -⟩ := State.tickSignals_write ht
  have hdata' := (hdata.acceptAW hok hwr).1
  cases hfire : i.w.valid && s.w.wReady with
  | true =>
    obtain ⟨slot, hslot, -⟩ := hfollow hfire wr hwr
    obtain ⟨j, rest, hq, -⟩ := hdata'.next_slot hslot
    have hnext : _ = slot := Option.some.inj ((hdata'.getElem?_slots hq).symm.trans hslot)
    refine .inr ⟨rfl, slot, ?_, ?_⟩
    · rw [htwr, (State.acceptW_frame ..).2]
      exact hslot
    · rw [hhost, ← hnext, State.acceptW, hq]
      simp only [hfire, if_true]
  | false =>
    refine .inl ⟨rfl, ?_⟩
    rw [hhost, State.acceptW]
    split
    · rfl
    · simp only [hfire, Bool.false_eq_true, if_false]

/-- What a step does to the host's memory: a beat of data is stored for the beat that AXI assigns it
to, from the host address of that beat on. -/
theorem host_cases (hreach : (lanePort c).Reaches (DataFollows c) x) (hfollow : DataFollows c x a)
    (hstep : (lanePort c).step x a = some y) :
    (newData x y = none ∧ y.1.1.host = x.1.1.host) ∨
      ∃ w b, newData x y = some w ∧ nextBeat x y = some b ∧
        y.1.1.host = State.storeBeat c w (b.hostAddr c) x.1.1.host := by
  have hreach' := reaches_writePort hreach
  have hdata := DataOk.of_reaches hreach'
  have hok := WritesOk.of_reaches hreach'.of_logged
  have haccepted := accepted_of_reaches (hreach.step hfollow hstep)
  obtain ⟨hstep', -⟩ := System.logged_step hstep
  obtain ⟨ht, hlog⟩ := System.logged_step hstep'
  rw [newData, nextBeat, hlog]
  rcases step_cases ht with ⟨translate, i, heq⟩ | ⟨-, hhost, hevents⟩
  · have hfollow' : BeatsFollow c x.1 (.tickSignals translate i) := heq ▸ hfollow
    rw [heq] at ht ⊢
    obtain ⟨wr, -, hwr, -, -⟩ := State.tickSignals_write ht
    rw [beatsOf_tick hwr]
    rcases host_tick hdata hok hfollow' ht with ⟨hfire, hhost⟩ | ⟨hfire, slot, hslot, hhost⟩
    · exact .inl ⟨by simp [hfire], hhost⟩
    · -- the slots of the accepted bursts are the beats of their requests
      have hbeat : (axiBeats y.2)[(beatsOf x.1.2).length]?.map (AxiBeat.hostAddr c) =
          some slot.addr := by
        rw [← List.getElem?_map, ← addr_slots, ← haccepted, List.getElem?_map, hslot]
        rfl
      obtain ⟨b, hb, hhostAddr⟩ := Option.map_eq_some_iff.mp hbeat
      exact .inr ⟨i.w, b, by simp [hfire], hb, hhostAddr ▸ hhost⟩
  · rw [hevents, List.append_nil]
    exact .inl ⟨by simp, hhost⟩

end Run

/-- **Byte lanes**: a step from any state that is reached while the beats of data follow their
requests stores the strobed bytes of a beat that is in place at their device addresses, and changes
no other byte. -/
theorem lanes_stored {c : Config} {x y : LaneState} {a : AddressTranslator × Action}
    (hreach : (lanePort c).Reaches (DataFollows c) x) (hfollow : DataFollows c x a)
    (hstep : (lanePort c).step x a = some y)
    (hplace : ∀ w ∈ newData x y, ∀ b ∈ nextBeat x y, b.InPlace c w) : LanesStored c x y := by
  rcases host_cases hreach hfollow hstep with ⟨hnone, hhost⟩ | ⟨w, b, hw, hb, hhost⟩
  · refine ⟨fun w hw => ?_, fun p _ => congrFun hhost p⟩
    rw [hnone] at hw
    cases hw
  · have hin := hplace w hw b hb
    refine ⟨fun w' hw' => ?_, fun p hp => ?_⟩
    · obtain rfl : w = w' := Option.some.inj (hw.symm.trans hw')
      refine ⟨b, hb, fun n hn hstrb => ⟨_, hin.location_eq hn hstrb, ?_⟩⟩
      rw [hhost, State.storeBeat_apply, Nat.add_sub_cancel_left, if_pos ⟨by omega, by omega, hstrb⟩]
    · rw [hhost, State.storeBeat_apply, if_neg]
      rintro ⟨hle, hlt, hstrb⟩
      have hlane : p - b.hostAddr c < c.dataBusBytes := by omega
      refine hp w hw b hb _ hlane hstrb ?_
      rw [hin.location_eq hlane hstrb, Nat.add_sub_cancel' hle]

/-- An incrementing burst of two beats of `2 ^ size` bytes at the address 64, up to its first beat,
under a mapping of 64 bytes at that address. -/
def burstAtMapping (size : ℕ) (w : WriteDataIn) : List (AddressTranslator × Action) :=
  [Inputs.idle, { Inputs.idle with aw := .incr 3 size 64 1 }, { Inputs.idle with w := w }].map
    fun i => (singleMapping ⟨64, 64, 4096⟩, .tickSignals (fun _ => none) i)

/-- The step in which the last beat of a burst comes. -/
def lastBeat (strb : ℕ) : AddressTranslator × Action :=
  (singleMapping ⟨64, 64, 4096⟩,
    .tickSignals (fun _ => none) { Inputs.idle with w := ⟨true, fun _ => 5, strb, true⟩ })

/-- The second beat of a burst that uses the whole bus. -/
theorem lanes_stored_full : ∃ x y, (lanePort smallConfig).Reaches (DataFollows smallConfig) x ∧
    (lanePort smallConfig).step x (lastBeat 255) = some y ∧ (newData x y).isSome ∧
    LanesStored smallConfig x y := by
  obtain ⟨x, hreach, hfollow, hlast⟩ := System.exists_reaches (lanePort smallConfig)
    (DataFollows smallConfig)
    (fun x => DataFollows smallConfig x (lastBeat 255) ∧
      ∃ y ∈ (lanePort smallConfig).step x (lastBeat 255), (newData x y).isSome ∧
        ∀ w ∈ newData x y, ∀ b ∈ nextBeat x y, b.InPlace smallConfig w)
    (burstAtMapping 3 ⟨true, fun _ => 5, 255, false⟩) (by decide +kernel)
  obtain ⟨y, hstep, hdata, hplace⟩ := hlast
  exact ⟨x, y, hreach, hstep, hdata, lanes_stored hreach hfollow hstep hplace⟩

/-- The second beat of a burst of two beats of four bytes on a bus of eight: AXI has it on the upper
four lanes, at the addresses 68 to 71, and the port stores it at the addresses 72 to 75. -/
theorem not_lanes_stored : ∃ x y, (lanePort smallConfig).Reaches (DataFollows smallConfig) x ∧
    DataFollows smallConfig x (lastBeat 240) ∧
    (lanePort smallConfig).step x (lastBeat 240) = some y ∧
    (∃ b ∈ nextBeat x y, b.req.aw.burst = 1 ∧ b.req.aw.addr = 64 ∧ b.number = 1 ∧
      2 ^ (b.req.aw.size : ℕ) = 4 ∧ b.location smallConfig 4 = some 4100) ∧
    (∀ n < 4, y.1.1.host (4100 + n) = 0 ∧ y.1.1.host (4104 + n) = 5) ∧
    ¬ LanesStored smallConfig x y := by
  obtain ⟨x, hreach, hfollow, hlast⟩ := System.exists_reaches (lanePort smallConfig)
    (DataFollows smallConfig)
    (fun x => DataFollows smallConfig x (lastBeat 240) ∧
      ∃ y ∈ (lanePort smallConfig).step x (lastBeat 240),
        (∃ w ∈ newData x y, w.strb.testBit 4 = true ∧ w.data 4 = 5) ∧
        (∃ b ∈ nextBeat x y, b.req.aw.burst = 1 ∧ b.req.aw.addr = 64 ∧ b.number = 1 ∧
          2 ^ (b.req.aw.size : ℕ) = 4 ∧ b.location smallConfig 4 = some 4100) ∧
        ∀ n < 4, y.1.1.host (4100 + n) = 0 ∧ y.1.1.host (4104 + n) = 5)
    (burstAtMapping 2 ⟨true, fun _ => 5, 15, false⟩) (by decide +kernel)
  obtain ⟨y, hstep, ⟨w, hw, hstrb, hdata⟩, hbeat, hhost⟩ := hlast
  refine ⟨x, y, hreach, hfollow, hstep, hbeat, hhost, fun h => ?_⟩
  obtain ⟨b, hb, hplaced⟩ := hbeat
  obtain ⟨b', hb', hstored⟩ := h.stored w hw
  obtain rfl : b = b' := Option.some.inj (hb.symm.trans hb')
  obtain ⟨p, hp, hbyte⟩ := hstored 4 (by decide) hstrb
  obtain rfl : 4100 = p := Option.some.inj (hplaced.2.2.2.2.symm.trans hp)
  have hzero : y.1.1.host 4100 = 0 := (hhost 0 (by decide)).1
  rw [hzero, hdata] at hbyte
  exact absurd hbyte (by decide)

end Beethoven.Memory
