import Beethoven.Control.Accesses
import Beethoven.Lib.Framing

/-!
# The response stream

A response comes from the device as three words, through `RESP_VALID`, `RESP_BITS` and `RESP_READY`,
and is handed to `register_reponse`. In simulation the words are collected by the response machine
of `AXIControlIntf`, which is started by the update machine; on an FPGA by `poll_thread`.

The machine falls through from `RESPT_READY_WRITE`, where it drives the data of its write, into
`RESPT_READY_WRITE_B`, where it awaits the response to it. A device that answers a write before it
has its data would make the machine go on without the write; `AxiSlave` rules that out.
-/

namespace Beethoven.Control

open Command Lib

/-- The accesses of the response stream: a read of `RESP_VALID` polls, a read of `RESP_BITS`
transfers a word, a write of 1 to `RESP_READY` strobes. It makes no other access to the three
registers. -/
def respKind : Event → StreamEvent ℕ
  | .read .respValid v => .poll (v != 0)
  | .read .respBits w => .data w
  | .write .respReady v => if v = 1 then .strobe else .stray
  | .write .respBits _ | .write .respValid _ | .read .respReady _ => .stray
  | _ => .other

/-- The buffer with which `register_reponse` is called. -/
def called : Event → Option (List ℕ)
  | .registerReponse buffer => some buffer
  | _ => none

/-! ### Traces in progress -/

/-- A trace of the response stream, with the words `buf` that are collected and not yet handed
over. -/
structure Collecting (q : StreamPhase) (buf : List ℕ) (l : List Event) : Prop where
  stream : ∃ ws, PolledStream respKind q ws l
  framing : Framing respKind called respPayloadLength buf l

namespace Collecting

variable {q : StreamPhase} {buf : List ℕ} {l : List Event} {e : Event}

theorem nil : Collecting (.idle false) [] [] := ⟨⟨[], .nil⟩, .nil⟩

theorem other (h : Collecting q buf l) (he : respKind e = .other) (hc : called e = none) :
    Collecting q buf (l ++ [e]) := by
  obtain ⟨ws, hstream⟩ := h.stream
  exact ⟨⟨ws, hstream.other he⟩, h.framing.append_other hc (by simp [he])⟩

theorem append_other {l' : List Event} (h : Collecting q buf l)
    (hl : ∀ e ∈ l', respKind e = .other ∧ called e = none) : Collecting q buf (l ++ l') := by
  induction l' generalizing l with
  | nil => rwa [List.append_nil]
  | cons e l' ih =>
    obtain ⟨he, hc⟩ := hl e List.mem_cons_self
    rw [List.append_cons]
    exact ih (h.other he hc) fun y hy => hl y (List.mem_cons_of_mem e hy)

theorem poll {r : Bool} (h : Collecting (.idle r) buf l) (v : ℕ) :
    Collecting (.idle (v != 0)) buf (l ++ [.read .respValid v]) := by
  obtain ⟨ws, hstream⟩ := h.stream
  exact ⟨⟨ws, hstream.poll rfl⟩, h.framing.append_other rfl (by simp [respKind])⟩

theorem bits (h : Collecting (.idle true) buf l) (v : ℕ) :
    Collecting .loaded (buf ++ [v]) (l ++ [.read .respBits v]) := by
  obtain ⟨ws, hstream⟩ := h.stream
  exact ⟨⟨ws ++ [v], hstream.data rfl⟩, h.framing.append_data rfl rfl⟩

theorem ready (h : Collecting .loaded buf l) :
    Collecting (.idle false) buf (l ++ [.write .respReady 1]) := by
  obtain ⟨ws, hstream⟩ := h.stream
  exact ⟨⟨ws, hstream.strobe rfl⟩, h.framing.append_other rfl (by simp [respKind])⟩

theorem registerReponse (h : Collecting q buf l) (hlength : buf.length = respPayloadLength) :
    Collecting q [] (l ++ [.registerReponse buf]) := by
  obtain ⟨ws, hstream⟩ := h.stream
  exact ⟨⟨ws, hstream.other rfl⟩, h.framing.append_frame rfl (by simp [respKind]) hlength⟩

end Collecting

/-! ### The response machine -/

namespace ResponseTransaction

variable (c : ResponseTransaction)

def phase : StreamPhase :=
  match c.state with
  | .inactive | .recheckValidAddr | .recheckValidRead => .idle false
  | .bitsAddr | .bitsRead => .idle true
  | .readyAddr | .readyWrite | .readyWriteB => .loaded

/-- The words of the response that have been read. -/
def collected : List ℕ := if c.state = .inactive then [] else c.resbuf.take c.progress

/-- The machine has read a word and writes to `RESP_READY`. -/
def Acknowledges : Prop := c.state = .readyAddr ∨ c.state = .readyWrite ∨ c.state = .readyWriteB

/-- The members of the response machine: it is within the buffer. -/
structure Sound : Prop where
  length : c.resbuf.length = respPayloadLength
  progress : c.state ≠ .inactive → c.progress ≤ respPayloadLength
  within : c.state ≠ .inactive → ¬ c.Acknowledges → c.progress < respPayloadLength

variable {c} {i : In} {l : List Event}

theorem collecting_finishWrite (hlength : c.resbuf.length = respPayloadLength)
    (hprogress : c.progress ≤ respPayloadLength) (hvalid : i.bValid = true)
    (h : Collecting .loaded (c.resbuf.take c.progress) l) :
    Collecting (c.finishWrite i).1.phase (c.finishWrite i).1.collected
      (l ++ ([.write .respReady 1] ++ (c.finishWrite i).2.toList.map Event.registerReponse)) ∧
      (c.finishWrite i).1.Sound := by
  have hready := h.ready
  rw [finishWrite, if_pos hvalid]
  split_ifs with hlast
  · -- the third word: the response is registered
    have hall : c.resbuf.take c.progress = c.resbuf := by rw [hlast, ← hlength, List.take_length]
    rw [hall] at hready
    refine ⟨?_, ⟨hlength, by simp, by simp⟩⟩
    simpa [phase, collected] using hready.registerReponse hlength
  · refine ⟨by simpa [phase, collected] using hready, ⟨hlength, fun _ => hprogress, ?_⟩⟩
    intro _ _
    exact lt_of_le_of_ne hprogress hlast

theorem Sound.goto (h : c.Sound) (hactive : c.state ≠ .inactive) {q : RespTransferState}
    (hq : ({ c with state := q } : ResponseTransaction).Acknowledges ∨ ¬ c.Acknowledges) :
    ({ c with state := q } : ResponseTransaction).Sound :=
  ⟨h.length, fun _ => h.progress hactive, fun _ hn => h.within hactive (hq.resolve_left hn)⟩

/-- A tick of the response machine extends the stream, with a device that answers a write only after
its data. -/
theorem Sound.collecting_step (h : c.Sound)
    (haxi : c.state = .readyWrite → i.bValid = true → i.wReady = true)
    (hl : Collecting c.phase c.collected l) :
    Collecting (c.step i).1.phase (c.step i).1.collected
      (l ++ (c.accesses i ++ (c.step i).2.2.toList.map Event.registerReponse)) ∧
      (c.step i).1.Sound := by
  cases hstate : c.state with
  | inactive => exact ⟨by simpa [step, accesses, hstate] using hl, by simpa [step, hstate] using h⟩
  | bitsAddr | recheckValidAddr =>
    have hgoto := fun q =>
      h.goto (q := q) (by simp [hstate]) (.inr (by simp [Acknowledges, hstate]))
    simp only [phase, collected, hstate] at hl
    simp only [step, accesses, hstate]
    cases hready : i.arReady <;> exact ⟨by simpa [phase, collected] using hl, hgoto _⟩
  | bitsRead =>
    have hlt := h.within (by simp [hstate]) (by simp [Acknowledges, hstate])
    simp only [phase, collected, hstate] at hl
    simp only [step, accesses, hstate]
    cases hvalid : i.rValid
    · exact ⟨by simpa [phase, collected, hstate] using hl, by simpa using h⟩
    · have hset : (c.resbuf.set c.progress i.rData).take (c.progress + 1) =
          c.resbuf.take c.progress ++ [i.rData] := by
        rw [List.take_add_one, List.take_set_of_le le_rfl, List.getElem?_set_self (h.length ▸ hlt)]
        rfl
      refine ⟨by simpa [phase, collected, hset] using hl.bits i.rData, ⟨?_, fun _ => hlt, ?_⟩⟩
      · simp [h.length]
      · simp [Acknowledges]
  | readyAddr =>
    have hgoto := fun q hq => h.goto (q := q) (by simp [hstate]) (.inl hq)
    simp only [phase, collected, hstate] at hl
    simp only [step, accesses, hstate]
    cases hready : i.awReady
    · exact ⟨by simpa [phase, collected] using hl, hgoto _ (.inl rfl)⟩
    · exact ⟨by simpa [phase, collected] using hl, hgoto _ (.inr (.inl rfl))⟩
  | readyWrite =>
    have hgoto := fun q hq => h.goto (q := q) (by simp [hstate]) (.inl hq)
    have hprogress := h.progress (by simp [hstate])
    simp only [phase, collected, hstate] at hl
    simp only [step, accesses, hstate]
    cases hvalid : i.bValid
    · -- the response is still awaited
      simp only [finishWrite, hvalid]
      cases hready : i.wReady
      · exact ⟨by simpa [phase, collected] using hl, hgoto _ (.inr (.inl rfl))⟩
      · exact ⟨by simpa [phase, collected] using hl, hgoto _ (.inr (.inr rfl))⟩
    · have hready := haxi hstate hvalid
      simp only [hready, Bool.and_self, if_true]
      exact collecting_finishWrite h.length hprogress hvalid (by simpa using hl)
  | readyWriteB =>
    have hprogress := h.progress (by simp [hstate])
    simp only [phase, collected, hstate] at hl
    simp only [step, accesses, hstate]
    cases hvalid : i.bValid
    · simp only [finishWrite, hvalid]
      exact ⟨by simpa [phase, collected, hstate] using hl, h⟩
    · exact collecting_finishWrite h.length hprogress hvalid (by simpa using hl)
  | recheckValidRead =>
    have hgoto := fun q =>
      h.goto (q := q) (by simp [hstate]) (.inr (by simp [Acknowledges, hstate]))
    simp only [phase, collected, hstate] at hl
    simp only [step, accesses, hstate]
    cases hvalid : i.rValid
    · exact ⟨by simpa [phase, collected, hstate] using hl, by simpa using h⟩
    · have hpoll := hl.poll i.rData
      by_cases hdata : i.rData = 0
      · exact ⟨by simpa [phase, collected, hdata] using hpoll, by simpa [hdata] using hgoto _⟩
      · have hready : (i.rData != 0) = true := by simpa using hdata
        rw [hready] at hpoll
        exact ⟨by simpa [phase, collected, hdata] using hpoll, by simpa [hdata] using hgoto _⟩

end ResponseTransaction

/-! ### The runs of the bus -/

/-- The device answers a write only after its data: in a tick in which it drives `bvalid`, the data
of a write has been accepted, at the latest in the same tick. -/
def AxiSlave (s : State) : Action → Prop
  | .tick i => ∀ t ∈ s.tick i, i.bValid = true → (s.bus.latch t.drives.wires i).w.isSome = true
  | .push _ => True

instance (s : State) : (a : Action) → Decidable (AxiSlave s a)
  | .tick i => inferInstanceAs (Decidable (∀ t ∈ s.tick i, _ → _))
  | .push _ => inferInstanceAs (Decidable True)

theorem respKind_command (i : In) (c : CommandTransaction) :
    ∀ e ∈ c.accesses i, respKind e = .other ∧ called e = none := by
  intro e he
  cases hstate : c.state with
  | bitsWriteB | validWriteB | recheckReadyDat =>
    simp only [CommandTransaction.accesses, hstate] at he
    split_ifs at he
    · rw [List.mem_singleton.mp he]
      exact ⟨rfl, rfl⟩
    · simp at he
  | _ => simp [CommandTransaction.accesses, hstate] at he

/-- The update machine changes nothing of the response machine, except that it starts it. -/
theorem rsp_updateUpdateState (i : In) (c : AXIControlIntf) :
    (c.updateUpdateState i).1.rsp = if c.update = .respWait ∧ i.rValid = true then
      { c.rsp with progress := 0, state := if i.rData ≠ 0 then .bitsAddr else c.rsp.state }
      else c.rsp := by
  cases hu : c.update with
  | idleCmd | idleResp | cmdAddr | respAddr => simp [AXIControlIntf.updateUpdateState, hu]
  | respWait | cmdWait =>
    cases hvalid : i.rValid <;> simp [AXIControlIntf.updateUpdateState, hu, hvalid]

/-- The invariant of the response stream. -/
structure Receiving (s : State) : Prop where
  sound : s.ctl.rsp.Sound
  collecting : Collecting s.ctl.rsp.phase s.ctl.rsp.collected s.trace

namespace Receiving

variable {i : In} {s t : State}

/-- The update machine polls for the response machine while that is at rest. -/
theorem update {c : AXIControlIntf} {l : List Event} (hrsp : c.rsp.state = .inactive)
    (hsound : c.rsp.Sound) (h : Collecting c.rsp.phase c.rsp.collected l) :
    (c.updateUpdateState i).1.rsp.Sound ∧
      Collecting (c.updateUpdateState i).1.rsp.phase (c.updateUpdateState i).1.rsp.collected
        (l ++ c.update.accesses i) := by
  rw [rsp_updateUpdateState]
  by_cases hpoll : c.update = .respWait ∧ i.rValid = true
  · rw [if_pos hpoll]
    simp only [ResponseTransaction.phase, ResponseTransaction.collected, hrsp, if_true] at h
    have hpolled := h.poll i.rData
    simp only [UpdateState.accesses, hpoll.1, hpoll.2, if_true]
    by_cases hdata : i.rData = 0
    · refine ⟨⟨hsound.length, by simp [hdata, hrsp], by simp [hdata, hrsp]⟩, ?_⟩
      simpa [ResponseTransaction.phase, ResponseTransaction.collected, hdata, hrsp] using hpolled
    · have hready : (i.rData != 0) = true := by simpa using hdata
      rw [hready] at hpolled
      refine ⟨⟨hsound.length, fun _ => Nat.zero_le _,
        fun _ _ => (by decide : 0 < respPayloadLength)⟩, ?_⟩
      simpa [ResponseTransaction.phase, ResponseTransaction.collected, hdata] using hpolled
  · rw [if_neg hpoll]
    refine ⟨hsound, h.append_other fun e he => ?_⟩
    cases hu : c.update with
    | respWait =>
      have hinvalid : ¬ i.rValid = true := fun hvalid => hpoll ⟨hu, hvalid⟩
      simp [UpdateState.accesses, hu, hinvalid] at he
    | cmdWait =>
      simp only [UpdateState.accesses, hu] at he
      split_ifs at he
      · rw [List.mem_singleton.mp he]
        exact ⟨rfl, rfl⟩
      · simp at he
    | _ => simp [UpdateState.accesses, hu] at he

theorem tick (h : Receiving s) (hex : Exclusive s.ctl) (hbus : Latched s)
    (haxi : AxiSlave s (.tick i)) (ht : s.tick i = some t) : Receiving t := by
  have hcase := (hex.tick ht).2
  have htrace := (hcase.observed hex hbus).2
  cases hcase with
  | command hactive hcmd hrsp _ _ _ _ _ =>
    rw [AXIControlIntf.accesses, if_pos hactive] at htrace
    refine ⟨hrsp ▸ h.sound, ?_⟩
    rw [hrsp, htrace]
    exact h.collecting.append_other (respKind_command i s.ctl.cmd)
  | response hactive hcmd hrsp _ _ _ hdrives _ =>
    have hinactive := (hex.rsp hactive).1
    rw [AXIControlIntf.accesses, if_neg (not_not_intro hinactive), if_pos hactive] at htrace
    have hwrite : s.ctl.rsp.state = .readyWrite → i.bValid = true → i.wReady = true := by
      intro hstate hvalid
      have hdata := haxi t ht hvalid
      have hbus' : s.bus = { aw := some .respReady } := by
        rw [hbus, AXIControlIntf.latched, if_neg (not_not_intro hinactive), if_pos hactive]
        simp [ResponseTransaction.latched, hstate]
      cases hready : i.wReady with
      | true => rfl
      | false => simp [Bus.latch, hbus', hready] at hdata
    obtain ⟨hcollecting, hsound⟩ := h.sound.collecting_step hwrite h.collecting
    rw [← hrsp, ← htrace] at hcollecting
    exact ⟨hrsp ▸ hsound, hcollecting⟩
  | poll hactive hctl _ _ _ _ =>
    obtain ⟨hcmd, hrsp, -⟩ := hex.update hactive
    rw [AXIControlIntf.accesses, if_neg (not_not_intro hcmd), if_neg (not_not_intro hrsp)] at htrace
    obtain ⟨hsound, hcollecting⟩ := update (i := i) hrsp h.sound h.collecting
    rw [← hctl, ← htrace] at hcollecting
    exact ⟨hctl ▸ hsound, hcollecting⟩
  | start hatRest _ _ _ _ _ hrsp _ _ _ | rest hatRest _ hrsp _ _ _ _ _ =>
    rw [hatRest.accesses, List.append_nil] at htrace
    exact ⟨hrsp ▸ h.sound, by rw [hrsp, htrace]; exact h.collecting⟩

theorem of_reaches (h : control.Reaches AxiSlave s) : Receiving s := by
  have hany : ∀ s, control.Reaches AxiSlave s → control.Reaches System.anyStep s :=
    fun _ hs => hs.mono fun _ _ _ => trivial
  refine h.invariant_of (I := Receiving) (J := fun s => Exclusive s.ctl ∧ Latched s)
    (fun s hs => ⟨.of_reaches (hany s hs), .of_reaches (hany s hs)⟩) ?_ ?_
  · exact ⟨⟨rfl, by simp [control], by simp [control]⟩, .nil⟩
  · rintro s a t ⟨hex, hbus⟩ hs hok ht
    cases a with
    | tick i => exact hs.tick hex hbus hok ht
    | push cmd =>
      obtain rfl := Option.some.inj ht
      exact ⟨hs.sound, hs.collecting⟩

end Receiving

/-! ### The loop of the poll thread -/

/-- The loop over the words of a response. -/
def pollWords : ℕ → Mmio (List ℕ)
  | 0 => pure []
  | n + 1 => do
    let _ ← peekUntil .respValid
    let w ← peekMmio .respBits
    pokeMmio .respReady 1
    let rest ← pollWords n
    pure (w :: rest)

/-- `poll_thread`, for the first `n` times that it is woken up. -/
def pollThread : ℕ → Mmio Unit
  | 0 => pure ()
  | n + 1 => do
    let buf ← pollWords respPayloadLength
    AccessProgram.access (.registerReponse buf)
    pollThread n

/-- The trace of a response stream at any time. -/
private def InProgress (l : List Event) : Prop := ∃ q buf, Collecting q buf l

/-- A trace of the response stream in which `k` responses have been handed over. -/
private def Handed (k : ℕ) (q : StreamPhase) (buf : List ℕ) (l : List Event) : Prop :=
  Collecting q buf l ∧ (framesOf called l).length = k

section Loop

open AccessProgram

theorem triple_pollWords (k n : ℕ) (buf : List ℕ) :
    Triple (Handed k (.idle false) buf) (pollWords n)
      (fun words l => Handed k (.idle false) (buf ++ words) l ∧ words.length = n)
      InProgress := by
  induction n generalizing buf with
  | zero => exact .ret fun l h => ⟨by rwa [List.append_nil], rfl⟩
  | succ n ih =>
    have hsame {l : List Event} {e : Event} (he : called e = none)
        (h : (framesOf called l).length = k) : (framesOf called (l ++ [e])).length = k := by
      rw [framesOf_append, framesOf_singleton_of_none he, List.append_nil, h]
    have hpeek : Triple (Handed k (.idle false) buf) (peekUntil .respValid)
        (fun _ => Handed k (.idle true) buf) (Handed k (.idle false) buf) := by
      refine .readUntil (fun l v hv h => ?_) fun l v hv h => ?_
      · exact ⟨hv ▸ h.1.poll v, hsame rfl h.2⟩
      · exact ⟨hv ▸ h.1.poll v, hsame rfl h.2⟩
    rw [pollWords]
    refine (hpeek.weaken (fun _ _ h => h) fun _ h => ⟨_, _, h.1⟩).bind fun _ => ?_
    refine (Triple.read (Q := fun w => Handed k .loaded (buf ++ [w]))
      (fun l w h => ⟨h.1.bits w, hsame rfl h.2⟩) fun _ h => ⟨_, _, h.1⟩).bind fun w => ?_
    refine (Triple.access (Q := fun _ => Handed k (.idle false) (buf ++ [w]))
      fun l h => ⟨h.1.ready, hsame rfl h.2⟩).bind fun _ => ?_
    refine (ih (buf ++ [w])).bind fun rest => .ret fun l h => ?_
    rw [List.append_assoc] at h
    exact ⟨h.1, by simp [h.2]⟩

theorem triple_pollThread (k n : ℕ) :
    Triple (Handed k (.idle false) []) (pollThread n) (fun _ => Handed (k + n) (.idle false) [])
      InProgress := by
  induction n generalizing k with
  | zero => exact .ret fun l h => h
  | succ n ih =>
    rw [pollThread, Nat.add_succ, ← Nat.succ_add]
    refine (triple_pollWords k respPayloadLength []).bind fun buf => ?_
    refine (Triple.access (Q := fun _ => Handed (k + 1) (.idle false) []) fun l h => ?_).bind
      fun _ => ih (k + 1)
    obtain ⟨⟨hl, hk⟩, hlength⟩ := h
    refine ⟨hl.registerReponse hlength, ?_⟩
    simp [framesOf, called, ← hk]

/-- A word takes a nonzero `RESP_VALID`, and the word itself may be nonzero. -/
theorem consumes_pollWords (n : ℕ) : Consumes (· != 0) (2 * n) (pollWords n) := by
  induction n with
  | zero => exact .ret
  | succ n ih =>
    have h := (Consumes.readUntil (f := Event.read .respValid) (p := (· != 0))).bind fun _ =>
      (Consumes.read (f := Event.read .respBits)).bind fun w =>
        (Consumes.access (e := Event.write .respReady 1)).bind fun _ =>
          ih.bind fun rest => Consumes.ret (a := w :: rest)
    rwa [show 1 + (1 + (0 + (2 * n + 0))) = 2 * (n + 1) by omega] at h

theorem consumes_pollThread (n : ℕ) :
    Consumes (· != 0) (2 * respPayloadLength * n) (pollThread n) := by
  induction n with
  | zero => exact .ret
  | succ n ih =>
    have h := (consumes_pollWords respPayloadLength).bind fun buf =>
      (Consumes.access (e := Event.registerReponse buf)).bind fun _ => ih
    rwa [Nat.zero_add, Nat.add_comm, ← Nat.mul_succ] at h

end Loop

/-! ### The two paths -/

/-- The responses are read under the discipline, and each call of `register_reponse` gets the three
words read since the last one. -/
structure ResponsesFramed (l : List Event) : Prop where
  disciplined : Disciplined respKind l
  framed : Framed respKind called respPayloadLength l

theorem Collecting.responsesFramed {q : StreamPhase} {buf : List ℕ} {l : List Event}
    (h : Collecting q buf l) : ResponsesFramed l := by
  obtain ⟨ws, hstream⟩ := h.stream
  refine ⟨hstream.disciplined, h.framing.framed fun e b he => ?_⟩
  cases e with
  | registerReponse buffer => rfl
  | _ => cases he

/-- What the poll thread has done when it has been woken up `n` times, or is still at it for want of
values to read. Where it comes to the end, `n` responses were handed over, they hold all the words
that were read, and each word was acknowledged. It does come to the end against a device that has
enough nonzero values: a word takes one for `RESP_VALID`, and may be one. -/
structure ResponsesPolled (n : ℕ) (vs : List ℕ) : Prop where
  framed : ResponsesFramed (pollThread n vs).1
  handed : (pollThread n vs).2.isSome → (framesOf called (pollThread n vs).1).length = n
  words : (pollThread n vs).2.isSome →
    dataOf respKind (pollThread n vs).1 = (framesOf called (pollThread n vs).1).flatten
  acknowledged : (pollThread n vs).2.isSome →
    (strobesOf respKind (pollThread n vs).1).length = (dataOf respKind (pollThread n vs).1).length
  finishes : 2 * respPayloadLength * n ≤ vs.countP (· != 0) → (pollThread n vs).2.isSome

theorem ResponsesPolled.of_pollThread (n : ℕ) (vs : List ℕ) : ResponsesPolled n vs := by
  have hfinishes : 2 * respPayloadLength * n ≤ vs.countP (· != 0) →
      (pollThread n vs).2.isSome := by
    intro hvs
    obtain ⟨l, a, vs', hrun, -⟩ := consumes_pollThread n vs hvs
    rw [hrun, Option.isSome_some]
  rcases (triple_pollThread 0 n).result ⟨.nil, rfl⟩ vs with
    ⟨_, _, -, hl, hn⟩ | ⟨hnone, q, buf, hl⟩
  · rw [List.nil_append] at hl hn
    obtain ⟨ws, hstream⟩ := hl.stream
    refine ⟨hl.responsesFramed, fun _ => by rw [hn, Nat.zero_add], fun _ => ?_, fun _ => ?_,
      hfinishes⟩
    · rw [hl.framing.words, List.append_nil]
    · rw [hstream.dataOf_eq, ← hstream.length_strobesOf, if_neg (by simp), Nat.add_zero]
  · exact ⟨hl.responsesFramed, by simp [hnone], by simp [hnone], by simp [hnone], hfinishes⟩

/-- **The response stream.** In every run of the simulated bus against a device that answers a write
only after its data, each call of `register_reponse` gets the three words of `RESP_BITS` that were
read since the last call, each word was read after `RESP_VALID` had read nonzero and is acknowledged
by one write of 1 to `RESP_READY`, and `resbuf` is never indexed past its end. The poll thread makes
the same accesses, in as many rounds as it is woken up. -/
theorem responsesFramed_of_reaches :
    (∀ s, control.Reaches AxiSlave s → ResponsesFramed s.trace ∧
      (s.ctl.rsp.state = .bitsRead → s.ctl.rsp.progress < respPayloadLength)) ∧
    ∀ n vs, ResponsesPolled n vs := by
  refine ⟨fun s hreach => ?_, ResponsesPolled.of_pollThread⟩
  have hs := Receiving.of_reaches hreach
  refine ⟨hs.collecting.responsesFramed, fun hstate => ?_⟩
  exact hs.sound.within (by simp [hstate]) (by simp [ResponseTransaction.Acknowledges, hstate])

/-- A command is sent and its response collected, from a device that answers each write in the tick
after its data; the poll thread collects a response after it has waited. -/
theorem responsesFramed_one_response : (∃ s, control.Reaches AxiSlave s ∧
    framesOf called s.trace = [[1, 1, 1]] ∧ ResponsesFramed s.trace) ∧
      framesOf called (pollThread 1 [0, 1, 4, 1, 5, 0, 1, 6]).1 = [[4, 5, 6]] ∧
        ResponsesPolled 1 [0, 1, 4, 1, 5, 0, 1, 6] := by
  let quiet : Action := .tick { In.responsive with bValid := false }
  let word : List Action := [quiet, quiet, quiet, quiet, .tick .responsive, quiet, quiet,
    .tick .responsive]
  let acknowledge : List Action := List.replicate 6 quiet ++ [.tick .responsive]
  obtain ⟨s, hreach, hframes⟩ := System.exists_reaches control AxiSlave
    (fun s => framesOf called s.trace = [[1, 1, 1]])
    (List.flatten [[.push { xd := 1 }], List.replicate 53 quiet, word, word, word, word, word,
      List.replicate 67 quiet, acknowledge, acknowledge, acknowledge]) (by decide +kernel)
  exact ⟨⟨s, hreach, hframes, (responsesFramed_of_reaches.1 s hreach).1⟩,
    by decide, responsesFramed_of_reaches.2 _ _⟩

end Beethoven.Control
