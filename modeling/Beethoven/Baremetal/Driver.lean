import Mathlib.Data.UInt
import Beethoven.Command.Packing
import Beethoven.Lib.TransitionSystem

/-!
# The baremetal driver

On a baremetal target `rocc_cmd::send` and `response_getter` of the library drive the hardware
themselves. A command that expects a response is packed with an id in its `rd` field, which is taken
from two masks, `actives` and `valid_resps`, and its handle has the same id. The hardware returns
the responses in any order. `get` on a handle reads responses until it finds the one with its id; a
response with another id is put into the array `resps`.

The hardware returns one response to every command, with the `rd` field of the command. A call of
`get` is one step, which is taken when the hardware has returned all the responses that it reads.
-/

namespace Beethoven.Baremetal

open Lib Command

/-! ### Packing -/

/-- `rocc_cmd::pack` without the checks, which are left out on baremetal targets. -/
def packBaremetal (c : RoccCmd) (rdOverride : UInt8) : List ℕ :=
  let rd := if rdOverride = 255 then c.rd else rdOverride
  [c.packWord0 rd.toNat, c.rs1.toNat >>> 32, c.rs1.toNat &&& 0xFFFFFFFF, c.rs2.toNat >>> 32,
    c.rs2.toNat &&& 0xFFFFFFFF]

/-- The `rd` field of the first packed word. -/
def rdField (word : ℕ) : ℕ := (word >>> 7) &&& 0x1F

theorem rdField_packWord0 (c : RoccCmd) (rd : ℕ) : rdField (c.packWord0 rd) = rd % 2 ^ 5 := by
  have hget : rdField (c.packWord0 rd) = WordField.rd.bits.get (c.packWord0 rd) :=
    Nat.and_two_pow_sub_one_eq_mod _ 5
  rw [hget, get_packWord0]
  rfl

/-! ### The driver -/

/-- `__builtin_ffs`: one more than the index of the lowest bit that is set, or zero. -/
def ffs (x : UInt32) : UInt8 :=
  match (List.range 32).find? fun i => x.toNat.testBit i with
  | none => 0
  | some i => .ofNat (i + 1)

/-- The global variables of the driver. -/
structure Driver where
  actives : UInt32
  validResps : UInt32
  resps : ℕ → RoccResponse

namespace Driver

/-- All of them are zero at the start. -/
def init : Driver := ⟨0, 0, fun _ => {}⟩

variable (d : Driver)

/-- The flag of an id in the masks. The shift of the source is undefined for ids above 31. -/
def respFlag (id : UInt8) : UInt32 := 1 <<< id.toUInt32

/-- The id with which `send` packs a command that expects a response. Where the first free bit is
the last one, `send` waits for a response with a getter of id 255, and where there is none it marks
the id 0 as active; both shift by an undefined amount. -/
def takeId : Option (UInt8 × Driver) :=
  let id := ffs (~~~d.actives ||| ~~~d.validResps)
  if id = 32 ∨ id = 0 then none
  else some (id, { d with actives := d.actives ||| respFlag (id - 1) })

/-- `get_help` of a getter, on the responses that the hardware returns: what it returns, the driver
afterwards and the responses that it leaves. A blocking call that finds no response keeps
waiting. -/
def getHelp (info : PackInfo) (id : UInt8) (block : Bool) (d : Driver) :
    List ResponseBuffer → Option (Option RoccResponse × Driver × List ResponseBuffer)
  | [] =>
    if d.validResps &&& respFlag id = respFlag id then
      some (some (d.resps id.toNat), { d with
        validResps := d.validResps ^^^ respFlag id
        actives := d.actives ^^^ respFlag id }, [])
    else if block then none
    else some (none, d, [])
  | buf :: arrivals =>
    if d.validResps &&& respFlag id = respFlag id then
      some (some (d.resps id.toNat), { d with
        validResps := d.validResps ^^^ respFlag id
        actives := d.actives ^^^ respFlag id }, buf :: arrivals)
    else
      let r := RoccResponse.ofBuffer info buf
      if id = r.rd then some (some r, { d with actives := d.actives ^^^ respFlag id }, arrivals)
      else getHelp info id true { d with
        resps := Function.update d.resps r.rd.toNat r
        validResps := d.validResps ||| respFlag id } arrivals

end Driver

/-! ### The programs -/

/-- A command that was sent: the id in its handle, and the `rd` field of its packed words. -/
structure SentCommand where
  id : UInt8
  rd : ℕ
  deriving DecidableEq, Repr

/-- The driver, the program and the hardware. -/
structure Program where
  driver : Driver
  /-- The commands whose responses have not been collected. -/
  outstanding : List SentCommand
  /-- The `rd` fields of the commands that the hardware has not answered. -/
  unanswered : List ℕ
  /-- The responses that the hardware has returned and the driver has not read. -/
  arrivals : List ResponseBuffer
  /-- History: the responses that the hardware has returned. -/
  returned : List RoccResponse
  /-- History: what the calls of `get` have returned, each with the id of the handle. -/
  collected : List (UInt8 × RoccResponse)

namespace Program

/-- The program sends a command, the hardware returns a response, or the program calls `get` on one
of its handles. -/
inductive Action where
  | send (c : RoccCmd)
  | respond (buf : ResponseBuffer)
  | get (k : ℕ)

/-- A program that holds handles of commands that the hardware has not answered. -/
def holding (driver : Driver) (sent : List SentCommand) : Program :=
  ⟨driver, sent, sent.map SentCommand.rd, [], [], []⟩

variable (info : PackInfo) (s : Program)

/-- `rocc_cmd::send`. A command that expects no response is packed with its own `rd`. -/
def send (c : RoccCmd) : Option Program :=
  if c.getXd then do
    let (id, driver) ← s.driver.takeId
    let rd := rdField ((packBaremetal c id).headD 0)
    return { s with
      driver
      outstanding := s.outstanding ++ [⟨id, rd⟩]
      unanswered := s.unanswered ++ [rd] }
  else some s

/-- The hardware returns the response to a command. -/
def respond (buf : ResponseBuffer) : Option Program :=
  let r := RoccResponse.ofBuffer info buf
  if r.rd.toNat ∈ s.unanswered then
    some { s with
      unanswered := s.unanswered.erase r.rd.toNat
      arrivals := s.arrivals ++ [buf]
      returned := s.returned ++ [r] }
  else none

/-- `get` on the handle number `k` of the uncollected ones. -/
def get (k : ℕ) : Option Program := do
  let h ← s.outstanding[k]?
  let (r, driver, arrivals) ← s.driver.getHelp info h.id true s.arrivals
  let r ← r
  return { s with
    driver, arrivals
    outstanding := s.outstanding.eraseIdx k
    collected := s.collected ++ [(h.id, r)] }

def step : Action → Option Program
  | .send c => s.send c
  | .respond buf => s.respond info buf
  | .get k => s.get info k

end Program

/-- The programs from a given state. -/
def programs (info : PackInfo) (init : Program) : System Program Program.Action :=
  ⟨init, fun s => s.step info⟩

/-! ### The masks -/

namespace Driver

variable {info : PackInfo} {id : UInt8} {d : Driver} {buf : ResponseBuffer}
  {arrivals : List ResponseBuffer}

theorem respFlag_ne_zero (id : UInt8) : respFlag id ≠ 0 := by
  intro h
  have hnat := congrArg UInt32.toNat h
  have hlt : id.toUInt32.toNat % 32 < 32 := Nat.mod_lt _ (by decide)
  rw [respFlag, UInt32.toNat_shiftLeft, UInt32.toNat_one, Nat.one_shiftLeft,
    Nat.mod_eq_of_lt (Nat.pow_lt_pow_right (by decide) hlt)] at hnat
  exact absurd hnat (by positivity)

/-- A response that is marked as stored is returned at once. -/
theorem getHelp_of_valid {block : Bool} (h : d.validResps &&& respFlag id = respFlag id) :
    d.getHelp info id block arrivals = some (some (d.resps id.toNat), { d with
      validResps := d.validResps ^^^ respFlag id
      actives := d.actives ^^^ respFlag id }, arrivals) := by
  cases arrivals with
  | nil => rw [getHelp, if_pos h]
  | cons buf arrivals => rw [getHelp, if_pos h]

/-- While no response is marked as stored, `get` reads one response. It returns the response if that
has its own id. Otherwise it stores the response under the id of the response, but marks its own id
as stored, and returns what was stored under that. -/
theorem getHelp_of_valid_eq_zero (h : d.validResps = 0) :
    d.getHelp info id true (buf :: arrivals) =
      let r := RoccResponse.ofBuffer info buf
      if id = r.rd then some (some r, { d with actives := d.actives ^^^ respFlag id }, arrivals)
      else some (some (d.resps id.toNat), { d with
        resps := Function.update d.resps r.rd.toNat r
        actives := d.actives ^^^ respFlag id }, arrivals) := by
  have hnot : ¬ d.validResps &&& respFlag id = respFlag id := by
    rw [h, UInt32.zero_and]
    exact (respFlag_ne_zero id).symm
  rw [getHelp, if_neg hnot]
  dsimp only
  by_cases hid : id = (RoccResponse.ofBuffer info buf).rd
  · rw [if_pos hid, if_pos hid]
  · have hne : id.toNat ≠ (RoccResponse.ofBuffer info buf).rd.toNat :=
      fun heq => hid (UInt8.toNat_inj.mp heq)
    rw [if_neg hid, if_neg hid, h, UInt32.zero_or, getHelp_of_valid (UInt32.and_self ..)]
    simp only [UInt32.xor_self, Function.update_of_ne hne]

end Driver

end Beethoven.Baremetal
