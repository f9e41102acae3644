import Mathlib.Data.Nat.Bits
import Mathlib.Tactic.Linarith

/-!
# Commands and responses

The records that travel between clients, runtime and hardware
(`libbeethoven/include/beethoven/rocc_cmd.h`, `rocc_response.h`), the packing of a command into five
words (`rocc_cmd::pack`), and the decoding of a response from three words.
-/

namespace Beethoven.Command

/-- `system_core_pair`. -/
structure SystemCorePair where
  system : ℕ
  core : ℕ
  deriving DecidableEq, Repr

/-- `rocc_cmd`. -/
structure RoccCmd where
  function : UInt16 := 0
  systemId : UInt16 := 0
  opcode : UInt8 := 0
  xd : UInt8 := 0
  rd : UInt8 := 0
  xs1 : UInt8 := 0
  xs2 : UInt8 := 0
  coreId : UInt16 := 0
  rs1 : UInt64 := 0
  rs2 : UInt64 := 0
  deriving DecidableEq, Repr

namespace RoccCmd

variable (c : RoccCmd)

/-- `getSystemId`. -/
def getSystemId : UInt16 := c.systemId

/-- `getCoreId`, which returns the low byte of the core id. -/
def getCoreId : UInt8 := c.coreId.toUInt8

/-- The command expects a response (`getXd`). -/
def getXd : Bool := c.xd != 0

/-- The key under which the command server files a command. -/
def key : SystemCorePair := ⟨c.getSystemId.toNat, c.getCoreId.toNat⟩

/-- The `CHECK`s of `pack`; the process exits when one of them fails. -/
def check : Bool :=
  c.function.toNat < 2 ^ 3 && c.systemId.toNat < 2 ^ 4 && c.coreId.toNat < 2 ^ 10 &&
    c.rd.toNat < 2 ^ 5 && c.xs1.toNat < 2 && c.xs2.toNat < 2

/-- The first of the packed words, with `rd` the destination in use. -/
def packWord0 (rd : ℕ) : ℕ :=
  let funct := ((c.systemId.toNat <<< 3) &&& 0x78) ||| (c.function.toNat &&& 0x7)
  (c.opcode.toNat &&& 0x7F) ||| ((rd &&& 0x1F) <<< 7) ||| ((c.xs2.toNat &&& 0x1) <<< 12) |||
    ((c.xs1.toNat &&& 0x1) <<< 13) ||| ((c.xd.toNat &&& 0x1) <<< 14) |||
    ((c.coreId.toNat &&& 0x1F) <<< 15) ||| (((c.coreId.toNat &&& 0x3E0) >>> 5) <<< 20) |||
    ((funct &&& 0x7F) <<< 25)

/-- `rocc_cmd::pack` with its host-side checks: the five words, or none if the process exits. An
override of 255 keeps the command's own `rd`. -/
def pack (rdOverride : UInt8) : Option (List ℕ) :=
  if c.check then
    let rd := if rdOverride = 255 then c.rd else rdOverride
    some [c.packWord0 rd.toNat, c.rs1.toNat >>> 32, c.rs1.toNat &&& 0xFFFFFFFF,
      c.rs2.toNat >>> 32, c.rs2.toNat &&& 0xFFFFFFFF]
  else none

theorem length_pack {c : RoccCmd} {rdOverride : UInt8} {words : List ℕ}
    (h : c.pack rdOverride = some words) : words.length = 5 := by
  by_cases hcheck : c.check
  · rw [pack, if_pos hcheck] at h
    obtain rfl := Option.some.inj h
    rfl
  · rw [pack, if_neg hcheck] at h
    exact absurd h (by simp)

end RoccCmd

/-- `beethoven_pack_info`: the widths of the id fields of a response. -/
structure PackInfo where
  systemIdBits : ℕ
  coreIdBits : ℕ
  deriving DecidableEq, Repr

/-- The three words of a response. -/
structure ResponseBuffer where
  word0 : UInt32
  word1 : UInt32
  word2 : UInt32
  deriving DecidableEq, Repr

/-- `rocc_response`. -/
structure RoccResponse where
  data : UInt64 := 0
  coreId : UInt8 := 0
  systemId : UInt8 := 0
  rd : UInt8 := 0
  deriving DecidableEq, Repr

/-- The constructor of `rocc_response` from a buffer. -/
def RoccResponse.ofBuffer (info : PackInfo) (buffer : ResponseBuffer) : RoccResponse where
  rd := buffer.word2.toUInt8 &&& 0x1F
  systemId := UInt8.ofNat ((buffer.word2.toNat >>> 5) &&& ((1 <<< info.systemIdBits) - 1))
  coreId := UInt8.ofNat
    ((buffer.word2.toNat >>> (5 + info.systemIdBits)) &&& ((1 <<< info.coreIdBits) - 1))
  data := buffer.word0.toUInt64 ||| (buffer.word1.toUInt64 <<< 32)

/-- The key under which `register_reponse` looks a response up. -/
def RoccResponse.key (r : RoccResponse) : SystemCorePair := ⟨r.systemId.toNat, r.coreId.toNat⟩

/-- The id fields of the buffer, in the widths of the design, hold the ids of the command. -/
def ResponseBuffer.Carries (info : PackInfo) (buffer : ResponseBuffer) (c : RoccCmd) : Prop :=
  buffer.word2.toNat / 2 ^ 5 % 2 ^ info.systemIdBits = c.systemId.toNat ∧
    buffer.word2.toNat / 2 ^ (5 + info.systemIdBits) % 2 ^ info.coreIdBits = c.coreId.toNat

instance (info : PackInfo) (buffer : ResponseBuffer) (c : RoccCmd) :
    Decidable (buffer.Carries info c) :=
  inferInstanceAs (Decidable (_ ∧ _))

/-- The key of a response is that of the command whose ids it carries, if the system id fits a byte;
both sides keep the low byte of the core id. -/
theorem RoccResponse.key_ofBuffer {info : PackInfo} {buffer : ResponseBuffer} {c : RoccCmd}
    (h : buffer.Carries info c) (hsystem : c.systemId.toNat < 256) :
    (RoccResponse.ofBuffer info buffer).key = c.key := by
  obtain ⟨hs, hc⟩ := h
  simp only [RoccResponse.key, RoccResponse.ofBuffer, RoccCmd.key, RoccCmd.getSystemId,
    RoccCmd.getCoreId, Nat.one_shiftLeft, Nat.and_two_pow_sub_one_eq_mod,
    Nat.shiftRight_eq_div_pow, hs, hc, SystemCorePair.mk.injEq, UInt16.toNat_toUInt8]
  exact ⟨Nat.mod_eq_of_lt hsystem, rfl⟩

end Beethoven.Command
