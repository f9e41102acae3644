import Beethoven.Command.Rocc
import Beethoven.Lib.BitField
import Mathlib.Data.UInt

/-!
# The packed formats

`rocc_cmd::pack` spreads the fields of a command over five words, the first of which holds eight
fields. The fields of this word are apart, so that a command is recovered from its packed words.

The runtime files a command under its system and core ids and looks a response up under the ids that
the response carries. Both keep one byte of the core id: the two keys agree, and two cores whose ids
differ by a multiple of 256 have the same key.
-/

namespace Beethoven.Command

open Lib

/-! ### The first word -/

/-- The fields of a command that the first packed word holds. -/
inductive WordField
  | opcode
  | rd
  | xs2
  | xs1
  | xd
  | coreId
  | function
  | systemId
  deriving DecidableEq, Repr

namespace WordField

/-- The bits of the first word that a field is placed in. -/
def bits : WordField → BitField
  | opcode => ⟨0, 7⟩
  | rd => ⟨7, 5⟩
  | xs2 => ⟨12, 1⟩
  | xs1 => ⟨13, 1⟩
  | xd => ⟨14, 1⟩
  | coreId => ⟨15, 10⟩
  | function => ⟨25, 3⟩
  | systemId => ⟨28, 4⟩

/-- The value of a field, with `rd` the destination in use. -/
def value (c : RoccCmd) (rd : ℕ) : WordField → ℕ
  | opcode => c.opcode.toNat
  | .rd => rd
  | xs2 => c.xs2.toNat
  | xs1 => c.xs1.toNat
  | xd => c.xd.toNat
  | coreId => c.coreId.toNat
  | function => c.function.toNat
  | systemId => c.systemId.toNat

/-- All fields, from the low bits to the high bits. -/
def all : List WordField := [opcode, rd, xs2, xs1, xd, coreId, function, systemId]

theorem mem_all (f : WordField) : f ∈ all := by cases f <;> decide

theorem pairwise_apart : all.Pairwise fun f g => f.bits.Apart g.bits := by decide

theorem apart {f g : WordField} (h : f ≠ g) : f.bits.Apart g.bits := by
  revert h
  cases f <;> cases g <;> decide

/-- The fields of the first word with their values. -/
def entries (c : RoccCmd) (rd : ℕ) : List (BitField × ℕ) := all.map fun f => (f.bits, f.value c rd)

theorem entries_apart (c : RoccCmd) (rd : ℕ) :
    (entries c rd).Pairwise fun p q => p.1.Apart q.1 :=
  List.pairwise_map.mpr pairwise_apart

theorem mem_entries (c : RoccCmd) (rd : ℕ) (f : WordField) :
    (f.bits, f.value c rd) ∈ entries c rd :=
  List.mem_map_of_mem (mem_all f)

end WordField

private theorem put_coreId (x : ℕ) :
    ((x &&& 0x1F) <<< 15) ||| (((x &&& 0x3E0) >>> 5) <<< 20) = BitField.put ⟨15, 10⟩ x := by
  have hlow : x &&& 0x1F = x % 2 ^ 5 := Nat.and_two_pow_sub_one_eq_mod x 5
  have hhigh : (x &&& 0x3E0) >>> 5 = (x >>> 5) % 2 ^ 5 := by
    rw [Nat.shiftRight_and_distrib]
    exact Nat.and_two_pow_sub_one_eq_mod (x >>> 5) 5
  rw [hlow, hhigh]
  exact (BitField.put_add_width 15 5 5 x).symm

private theorem put_funct (function systemId : ℕ) :
    ((((systemId <<< 3) &&& 0x78) ||| (function &&& 0x7)) &&& 0x7F) <<< 25 =
      BitField.put ⟨25, 3⟩ function ||| BitField.put ⟨28, 4⟩ systemId := by
  have hfunction : function &&& 0x7 = BitField.put ⟨0, 3⟩ function :=
    Nat.and_two_pow_sub_one_eq_mod function 3
  have hsystem : (systemId <<< 3) &&& 0x78 = BitField.put ⟨3, 4⟩ systemId := by
    have hmask : 0x78 = (2 ^ 4 - 1) <<< 3 := rfl
    rw [hmask, ← Nat.shiftLeft_and_distrib, Nat.and_two_pow_sub_one_eq_mod]
    rfl
  have hlt : BitField.put ⟨3, 4⟩ systemId ||| BitField.put ⟨0, 3⟩ function < 2 ^ 7 :=
    Nat.or_lt_two_pow (BitField.put_lt (by decide)) (BitField.put_lt (by decide))
  have hmod : ∀ x, x < 2 ^ 7 → x &&& 0x7F = x := fun x hx => by
    rw [show 0x7F = 2 ^ 7 - 1 from rfl, Nat.and_two_pow_sub_one_eq_mod, Nat.mod_eq_of_lt hx]
  rw [hfunction, hsystem, hmod _ hlt, Nat.shiftLeft_or_distrib, Nat.lor_comm, BitField.put,
    BitField.put, ← Nat.shiftLeft_add, ← Nat.shiftLeft_add]
  rfl

theorem packWord0_eq_assemble (c : RoccCmd) (rd : ℕ) :
    c.packWord0 rd = BitField.assemble (WordField.entries c rd) := by
  have hmask : ∀ x n offset, (x &&& (2 ^ n - 1)) <<< offset = BitField.put ⟨offset, n⟩ x := by
    intro x n offset
    rw [Nat.and_two_pow_sub_one_eq_mod, BitField.put]
  have hopcode : c.opcode.toNat &&& 0x7F = BitField.put ⟨0, 7⟩ c.opcode.toNat :=
    hmask c.opcode.toNat 7 0
  have hrd : (rd &&& 0x1F) <<< 7 = BitField.put ⟨7, 5⟩ rd := hmask rd 5 7
  have hflag : ∀ x offset, (x &&& 0x1) <<< offset = BitField.put ⟨offset, 1⟩ x := fun x => hmask x 1
  rw [RoccCmd.packWord0, hopcode, hrd, hflag, hflag, hflag, put_funct, Nat.lor_assoc _ _ (_ <<< 20),
    put_coreId]
  simp only [WordField.entries, WordField.all, List.map_cons, List.map_nil, BitField.assemble_cons,
    BitField.assemble_nil, Nat.or_zero, WordField.bits, WordField.value, Nat.lor_assoc]

theorem get_packWord0 (c : RoccCmd) (rd : ℕ) (f : WordField) :
    f.bits.get (c.packWord0 rd) = f.value c rd % 2 ^ f.bits.width := by
  rw [packWord0_eq_assemble]
  exact BitField.get_assemble (WordField.entries_apart c rd) (WordField.mem_entries c rd f)

theorem packWord0_lt (c : RoccCmd) (rd : ℕ) : c.packWord0 rd < 2 ^ 32 := by
  rw [packWord0_eq_assemble]
  refine BitField.assemble_lt fun p hp => ?_
  obtain ⟨f, -, rfl⟩ := List.mem_map.mp hp
  have hfits : f.bits.offset + f.bits.width ≤ 32 := by cases f <;> decide
  exact hfits

/-! ### Decoding -/

namespace RoccCmd

/-- The command passes the checks of `pack` and its other fields fit the first word. -/
def Packable (c : RoccCmd) : Prop := c.check ∧ c.opcode.toNat < 2 ^ 7 ∧ c.xd.toNat < 2

instance (c : RoccCmd) : Decidable c.Packable := inferInstanceAs (Decidable (_ ∧ _ ∧ _))

/-- The command that five packed words stand for. -/
def unpack : List ℕ → Option RoccCmd
  | [word0, rs1High, rs1Low, rs2High, rs2Low] => some
      { function := .ofNat (WordField.function.bits.get word0)
        systemId := .ofNat (WordField.systemId.bits.get word0)
        opcode := .ofNat (WordField.opcode.bits.get word0)
        xd := .ofNat (WordField.xd.bits.get word0)
        rd := .ofNat (WordField.rd.bits.get word0)
        xs1 := .ofNat (WordField.xs1.bits.get word0)
        xs2 := .ofNat (WordField.xs2.bits.get word0)
        coreId := .ofNat (WordField.coreId.bits.get word0)
        rs1 := .ofNat (rs1Low ||| (rs1High <<< 32))
        rs2 := .ofNat (rs2Low ||| (rs2High <<< 32)) }
  | _ => none

variable {c : RoccCmd}

theorem Packable.value_lt (h : c.Packable) (f : WordField) :
    f.value c c.rd.toNat < 2 ^ f.bits.width := by
  obtain ⟨hcheck, hopcode, hxd⟩ := h
  simp only [check, Bool.and_eq_true, decide_eq_true_iff] at hcheck
  obtain ⟨⟨⟨⟨⟨hfunction, hsystem⟩, hcore⟩, hrd⟩, hxs1⟩, hxs2⟩ := hcheck
  cases f with
  | opcode => exact hopcode
  | rd => exact hrd
  | xs2 => exact hxs2
  | xs1 => exact hxs1
  | xd => exact hxd
  | coreId => exact hcore
  | function => exact hfunction
  | systemId => exact hsystem

/-- The fields of a command that can be packed are read back from the first word. -/
theorem Packable.get_packWord0 (h : c.Packable) (f : WordField) :
    f.bits.get (c.packWord0 c.rd.toNat) = f.value c c.rd.toNat := by
  rw [Command.get_packWord0, Nat.mod_eq_of_lt (h.value_lt f)]

private theorem low_or_high (x : UInt64) :
    (x.toNat &&& 0xFFFFFFFF) ||| ((x.toNat >>> 32) <<< 32) = x.toNat := by
  have hsplit := BitField.put_add_width 0 32 32 x.toNat
  have hhigh : x.toNat >>> 32 < 2 ^ 32 := by
    rw [Nat.shiftRight_eq_div_pow, Nat.div_lt_iff_lt_mul (by decide)]
    exact x.toNat_lt
  have hlow : x.toNat &&& 0xFFFFFFFF = x.toNat % 2 ^ 32 := Nat.and_two_pow_sub_one_eq_mod _ 32
  simp only [BitField.put, Nat.shiftLeft_zero, Nat.zero_add, Nat.mod_eq_of_lt hhigh] at hsplit
  rw [hlow, ← hsplit]
  exact Nat.mod_eq_of_lt x.toNat_lt

theorem pack_eq_some (h : c.check) :
    c.pack 255 = some [c.packWord0 c.rd.toNat, c.rs1.toNat >>> 32, c.rs1.toNat &&& 0xFFFFFFFF,
      c.rs2.toNat >>> 32, c.rs2.toNat &&& 0xFFFFFFFF] := by
  rw [pack, if_pos h]
  rfl

theorem lt_of_mem_pack {rdOverride : UInt8} {words : List ℕ} (h : c.pack rdOverride = some words) :
    ∀ w ∈ words, w < 2 ^ 32 := by
  have hhigh : ∀ x : UInt64, x.toNat >>> 32 < 2 ^ 32 := fun x => by
    rw [Nat.shiftRight_eq_div_pow, Nat.div_lt_iff_lt_mul (by decide)]
    exact x.toNat_lt
  have hlow : ∀ x, x &&& 0xFFFFFFFF < 2 ^ 32 := fun x => Nat.and_lt_two_pow x (by decide)
  by_cases hcheck : c.check
  · rw [pack, if_pos hcheck] at h
    obtain rfl := Option.some.inj h
    simp only [List.forall_mem_cons, hhigh, hlow, packWord0_lt, true_and, List.not_mem_nil,
      false_implies, implies_true]
  · rw [pack, if_neg hcheck] at h
    exact absurd h (by simp)

theorem Packable.unpack_pack (h : c.Packable) : (c.pack 255).bind unpack = some c := by
  rw [pack_eq_some h.1, Option.bind_some, unpack]
  simp only [h.get_packWord0, WordField.value, low_or_high, UInt8.ofNat_toNat, UInt16.ofNat_toNat,
    UInt64.ofNat_toNat]

end RoccCmd

/-- The bit `i` of the first packed word depends on the field: it differs between two commands that
differ in this field only. -/
def WordField.Occupies (f : WordField) (i : ℕ) : Prop :=
  ∃ c c' : RoccCmd, c.Packable ∧ c'.Packable ∧
    (∀ g, g ≠ f → g.value c c.rd.toNat = g.value c' c'.rd.toNat) ∧
    (c.packWord0 c.rd.toNat).testBit i ≠ (c'.packWord0 c'.rd.toNat).testBit i

theorem WordField.Occupies.has {f : WordField} {i : ℕ} (h : f.Occupies i) : f.bits.Has i := by
  obtain ⟨c, c', -, -, hagree, hne⟩ := h
  by_contra hhas
  refine hne ?_
  simp only [packWord0_eq_assemble, BitField.testBit_assemble, entries, List.any_map]
  refine congrArg all.any (funext fun g => ?_)
  by_cases hg : g = f
  · simp [hg, hhas]
  · simp [hagree g hg]

/-- **Packing is lossless.** A command that passes the checks, with `opcode` and `xd` in their
widths, is packed into five words of 32 bits from which it is recovered; commands with the same
words are equal; and no bit of the first word depends on two fields. -/
theorem pack_lossless :
    (∀ c : RoccCmd, c.Packable → ∃ words, c.pack 255 = some words ∧ words.length = 5 ∧
      (∀ w ∈ words, w < 2 ^ 32) ∧ RoccCmd.unpack words = some c) ∧
    (∀ c c' : RoccCmd, c.Packable → c'.Packable → c.pack 255 = c'.pack 255 → c = c') ∧
    ∀ (f g : WordField) (i : ℕ), f ≠ g → ¬ (f.Occupies i ∧ g.Occupies i) := by
  refine ⟨fun c h => ?_, fun c c' h h' heq => ?_, fun f g i hne => ?_⟩
  · obtain ⟨words, hwords, hunpack⟩ := Option.bind_eq_some_iff.mp h.unpack_pack
    exact ⟨words, hwords, RoccCmd.length_pack hwords, RoccCmd.lt_of_mem_pack hwords, hunpack⟩
  · refine Option.some.inj ?_
    rw [← h.unpack_pack, heq, h'.unpack_pack]
  · rintro ⟨hf, hg⟩
    exact (WordField.apart hne).not_has hf.has hg.has

/-- The packed words of a command with all its fields in use give the command back. -/
theorem pack_lossless_full :
    let c : RoccCmd := ⟨7, 15, 0x7B, 1, 31, 1, 1, 1023, 0x123456789ABCDEF0, 0xFEDCBA9876543210⟩
    c.Packable ∧ ∃ words, c.pack 255 = some words ∧ words.length = 5 ∧
      (∀ w ∈ words, w < 2 ^ 32) ∧ RoccCmd.unpack words = some c :=
  ⟨by decide, pack_lossless.1 _ (by decide)⟩

/-! ### Keys -/

/-- The keys of two commands are equal exactly when the system ids and the low bytes of the core ids
are. -/
theorem RoccCmd.key_eq_key_iff {c c' : RoccCmd} :
    c.key = c'.key ↔
      c.systemId = c'.systemId ∧ c.coreId.toNat % 2 ^ 8 = c'.coreId.toNat % 2 ^ 8 := by
  rw [RoccCmd.key, RoccCmd.key, SystemCorePair.mk.injEq, getSystemId, getSystemId,
    UInt16.toNat_inj, getCoreId, getCoreId, UInt16.toNat_toUInt8, UInt16.toNat_toUInt8]

/-- **Keys.** The key under which the command server files a command is the key of the responses
that carry its ids; and commands with different ids have different keys when their core ids fit a
byte. -/
theorem key_agreement (c : RoccCmd) (hcheck : c.check) :
    (∀ (info : PackInfo) (buffer : ResponseBuffer), c.systemId.toNat < 2 ^ info.systemIdBits →
      c.coreId.toNat < 2 ^ info.coreIdBits → 5 + info.systemIdBits + info.coreIdBits ≤ 32 →
      buffer.Carries info c → (RoccResponse.ofBuffer info buffer).key = c.key) ∧
    ∀ c' : RoccCmd, c'.check → c.coreId.toNat < 2 ^ 8 → c'.coreId.toNat < 2 ^ 8 →
      (c.systemId, c.coreId) ≠ (c'.systemId, c'.coreId) → c.key ≠ c'.key := by
  refine ⟨fun info buffer _ _ _ hcarries => ?_, fun c' _ hc hc' hne heq => ?_⟩
  · refine RoccResponse.key_ofBuffer hcarries ?_
    simp only [RoccCmd.check, Bool.and_eq_true, decide_eq_true_iff] at hcheck
    omega
  · obtain ⟨hsystem, hcore⟩ := RoccCmd.key_eq_key_iff.mp heq
    rw [Nat.mod_eq_of_lt hc, Nat.mod_eq_of_lt hc'] at hcore
    exact hne (Prod.ext hsystem (UInt16.toNat_inj.mp hcore))

/-- Core 255 of system 1 has the key of its response, and core 255 of system 2 another key. -/
theorem key_agreement_last_core :
    (RoccResponse.ofBuffer ⟨4, 10⟩ ⟨0, 0, 0x1FE20⟩).key =
        (RoccCmd.mk 0 1 0 1 0 0 0 255 0 0).key ∧
      (RoccCmd.mk 0 1 0 1 0 0 0 255 0 0).key ≠ (RoccCmd.mk 0 2 0 1 0 0 0 255 0 0).key :=
  ⟨(key_agreement _ (by decide)).1 ⟨4, 10⟩ ⟨0, 0, 0x1FE20⟩ (by decide) (by decide) (by decide)
    (by decide), (key_agreement _ (by decide)).2 _ (by decide) (by decide) (by decide) (by decide)⟩

/-- The cores 0 and 256 of a system have one key, under which a response of core 256 is looked up as
one of core 0. -/
theorem not_key_agreement :
    let info : PackInfo := ⟨4, 10⟩
    let buffer : ResponseBuffer := ⟨0, 0, 0x20000⟩
    let c : RoccCmd := { coreId := 0, xd := 1 }
    let c' : RoccCmd := { coreId := 256, xd := 1 }
    c.check ∧ c'.check ∧ 5 + info.systemIdBits + info.coreIdBits ≤ 32 ∧ buffer.Carries info c' ∧
      (c.systemId, c.coreId) ≠ (c'.systemId, c'.coreId) ∧ c.key = c'.key ∧
      (RoccResponse.ofBuffer info buffer).key = c.key := by
  decide

end Beethoven.Command
