import Mathlib.Data.List.Perm.Subperm
import Mathlib.Data.Set.Function
import Beethoven.Dram.Configuration

/-!
# The address mapping

`SetAddressMapping` lays out the fields of an address as the configuration says, and
`AddressMapping` reads them. An accepted layout has the six fields one after the other, in some
order, so that the bursts of the memory and the places to which they are mapped correspond one to
one. An address past the end of the memory wraps around.

The widths come from `LogBase2`, which rounds down. Where a count is not a power of two, the places
above the largest power of two below it are never used.
-/

namespace Beethoven.Dram

open Lib (BitField)

namespace Organization

variable {o : Organization} {m : AddressMap}

theorem length_tokens : ∀ l : List Char, (tokens l).length = l.length / 2
  | [] => by simp [tokens]
  | [_] => by simp [tokens]
  | _ :: _ :: rest => by
    rw [tokens, List.length_cons, length_tokens rest, List.length_cons, List.length_cons]
    omega

/-- What `placeFields` does with the fields of its tokens, if all tokens are recognized. -/
def place (o : Organization) : List Field → (pos : ℕ) → (Field → Option ℕ) → Field → Option ℕ
  | [], _, fieldPos => fieldPos
  | f :: l, pos, fieldPos =>
    place o l (pos + o.fieldWidth f) (Function.update fieldPos f (some pos))

theorem placeFields_eq_ok {l : List (List Char)} {pos : ℕ} {fieldPos fieldPos' : Field → Option ℕ}
    (h : o.placeFields l pos fieldPos = .ok fieldPos') :
    ∃ fields : List Field, fields.length = l.length ∧ fieldPos' = o.place fields pos fieldPos := by
  induction l generalizing pos fieldPos with
  | nil =>
    cases h
    exact ⟨[], rfl, rfl⟩
  | cons token rest ih =>
    rw [placeFields] at h
    split at h
    · cases h
    · next f _ =>
      obtain ⟨fields, hlen, hfields⟩ := ih h
      exact ⟨f :: fields, congrArg (· + 1) hlen, hfields⟩

theorem place_of_not_mem {l : List Field} {pos : ℕ} {fieldPos : Field → Option ℕ} {f : Field}
    (hf : f ∉ l) : o.place l pos fieldPos f = fieldPos f := by
  induction l generalizing pos fieldPos with
  | nil => rfl
  | cons g l ih =>
    obtain ⟨hg, hl⟩ := not_or.mp (mt List.mem_cons.mpr hf)
    rw [place, ih hl, Function.update_of_ne hg]

theorem place_append_cons {pre post : List Field} {pos : ℕ} {fieldPos : Field → Option ℕ}
    {f : Field} (hf : f ∉ post) :
    o.place (pre ++ f :: post) pos fieldPos f = some (pos + (pre.map o.fieldWidth).sum) := by
  induction pre generalizing pos fieldPos with
  | nil =>
    rw [List.nil_append, place, place_of_not_mem hf, Function.update_self]
    rfl
  | cons g pre ih =>
    rw [List.cons_append, place, ih, List.map_cons, List.sum_cons, Nat.add_assoc]

theorem fieldAt_eq_ok {fieldPos : Field → Option ℕ} {f : Field} {pos : ℕ} :
    fieldAt fieldPos f = .ok pos ↔ fieldPos f = some pos := by
  rw [fieldAt]
  cases fieldPos f with
  | none => simp
  | some p => simp

/-- Each field of the list is placed right after the fields before it. -/
private theorem exists_pos_of_setAddressMapping (h : o.setAddressMapping = .ok m) :
    ∃ l : List Field, l.Perm Field.all ∧
      ∀ pre f post, l = pre ++ f :: post → m.pos f = 0 + (pre.map o.fieldWidth).sum := by
  rw [setAddressMapping] at h
  split_ifs at h with hlen
  obtain ⟨fieldPos, hplace, h⟩ := Lib.bind_eq_ok.mp h
  obtain ⟨chPos, hch, h⟩ := Lib.bind_eq_ok.mp h
  obtain ⟨raPos, hra, h⟩ := Lib.bind_eq_ok.mp h
  obtain ⟨bgPos, hbg, h⟩ := Lib.bind_eq_ok.mp h
  obtain ⟨baPos, hba, h⟩ := Lib.bind_eq_ok.mp h
  obtain ⟨roPos, hro, h⟩ := Lib.bind_eq_ok.mp h
  obtain ⟨coPos, hco, h⟩ := Lib.bind_eq_ok.mp h
  cases h
  obtain ⟨l, hl, rfl⟩ := placeFields_eq_ok hplace
  rw [List.length_reverse, length_tokens, not_not.mp hlen] at hl
  rw [fieldAt_eq_ok] at hch hra hbg hba hro hco
  -- every field is found, so that every field is among the six tokens
  have hmem (f : Field) (pos : ℕ) (hf : o.place l 0 (fun _ => none) f = some pos) : f ∈ l := by
    by_contra hnot
    rw [place_of_not_mem hnot] at hf
    cases hf
  have hall : Field.all ⊆ l := by
    intro f _
    cases f
    · exact hmem _ _ hch
    · exact hmem _ _ hra
    · exact hmem _ _ hbg
    · exact hmem _ _ hba
    · exact hmem _ _ hro
    · exact hmem _ _ hco
  have hperm : l.Perm Field.all := by
    refine ((List.subperm_of_subset (by decide) hall).perm_of_length_le ?_).symm
    rw [hl]
    decide
  refine ⟨l, hperm, fun pre f post hsplit => ?_⟩
  have hnodup : l.Nodup := hperm.nodup_iff.mpr (by decide)
  have hpost : f ∉ post := by
    rw [hsplit] at hnodup
    exact (List.nodup_cons.mp (List.nodup_append.mp hnodup).2.1).1
  have hpos : o.place (pre ++ f :: post) 0 (fun _ => none) f =
      some (0 + (pre.map o.fieldWidth).sum) := o.place_append_cons hpost
  rw [← hsplit] at hpos
  cases f
  · exact Option.some.inj (hch.symm.trans hpos)
  · exact Option.some.inj (hra.symm.trans hpos)
  · exact Option.some.inj (hbg.symm.trans hpos)
  · exact Option.some.inj (hba.symm.trans hpos)
  · exact Option.some.inj (hro.symm.trans hpos)
  · exact Option.some.inj (hco.symm.trans hpos)

private theorem map_bitField_eq {l : List Field} {offset : ℕ}
    (h : ∀ pre f post, l = pre ++ f :: post → m.pos f = offset + (pre.map o.fieldWidth).sum) :
    l.map (o.bitField m) = BitField.consecutive offset (l.map o.fieldWidth) := by
  induction l generalizing offset with
  | nil => rfl
  | cons f l ih =>
    have hpos : m.pos f = offset := h [] f l rfl
    rw [List.map_cons, List.map_cons, BitField.consecutive, ih, bitField, hpos]
    intro pre g post hl
    rw [h (f :: pre) g post (congrArg (f :: ·) hl), List.map_cons, List.sum_cons, Nat.add_assoc]

/-- **The fields of an accepted mapping**: the six fields in some order, one after the other. -/
theorem setAddressMapping_fields (h : o.setAddressMapping = .ok m) :
    ∃ l : List Field, l.Perm Field.all ∧
      l.map (o.bitField m) = BitField.consecutive 0 (l.map o.fieldWidth) := by
  obtain ⟨l, hperm, hpos⟩ := exists_pos_of_setAddressMapping h
  exact ⟨l, hperm, map_bitField_eq hpos⟩

/-- The bits of a burst that the mapping reads. -/
def addressBits (o : Organization) : ℕ := (Field.all.map o.fieldWidth).sum

private theorem sum_fieldWidth {l : List Field} (h : l.Perm Field.all) :
    (l.map o.fieldWidth).sum = o.addressBits :=
  (h.map o.fieldWidth).sum_nat

theorem bitField_within (h : o.setAddressMapping = .ok m) (f : Field) :
    (o.bitField m f).offset + (o.bitField m f).width ≤ o.addressBits := by
  obtain ⟨l, hperm, hfields⟩ := setAddressMapping_fields h
  have hmem : o.bitField m f ∈ l.map (o.bitField m) :=
    List.mem_map_of_mem (hperm.mem_iff.mpr f.mem_all)
  rw [hfields] at hmem
  have hwithin := (BitField.within_of_mem_consecutive hmem).2
  rwa [sum_fieldWidth hperm, Nat.zero_add] at hwithin

theorem exists_bitField_has (h : o.setAddressMapping = .ok m) {i : ℕ} (hi : i < o.addressBits) :
    ∃ f, (o.bitField m f).Has i := by
  obtain ⟨l, hperm, hfields⟩ := setAddressMapping_fields h
  obtain ⟨g, hg, hhas⟩ : ∃ g ∈ BitField.consecutive 0 (l.map o.fieldWidth), g.Has i :=
    BitField.exists_has_of_consecutive (Nat.zero_le i)
      (by rwa [sum_fieldWidth hperm, Nat.zero_add])
  rw [← hfields] at hg
  obtain ⟨f, -, rfl⟩ := List.mem_map.mp hg
  exact ⟨f, hhas⟩

theorem exists_get_eq (h : o.setAddressMapping = .ok m) {v : Field → ℕ}
    (hv : ∀ f, v f < 2 ^ o.fieldWidth f) :
    ∃ n < 2 ^ o.addressBits, ∀ f, (o.bitField m f).get n = v f := by
  obtain ⟨l, hperm, hfields⟩ := setAddressMapping_fields h
  have hapart : (l.map fun f => (o.bitField m f, v f)).Pairwise fun p q => p.1.Apart q.1 := by
    have hapart := BitField.pairwise_apart_consecutive 0 (l.map o.fieldWidth)
    rw [← hfields, List.pairwise_map] at hapart
    exact List.pairwise_map.mpr hapart
  refine ⟨BitField.assemble (l.map fun f => (o.bitField m f, v f)), ?_, fun f => ?_⟩
  · refine BitField.assemble_lt fun p hp => ?_
    obtain ⟨f, -, rfl⟩ := List.mem_map.mp hp
    exact bitField_within h f
  · have hmem : (o.bitField m f, v f) ∈ l.map fun f => (o.bitField m f, v f) :=
      List.mem_map_of_mem (hperm.mem_iff.mpr f.mem_all)
    rw [BitField.get_assemble hapart hmem]
    exact Nat.mod_eq_of_lt (hv f)

/-- The counts and the length of a burst are powers of two. -/
structure PowersOfTwo (o : Organization) : Prop where
  channels : 2 ^ logBase2 o.channels = o.channels
  ranks : 2 ^ logBase2 o.ranks = o.ranks
  bankgroups : 2 ^ logBase2 o.bankgroups = o.bankgroups
  banksPerGroup : 2 ^ logBase2 o.banksPerGroup = o.banksPerGroup
  rows : 2 ^ logBase2 o.rows = o.rows
  columns : 2 ^ logBase2 o.columns = o.columns
  burstLength : 2 ^ logBase2 o.burstLength = o.burstLength

end Organization

namespace Config

variable {c : Config}

/-- The place with the given coordinates. -/
def placeOf (v : Field → ℕ) : Address := ⟨v .ch, v .ra, v .bg, v .ba, v .ro, v .co⟩

theorem placeOf_inj {v w : Field → ℕ} : placeOf v = placeOf w ↔ v = w := by
  constructor
  · intro h
    simp only [placeOf, Address.mk.injEq, Nat.cast_inj] at h
    obtain ⟨hch, hra, hbg, hba, hro, hco⟩ := h
    funext f
    cases f <;> assumption
  · rintro rfl
    rfl

/-- The bursts of the memory are numbered; this is the address of a burst. -/
def burstAddr (c : Config) (n : ℕ) : ℕ := n <<< c.map.shiftBits

theorem addressMapping_eq_placeOf (hexAddr : ℕ) :
    c.addressMapping hexAddr = placeOf (c.fieldOf hexAddr) :=
  c.addressMapping_eq hexAddr

theorem fieldOf_burstAddr (n : ℕ) (f : Field) :
    c.fieldOf (c.burstAddr n) f = (c.bitField c.map f).get n := by
  rw [fieldOf, burstAddr, Nat.shiftLeft_shiftRight]

/-- The places to which bursts are mapped. -/
def Mapped (c : Config) (p : Address) : Prop :=
  ∃ v : Field → ℕ, p = placeOf v ∧ ∀ f, v f < 2 ^ c.fieldWidth f

/-- The places of the memory: a column is that of a burst. -/
def HasPlace (c : Config) (p : Address) : Prop :=
  (0 ≤ p.channel ∧ p.channel < c.channels) ∧ c.HasBank p.toBank ∧ (0 ≤ p.row ∧ p.row < c.rows) ∧
    0 ≤ p.column ∧ p.column < c.columns / c.burstLength

private theorem two_pow_fieldWidth (hpow : c.PowersOfTwo) (f : Field) :
    2 ^ c.fieldWidth f = match f with
      | .ch => c.channels
      | .ra => c.ranks
      | .bg => c.bankgroups
      | .ba => c.banksPerGroup
      | .ro => c.rows
      | .co => c.columns / c.burstLength := by
  cases f with
  | ch => exact hpow.channels
  | ra => exact hpow.ranks
  | bg => exact hpow.bankgroups
  | ba => exact hpow.banksPerGroup
  | ro => exact hpow.rows
  | co =>
    rw [Organization.fieldWidth, ← Nat.pow_div c.columnBits Nat.two_pos, hpow.columns,
      hpow.burstLength]

theorem mapped_iff_hasPlace (hpow : c.PowersOfTwo) (p : Address) : c.Mapped p ↔ c.HasPlace p := by
  have hwidth := two_pow_fieldWidth hpow
  simp only [Mapped, hwidth]
  constructor
  · rintro ⟨v, rfl, hv⟩
    have hrange : ∀ f, 0 ≤ (v f : ℤ) := fun f => Int.natCast_nonneg _
    exact ⟨⟨hrange .ch, Int.ofNat_lt.mpr (hv .ch)⟩,
      ⟨⟨hrange .ra, Int.ofNat_lt.mpr (hv .ra)⟩, ⟨hrange .bg, Int.ofNat_lt.mpr (hv .bg)⟩,
        hrange .ba, Int.ofNat_lt.mpr (hv .ba)⟩,
      ⟨hrange .ro, Int.ofNat_lt.mpr (hv .ro)⟩, hrange .co, Int.ofNat_lt.mpr (hv .co)⟩
  · obtain ⟨channel, rank, bankgroup, bank, row, column⟩ := p
    rintro ⟨⟨hch, hch'⟩, ⟨⟨hra, hra'⟩, ⟨hbg, hbg'⟩, hba, hba'⟩, ⟨hro, hro'⟩, hco, hco'⟩
    dsimp only [Address.toBank] at *
    lift channel to ℕ using hch
    lift rank to ℕ using hra
    lift bankgroup to ℕ using hbg
    lift bank to ℕ using hba
    lift row to ℕ using hro
    lift column to ℕ using hco
    refine ⟨fun f => match f with
      | .ch => channel
      | .ra => rank
      | .bg => bankgroup
      | .ba => bank
      | .ro => row
      | .co => column, rfl, fun f => ?_⟩
    cases f <;> exact Int.ofNat_lt.mp ‹_›

/-- **Bursts and places correspond one to one.** Below the size of the memory no two bursts share a
place, and every place in the range of the fields has its burst; an address past the end wraps
around. If the counts are powers of two, these are all places of the memory. -/
theorem addressMapping_bijOn (c : Config) :
    Set.BijOn (fun n => c.addressMapping (c.burstAddr n)) {n | n < 2 ^ c.addressBits}
        {p | c.Mapped p} ∧
      (∀ hexAddr, c.addressMapping hexAddr =
        c.addressMapping (c.burstAddr ((hexAddr >>> c.map.shiftBits) % 2 ^ c.addressBits))) ∧
      (c.PowersOfTwo → ∀ p, c.Mapped p ↔ c.HasPlace p) := by
  refine ⟨⟨fun n _ => ?_, fun n hn n' hn' heq => ?_, ?_⟩, fun hexAddr => ?_, mapped_iff_hasPlace⟩
  · exact ⟨_, c.addressMapping_eq_placeOf _, c.fieldOf_lt _⟩
  · have hfields : ∀ f, (c.bitField c.map f).get n = (c.bitField c.map f).get n' := by
      intro f
      simp only [addressMapping_eq_placeOf, placeOf_inj] at heq
      rw [← fieldOf_burstAddr, ← fieldOf_burstAddr, heq]
    have hmod := BitField.mod_eq_of_get_eq
      (fun i hi => Organization.exists_bitField_has c.mapped hi) hfields
    rwa [Nat.mod_eq_of_lt hn, Nat.mod_eq_of_lt hn'] at hmod
  · rintro p ⟨v, rfl, hv⟩
    obtain ⟨n, hn, hget⟩ := Organization.exists_get_eq c.mapped hv
    refine ⟨n, hn, ?_⟩
    simp only [addressMapping_eq_placeOf, placeOf_inj]
    funext f
    rw [fieldOf_burstAddr, hget]
  · simp only [addressMapping_eq_placeOf, placeOf_inj]
    funext f
    rw [fieldOf_burstAddr, BitField.get_mod_two_pow (Organization.bitField_within c.mapped f)]
    rfl

example : ddr4.PowersOfTwo := by
  constructor <;> decide +kernel

end Config

end Beethoven.Dram
