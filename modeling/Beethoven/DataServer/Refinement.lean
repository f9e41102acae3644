import Beethoven.DataServer.Translator
import Beethoven.Lib.TransitionSystem

/-!
# The translator as a partial map

The mappings of the data server form a partial map from base addresses to host regions. A call of
`add_mapping` or `remove_mapping` updates this map at one base address. The translator, a set that
is searched in three ways, is compared with the map after every sequence of calls: a lookup by
containment finds the live mapping that contains an address, a lookup by base address finds the
mapping with this base, and a removal removes it.

The mappings that are added are not empty, their ends do not overflow, and they do not overlap live
ones.
-/

namespace Beethoven.DataServer

open Lib

/-- The host region that a range of accelerator addresses is mapped to. -/
structure Region where
  mappingLength : UInt64
  cpuAddr : ℕ
  deriving DecidableEq, Repr

/-- The range of accelerator addresses from `b` that is mapped to the region contains `a`. -/
def Region.Contains (r : Region) (b a : UInt64) : Prop :=
  b.toNat ≤ a.toNat ∧ a.toNat < b.toNat + r.mappingLength.toNat

/-- The ranges that start at `b` and `b'` have no address in common. -/
def Region.Apart (r r' : Region) (b b' : UInt64) : Prop :=
  b.toNat + r.mappingLength.toNat ≤ b'.toNat ∨ b'.toNat + r'.mappingLength.toNat ≤ b.toNat

theorem Region.Apart.not_contains {r r' : Region} {b b' a : UInt64} (h : r.Apart r' b b')
    (ha : r.Contains b a) : ¬ r'.Contains b' a := by
  obtain ⟨hle, hlt⟩ := ha
  rintro ⟨hle', hlt'⟩
  obtain h | h := h <;> omega

/-- The region of a mapping. -/
def AddrPair.region (m : AddrPair) : Region := ⟨m.mappingLength, m.cpuAddr⟩

theorem AddrPair.eq_of_region_eq {m m' : AddrPair} (hbase : m.fpgaAddr = m'.fpgaAddr)
    (hregion : m.region = m'.region) : m = m' := by
  obtain ⟨base, length, cpu⟩ := m
  obtain ⟨hlength, hcpu⟩ := Region.mk.inj hregion
  exact AddrPair.mk.injEq .. ▸ ⟨hbase, hlength, hcpu⟩

/-- The live mappings: a partial map from base addresses to regions. -/
abbrev LiveMap : Type := UInt64 → Option Region

/-- A call that changes the mappings. -/
inductive TranslatorCall
  | addMapping (m : AddrPair)
  | removeMapping (fpgaAddr : UInt64)

/-- The effect of a call on the partial map. -/
def LiveMap.update (live : LiveMap) : TranslatorCall → LiveMap
  | .addMapping m => Function.update live m.fpgaAddr (some m.region)
  | .removeMapping b => Function.update live b none

theorem LiveMap.update_add {live : LiveMap} {m : AddrPair} {b : UInt64} {r : Region} :
    live.update (.addMapping m) b = some r ↔
      (b = m.fpgaAddr ∧ m.region = r) ∨ (b ≠ m.fpgaAddr ∧ live b = some r) := by
  rw [update, Function.update_apply]
  split_ifs with h <;> simp [h]

theorem LiveMap.update_remove {live : LiveMap} {b c : UInt64} {r : Region} :
    live.update (.removeMapping c) b = some r ↔ b ≠ c ∧ live b = some r := by
  rw [update, Function.update_apply]
  split_ifs with h <;> simp [h]

/-- The effect of a call on the translator. -/
def AddressTranslator.call (t : AddressTranslator) : TranslatorCall → AddressTranslator
  | .addMapping m => t.addMapping m
  | .removeMapping b => (t.removeMapping b).2

/-- A mapping that is added is not empty, its end does not overflow, and it is apart from the live
mappings. -/
def TranslatorCall.Fits (live : LiveMap) : TranslatorCall → Prop
  | .addMapping m => 0 < m.mappingLength.toNat ∧ m.fpgaEnd < 2 ^ 64 ∧
      ∀ b r, live b = some r → m.region.Apart r m.fpgaAddr b
  | .removeMapping _ => True

/-- The translator beside the partial map of its live mappings. -/
def translation : System (AddressTranslator × LiveMap) TranslatorCall where
  init := (⟨[], List.Pairwise.nil⟩, fun _ => none)
  step x c := some (x.1.call c, x.2.update c)

/-- The translator holds exactly the mappings of the partial map, which are not empty, do not
overflow and are apart. -/
structure Refines (t : AddressTranslator) (live : LiveMap) : Prop where
  mem_iff : ∀ m, m ∈ t.mappings ↔ live m.fpgaAddr = some m.region
  length_pos : ∀ b r, live b = some r → 0 < r.mappingLength.toNat
  end_lt : ∀ b r, live b = some r → b.toNat + r.mappingLength.toNat < 2 ^ 64
  apart : ∀ b r b' r', live b = some r → live b' = some r' → b ≠ b' → r.Apart r' b b'

namespace Refines

variable {t : AddressTranslator} {live : LiveMap} {a b : UInt64} {r : Region}

theorem mem (h : Refines t live) (hb : live b = some r) :
    AddrPair.mk b r.mappingLength r.cpuAddr ∈ t.mappings :=
  (h.mem_iff _).mpr hb

theorem add (h : Refines t live) {m : AddrPair} (hpos : 0 < m.mappingLength.toNat)
    (hend : m.fpgaEnd < 2 ^ 64) (hapart : ∀ b r, live b = some r → m.region.Apart r m.fpgaAddr b) :
    Refines (t.addMapping m) (live.update (.addMapping m)) := by
  -- a live mapping with this base would overlap the new one
  have hfresh : ∀ m' ∈ t.mappings, m'.fpgaAddr ≠ m.fpgaAddr := by
    intro m' hm' heq
    have hlive := (h.mem_iff m').mp hm'
    have hpos' : 0 < m'.region.mappingLength.toNat := h.length_pos _ _ hlive
    have hself : m.region.Contains m.fpgaAddr m.fpgaAddr := ⟨le_rfl, Nat.lt_add_of_pos_right hpos⟩
    refine (hapart _ _ hlive).not_contains hself ?_
    rw [heq]
    exact ⟨le_rfl, Nat.lt_add_of_pos_right hpos'⟩
  refine ⟨fun m' => ?_, fun b r hb => ?_, fun b r hb => ?_, fun b r b' r' hb hb' hne => ?_⟩
  · rw [AddressTranslator.mem_addMapping hfresh, LiveMap.update_add, ← h.mem_iff]
    constructor
    · rintro (rfl | hm')
      · exact .inl ⟨rfl, rfl⟩
      · exact .inr ⟨hfresh m' hm', hm'⟩
    · rintro (⟨hbase, hregion⟩ | ⟨-, hm'⟩)
      · exact .inl (AddrPair.eq_of_region_eq hbase hregion.symm)
      · exact .inr hm'
  · obtain ⟨-, rfl⟩ | ⟨-, hb⟩ := LiveMap.update_add.mp hb
    · exact hpos
    · exact h.length_pos b r hb
  · obtain ⟨rfl, rfl⟩ | ⟨-, hb⟩ := LiveMap.update_add.mp hb
    · exact hend
    · exact h.end_lt b r hb
  · obtain ⟨rfl, rfl⟩ | ⟨-, hb⟩ := LiveMap.update_add.mp hb <;>
      obtain ⟨rfl, rfl⟩ | ⟨-, hb'⟩ := LiveMap.update_add.mp hb'
    · exact absurd rfl hne
    · exact hapart b' r' hb'
    · exact (hapart b r hb).symm
    · exact h.apart b r b' r' hb hb' hne

/-- The search for a base address finds a mapping exactly when the base address is live. -/
theorem find?_eq_some_iff (h : Refines t live) {m : AddrPair} :
    (t.mappings.find? fun m => m.fpgaAddr = b) = some m ↔
      m.fpgaAddr = b ∧ live b = some m.region := by
  rw [AddressTranslator.find?_fpgaAddr, h.mem_iff, and_comm]
  refine and_congr_right fun hb => ?_
  rw [hb]

theorem find?_eq_some (h : Refines t live) (hb : live b = some r) :
    (t.mappings.find? fun m => m.fpgaAddr = b) = some ⟨b, r.mappingLength, r.cpuAddr⟩ :=
  h.find?_eq_some_iff.mpr ⟨rfl, hb⟩

theorem find?_eq_none (h : Refines t live) (hb : live b = none) :
    (t.mappings.find? fun m => m.fpgaAddr = b) = none := by
  refine Option.eq_none_iff_forall_ne_some.mpr fun m hm => ?_
  have hlive := (h.find?_eq_some_iff.mp hm).2
  rw [hb] at hlive
  exact absurd hlive (by simp)

theorem removeMapping_eq (h : Refines t live) (hb : live b = some r) :
    t.removeMapping b = (true, t.erase ⟨b, r.mappingLength, r.cpuAddr⟩) := by
  rw [AddressTranslator.removeMapping, h.find?_eq_some hb]

/-- A removal fails and changes nothing when the base address is not live. -/
theorem removeMapping_eq_of_none (h : Refines t live) (hb : live b = none) :
    t.removeMapping b = (false, t) := by
  rw [AddressTranslator.removeMapping, h.find?_eq_none hb]

theorem remove (h : Refines t live) (b : UInt64) :
    Refines (t.removeMapping b).2 (live.update (.removeMapping b)) := by
  refine ⟨fun m => ?_, fun b' r' hb' => ?_, fun b' r' hb' => ?_, fun b' r' b'' r'' hb' hb'' => ?_⟩
  · rw [LiveMap.update_remove, ← h.mem_iff]
    cases hb : live b with
    | none =>
      rw [h.removeMapping_eq_of_none hb]
      refine (and_iff_right_of_imp fun hm heq => ?_).symm
      have hlive := (h.mem_iff m).mp hm
      rw [heq, hb] at hlive
      exact absurd hlive (by simp)
    | some r =>
      rw [h.removeMapping_eq hb, AddressTranslator.mem_erase (h.mem hb), and_comm]
  · exact h.length_pos b' r' (LiveMap.update_remove.mp hb').2
  · exact h.end_lt b' r' (LiveMap.update_remove.mp hb').2
  · exact h.apart b' r' b'' r'' (LiveMap.update_remove.mp hb').2 (LiveMap.update_remove.mp hb'').2

/-! ### Lookups -/

/-- The mappings that the translator finds are the live mappings that contain the address. -/
theorem covers_iff (h : Refines t live) {m : AddrPair} (hm : m ∈ t.mappings) :
    m.covers a ↔ m.region.Contains m.fpgaAddr a :=
  AddrPair.covers_iff (h.end_lt _ _ ((h.mem_iff m).mp hm))

theorem eq_of_contains (h : Refines t live) {b' : UInt64} {r' : Region} (hb : live b = some r)
    (hb' : live b' = some r') (ha : r.Contains b a) (ha' : r'.Contains b' a) : b = b' := by
  by_contra hne
  exact (h.apart b r b' r' hb hb' hne).not_contains ha ha'

/-- A translation fails exactly when no live mapping contains the address. -/
theorem translate_eq_none_iff (h : Refines t live) :
    t.translate a = none ↔ ¬ ∃ b r, live b = some r ∧ r.Contains b a := by
  rw [AddressTranslator.translate_eq_none_iff]
  constructor
  · rintro hnone ⟨b, r, hb, ha⟩
    exact hnone _ (h.mem hb) ((h.covers_iff (h.mem hb)).mpr ha)
  · intro hnone m hm hcovers
    exact hnone ⟨m.fpgaAddr, m.region, (h.mem_iff m).mp hm, (h.covers_iff hm).mp hcovers⟩

theorem translate_eq (h : Refines t live) (hb : live b = some r) (ha : r.Contains b a) :
    t.translate a = some (r.cpuAddr + (a.toNat - b.toNat)) := by
  cases htranslate : t.translate a with
  | none => exact absurd ⟨b, r, hb, ha⟩ (h.translate_eq_none_iff.mp htranslate)
  | some p =>
    obtain ⟨m, hfind, hle, hlt, hp⟩ := AddressTranslator.translate_eq_some htranslate
    have hlive := (h.mem_iff m).mp (List.mem_of_find?_eq_some hfind)
    obtain rfl := h.eq_of_contains hb hlive ha ⟨hle, hlt⟩
    obtain rfl := Option.some.inj (hb.symm.trans hlive)
    rw [Option.some.injEq]
    change p = m.cpuAddr + (a.toNat - m.fpgaAddr.toNat)
    omega

theorem getMapping_eq (h : Refines t live) (b : UInt64) :
    t.getMapping b = (live b).map fun r => (r.cpuAddr, r.mappingLength) := by
  rw [AddressTranslator.getMapping]
  cases hb : live b with
  | none => rw [h.find?_eq_none hb, Option.map_none, Option.map_none]
  | some r => rw [h.find?_eq_some hb, Option.map_some, Option.map_some]

end Refines

/-! ### Sequences of calls -/

variable {x : AddressTranslator × LiveMap}

/-- Every sequence of calls whose mappings fit keeps the translator and the partial map together. -/
theorem refines_of_reaches (h : translation.Reaches (fun x => TranslatorCall.Fits x.2) x) :
    Refines x.1 x.2 := by
  refine System.Reaches.invariant (I := fun x => Refines x.1 x.2) ?_ ?_ h
  · exact ⟨by simp [translation], by simp [translation], by simp [translation],
      by simp [translation]⟩
  · intro x c y hx hfits hstep
    obtain rfl := Option.some.inj hstep
    cases c with
    | addMapping m => exact hx.add hfits.1 hfits.2.1 hfits.2.2
    | removeMapping b => exact hx.remove b

/-- **The translator refines a partial map.** After every sequence of calls whose mappings fit,
`translate` gives the address in the region of the one live mapping that contains the address and
fails if there is none; `get_mapping` is the partial map, and agrees with `translate`; and
`remove_mapping` removes the mapping with the given base address, or fails and changes nothing. -/
theorem translation_refines_partial_map
    (h : translation.Reaches (fun x => TranslatorCall.Fits x.2) x) :
    (∀ a b r, x.2 b = some r → r.Contains b a →
      x.1.translate a = some (r.cpuAddr + (a.toNat - b.toNat)) ∧
        ∀ b' r', x.2 b' = some r' → r'.Contains b' a → b' = b) ∧
    (∀ a, x.1.translate a = none ↔ ¬ ∃ b r, x.2 b = some r ∧ r.Contains b a) ∧
    (∀ b, x.1.getMapping b = (x.2 b).map fun r => (r.cpuAddr, r.mappingLength)) ∧
    (∀ b p n, x.1.getMapping b = some (p, n) → x.1.translate b = some p) ∧
    (∀ b r, x.2 b = some r → ∃ t, x.1.removeMapping b = (true, t) ∧
      ∀ m, m ∈ t.mappings ↔ m ∈ x.1.mappings ∧ m.fpgaAddr ≠ b) ∧
    ∀ b, x.2 b = none → x.1.removeMapping b = (false, x.1) := by
  have hx := refines_of_reaches h
  refine ⟨fun a b r hb ha => ⟨hx.translate_eq hb ha, fun b' r' hb' ha' => ?_⟩,
    fun a => hx.translate_eq_none_iff, hx.getMapping_eq, fun b p n hget => ?_,
    fun b r hb => ⟨_, hx.removeMapping_eq hb, fun m => AddressTranslator.mem_erase (hx.mem hb)⟩,
    fun b hb => hx.removeMapping_eq_of_none hb⟩
  · exact hx.eq_of_contains hb' hb ha' ha
  · rw [hx.getMapping_eq, Option.map_eq_some_iff] at hget
    obtain ⟨r, hb, hr⟩ := hget
    have hself : r.Contains b b := ⟨le_rfl, Nat.lt_add_of_pos_right (hx.length_pos b r hb)⟩
    rw [hx.translate_eq hb hself, Nat.sub_self, Nat.add_zero, ← (Prod.mk.inj hr).1]

/-- Of two mappings the first is removed: an address in it is no longer translated, an address in
the second is, and a second removal fails. -/
theorem translation_refines_partial_map_two :
    ∃ x, translation.Reaches (fun x => TranslatorCall.Fits x.2) x ∧
      x.1.translate 0x2008 = some 0x9008 ∧ x.1.translate 0x1008 = none ∧
      x.1.removeMapping 0x1000 = (false, x.1) := by
  have hinit := System.Reaches.init translation fun x => TranslatorCall.Fits x.2
  have hfirst := hinit.step (a := TranslatorCall.addMapping (AddrPair.mk 0x1000 0x10 0x7F00))
    ⟨by decide, by decide, fun b r hb => absurd hb (by simp [translation])⟩ rfl
  have hsecond := hfirst.step (a := TranslatorCall.addMapping (AddrPair.mk 0x2000 0x20 0x9000))
    ⟨by decide, by decide, fun b r hb => by
      obtain ⟨rfl, rfl⟩ | ⟨-, hb⟩ := LiveMap.update_add.mp hb
      · exact .inr (by decide)
      · exact absurd hb (by simp [translation])⟩ rfl
  have hremoved := hsecond.step (a := TranslatorCall.removeMapping 0x1000) trivial rfl
  have hresult := translation_refines_partial_map hremoved
  refine ⟨_, hremoved, ?_, (hresult.2.1 0x1008).mpr ?_, hresult.2.2.2.2.2 0x1000 rfl⟩
  · exact (hresult.1 0x2008 0x2000 ⟨0x20, 0x9000⟩ rfl (by constructor <;> decide)).1
  · rintro ⟨b, r, hb, hle, hlt⟩
    obtain ⟨hne, hb⟩ := LiveMap.update_remove.mp hb
    obtain ⟨rfl, rfl⟩ | ⟨-, hb⟩ := LiveMap.update_add.mp hb
    · exact absurd hle (by decide)
    · obtain ⟨rfl, rfl⟩ | ⟨-, hb⟩ := LiveMap.update_add.mp hb
      · exact hne rfl
      · exact absurd hb (by simp [translation])

end Beethoven.DataServer
