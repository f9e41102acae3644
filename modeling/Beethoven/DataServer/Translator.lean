import Mathlib.Data.List.Pairwise
import Mathlib.Data.List.Sort
import Mathlib.Data.UInt

/-!
# The address translator

The data server maps ranges of the accelerator's addresses to regions of the host's memory, and
`address_translator` finds the host address of an accelerator address. Its mappings are a set
ordered by their accelerator addresses.
-/

namespace Beethoven.DataServer

/-- An `addr_pair`: a range of accelerator addresses and the host region that it is mapped to. -/
structure AddrPair where
  fpgaAddr : UInt64
  mappingLength : UInt64
  cpuAddr : ℕ
  deriving DecidableEq, Repr

namespace AddrPair

variable {m : AddrPair} {a : UInt64}

/-- The test of `translate` for the range of a mapping, in 64-bit arithmetic. -/
def covers (m : AddrPair) (a : UInt64) : Bool :=
  m.fpgaAddr ≤ a && m.fpgaAddr + m.mappingLength > a

/-- The first accelerator address after the range of the mapping. -/
def fpgaEnd (m : AddrPair) : ℕ := m.fpgaAddr.toNat + m.mappingLength.toNat

/-- A byte of the host region of the mapping. -/
def InRegion (m : AddrPair) (byte : ℕ) : Prop :=
  m.cpuAddr ≤ byte ∧ byte < m.cpuAddr + m.mappingLength.toNat

instance (m : AddrPair) : DecidablePred m.InRegion := fun byte =>
  inferInstanceAs (Decidable (m.cpuAddr ≤ byte ∧ byte < m.cpuAddr + m.mappingLength.toNat))

/-- The host location of an accelerator address in the mapping. -/
def location (m : AddrPair) (addr : ℕ) : Option ℕ :=
  if m.fpgaAddr.toNat ≤ addr ∧ addr < m.fpgaEnd then
    some (m.cpuAddr + (addr - m.fpgaAddr.toNat))
  else none

/-- An address that passes the test is in the range, also where the end of the range overflows. -/
theorem range_of_covers (h : m.covers a) :
    m.fpgaAddr.toNat ≤ a.toNat ∧ a.toNat < m.fpgaEnd := by
  rw [covers, Bool.and_eq_true, decide_eq_true_iff, decide_eq_true_iff] at h
  have hlt : a.toNat < (m.fpgaAddr + m.mappingLength).toNat := UInt64.lt_iff_toNat_lt.mp h.2
  rw [UInt64.toNat_add] at hlt
  exact ⟨UInt64.le_iff_toNat_le.mp h.1, lt_of_lt_of_le hlt (Nat.mod_le _ _)⟩

/-- The test is exact for a range whose end does not overflow. -/
theorem covers_iff (hend : m.fpgaEnd < 2 ^ 64) :
    m.covers a ↔ m.fpgaAddr.toNat ≤ a.toNat ∧ a.toNat < m.fpgaEnd := by
  refine ⟨range_of_covers, fun ⟨hle, hlt⟩ => ?_⟩
  rw [covers, Bool.and_eq_true, decide_eq_true_iff, decide_eq_true_iff]
  refine ⟨UInt64.le_iff_toNat_le.mpr hle, UInt64.lt_iff_toNat_lt.mpr ?_⟩
  rw [UInt64.toNat_add]
  exact hlt.trans_eq (Nat.mod_eq_of_lt hend).symm

/-- A range that ends with the last address covers nothing, as its end overflows to zero. -/
theorem not_covers_of_fpgaEnd_eq (hend : m.fpgaEnd = 2 ^ 64) : ¬ m.covers a := by
  rw [covers, Bool.and_eq_true, decide_eq_true_iff, decide_eq_true_iff]
  rintro ⟨-, hlt⟩
  have hzero : (m.fpgaAddr + m.mappingLength).toNat = 0 := by
    rw [UInt64.toNat_add]
    exact (congrArg (· % 2 ^ 64) hend).trans (Nat.mod_self _)
  exact Nat.not_lt_zero _ (hzero ▸ UInt64.lt_iff_toNat_lt.mp hlt)

end AddrPair

/-- The `address_translator`, with the elements of its `std::set` in order. -/
structure AddressTranslator where
  mappings : List AddrPair
  sorted : mappings.Pairwise fun m m' => m.fpgaAddr < m'.fpgaAddr

namespace AddressTranslator

theorem sorted_nil : ([] : List AddrPair).Pairwise fun m m' => m.fpgaAddr < m'.fpgaAddr := .nil

variable (t : AddressTranslator) {a : UInt64} {p : ℕ}

/-- The loop of `translate`: the first mapping whose range contains the address. -/
def find (a : UInt64) : Option AddrPair := t.mappings.find? fun m => m.covers a

/-- An address that is not mapped ends the simulation. -/
def translate (a : UInt64) : Option ℕ := do
  let it ← t.find a
  if it.fpgaAddr + it.mappingLength ≤ a then none
  else some (it.cpuAddr + (a - it.fpgaAddr).toNat)

/-- `get_mapping`: the host region of the mapping with the given base address. An exception is
thrown if there is none. -/
def getMapping (fpgaAddr : UInt64) : Option (ℕ × UInt64) :=
  (t.mappings.find? fun m => m.fpgaAddr = fpgaAddr).map fun m => (m.cpuAddr, m.mappingLength)

variable {t}

theorem covers_of_find {m : AddrPair} (h : t.find a = some m) : m.covers a :=
  List.find?_some (p := fun m : AddrPair => m.covers a) h

theorem translate_eq_some (h : t.translate a = some p) :
    ∃ m, t.find a = some m ∧ m.fpgaAddr.toNat ≤ a.toNat ∧ a.toNat < m.fpgaEnd ∧
      p + m.fpgaAddr.toNat = m.cpuAddr + a.toNat := by
  obtain ⟨m, hm, h⟩ := Option.bind_eq_some_iff.mp h
  split_ifs at h
  obtain ⟨hle, hlt⟩ := AddrPair.range_of_covers (covers_of_find hm)
  refine ⟨m, hm, hle, hlt, ?_⟩
  rw [← Option.some.inj h, UInt64.toNat_sub_of_le _ _ (UInt64.le_iff_toNat_le.mpr hle)]
  omega

/-- A translation finds the location of the address in a mapping that covers it. -/
theorem exists_location (h : t.translate a = some p) :
    ∃ m, t.find a = some m ∧ m.location a.toNat = some p := by
  obtain ⟨m, hfind, hle, hlt, hp⟩ := translate_eq_some h
  refine ⟨m, hfind, ?_⟩
  rw [AddrPair.location, if_pos ⟨hle, hlt⟩, Option.some.injEq]
  omega

/-- A translation fails exactly when no mapping covers the address; the test after the loop never
fails. -/
theorem translate_eq_none_iff : t.translate a = none ↔ ∀ m ∈ t.mappings, ¬ m.covers a := by
  have hfind : t.find a = none ↔ ∀ m ∈ t.mappings, ¬ m.covers a := List.find?_eq_none
  rw [← hfind, translate]
  cases h : t.find a with
  | none => simp
  | some m =>
    have hcovers : m.covers a := covers_of_find h
    rw [AddrPair.covers, Bool.and_eq_true, decide_eq_true_iff, decide_eq_true_iff] at hcovers
    simp [UInt64.not_le.mpr hcovers.2]

theorem eq_of_fpgaAddr_eq {m m' : AddrPair} (hm : m ∈ t.mappings) (hm' : m' ∈ t.mappings)
    (h : m.fpgaAddr = m'.fpgaAddr) : m = m' := by
  by_contra hne
  have hapart : t.mappings.Pairwise fun m m' => m.fpgaAddr ≠ m'.fpgaAddr :=
    t.sorted.imp fun hlt => UInt64.ne_of_lt hlt
  have hsymm : Std.Symm fun m m' : AddrPair => m.fpgaAddr ≠ m'.fpgaAddr := ⟨fun _ _ => Ne.symm⟩
  exact hapart.forall hm hm' hne h

theorem find?_fpgaAddr {m : AddrPair} {b : UInt64} :
    (t.mappings.find? fun m => m.fpgaAddr = b) = some m ↔ m ∈ t.mappings ∧ m.fpgaAddr = b := by
  constructor
  · intro h
    exact ⟨List.mem_of_find?_eq_some h, by simpa using List.find?_some h⟩
  · rintro ⟨hm, hb⟩
    cases h : t.mappings.find? fun m => m.fpgaAddr = b with
    | none => exact absurd hb (by simpa using List.find?_eq_none.mp h m hm)
    | some m' =>
      have hb' : m'.fpgaAddr = b := by simpa using List.find?_some h
      rw [eq_of_fpgaAddr_eq (List.mem_of_find?_eq_some h) hm (hb'.trans hb.symm)]

/-! ### Changing the mappings -/

private theorem pairwise_orderedInsert {m : AddrPair} {l : List AddrPair}
    (hl : l.Pairwise fun m m' => m.fpgaAddr < m'.fpgaAddr)
    (hm : ∀ m' ∈ l, m'.fpgaAddr ≠ m.fpgaAddr) :
    (l.orderedInsert (fun m m' => m.fpgaAddr < m'.fpgaAddr) m).Pairwise
      fun m m' => m.fpgaAddr < m'.fpgaAddr := by
  induction l with
  | nil => exact List.pairwise_singleton _ _
  | cons m' l ih =>
    obtain ⟨hm', hl'⟩ := List.pairwise_cons.mp hl
    obtain ⟨hne, hrest⟩ := List.forall_mem_cons.mp hm
    rw [List.orderedInsert_cons]
    split_ifs with hlt
    · refine List.pairwise_cons.mpr ⟨fun x hx => ?_, hl⟩
      obtain rfl | hx := List.mem_cons.mp hx
      · exact hlt
      · exact UInt64.lt_trans hlt (hm' x hx)
    · refine List.pairwise_cons.mpr ⟨fun x hx => ?_, ih hl' hrest⟩
      obtain rfl | hx := (List.mem_orderedInsert _).mp hx
      · exact UInt64.lt_of_le_of_ne (UInt64.not_lt.mp hlt) hne
      · exact hm' x hx

/-- `add_mapping`: the set ignores a mapping whose base address it has. -/
def addMapping (t : AddressTranslator) (m : AddrPair) : AddressTranslator :=
  if h : ∃ m' ∈ t.mappings, m'.fpgaAddr = m.fpgaAddr then t
  else
    { mappings := t.mappings.orderedInsert (fun m m' => m.fpgaAddr < m'.fpgaAddr) m
      sorted := pairwise_orderedInsert t.sorted fun m' hm' heq => h ⟨m', hm', heq⟩ }

/-- The set without one of its elements. -/
def erase (t : AddressTranslator) (m : AddrPair) : AddressTranslator where
  mappings := t.mappings.erase m
  sorted := t.sorted.sublist List.erase_sublist

/-- `remove_mapping`: whether it returns, rather than throws, and the translator after the call. -/
def removeMapping (t : AddressTranslator) (fpgaAddr : UInt64) : Bool × AddressTranslator :=
  match t.mappings.find? fun m => m.fpgaAddr = fpgaAddr with
  | none => (false, t)
  | some it => (true, t.erase it)

theorem mem_addMapping {m m' : AddrPair} (h : ∀ m' ∈ t.mappings, m'.fpgaAddr ≠ m.fpgaAddr) :
    m' ∈ (t.addMapping m).mappings ↔ m' = m ∨ m' ∈ t.mappings := by
  have hfresh : ¬ ∃ m' ∈ t.mappings, m'.fpgaAddr = m.fpgaAddr := fun ⟨m', hm', heq⟩ => h m' hm' heq
  rw [addMapping, dif_neg hfresh, List.mem_orderedInsert]

theorem mem_erase {m m' : AddrPair} (hm : m ∈ t.mappings) :
    m' ∈ (t.erase m).mappings ↔ m' ∈ t.mappings ∧ m'.fpgaAddr ≠ m.fpgaAddr := by
  have hnodup : t.mappings.Nodup :=
    t.sorted.imp fun hlt heq => UInt64.ne_of_lt hlt (congrArg AddrPair.fpgaAddr heq)
  rw [erase, hnodup.mem_erase_iff, and_comm]
  refine and_congr_right fun hm' => not_congr ⟨fun h => h ▸ rfl, eq_of_fpgaAddr_eq hm' hm⟩

end AddressTranslator

end Beethoven.DataServer
