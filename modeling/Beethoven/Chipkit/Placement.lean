import Beethoven.Chipkit.MemFile

/-!
# Where the bytes of a memory file are written

A memory file assigns an address to each of its bytes: the address of the last `@`, and one more for
each byte since. The packets write four bytes at an address. An `@` changes the address but leaves
the bytes that are waiting for their packet in the buffer; those bytes are then written at the new
address, and the bytes after the `@` too far behind it.

So the bytes are where they should be exactly if every `@` comes after a multiple of four bytes.
This is so for the number of all bytes or the final assertion fails, but it says nothing of the
bytes before an `@`.
-/

namespace Beethoven.Chipkit

/-! ### Files and packets -/

/-- The bytes of a file with their addresses, when the next address is `a`. -/
def assigned : ℕ → List Token → List (ℕ × UInt8)
  | _, [] => []
  | _, .address a :: tokens => assigned a tokens
  | a, .byte b :: tokens => (a, b) :: assigned (a + 1) tokens

/-- The number of bytes of a file. -/
def byteCount : List Token → ℕ
  | [] => 0
  | .address _ :: tokens => byteCount tokens
  | .byte _ :: tokens => byteCount tokens + 1

/-- After `k` bytes, every `@` comes after a multiple of four bytes. -/
def Aligned : ℕ → List Token → Prop
  | _, [] => True
  | k, .address _ :: tokens => k % 4 = 0 ∧ Aligned k tokens
  | k, .byte _ :: tokens => Aligned (k + 1) tokens

instance decidableAligned : (k : ℕ) → (tokens : List Token) → Decidable (Aligned k tokens)
  | _, [] => .isTrue trivial
  | k, .address _ :: tokens => @instDecidableAnd _ _ _ (decidableAligned k tokens)
  | k, .byte _ :: tokens => decidableAligned (k + 1) tokens

/-- Bytes at consecutive addresses. -/
def placedAt (a : ℕ) (data : List UInt8) : List (ℕ × UInt8) := data.mapIdx fun j b => (a + j, b)

/-- What a packet writes; its addresses have 32 bits. -/
def packetWrites (a : ℕ) (data : List UInt8) : List (ℕ × UInt8) :=
  (placedAt a data).map fun p => (p.1 % 2 ^ 32, p.2)

/-- What a sequence of packets writes, if it is one. -/
def writesOf : List UInt8 → Option (List (ℕ × UInt8))
  | [] => some []
  | 0x77 :: a₀ :: a₁ :: a₂ :: a₃ :: d₀ :: d₁ :: d₂ :: d₃ :: 0x0a :: packets =>
    (writesOf packets).map (packetWrites
      (a₀.toNat + 2 ^ 8 * a₁.toNat + 2 ^ 16 * a₂.toNat + 2 ^ 24 * a₃.toNat) [d₀, d₁, d₂, d₃] ++ ·)
  | _ => none

/-- The function fails its final assertion, or its packets write the bytes of the file to the
addresses that the file assigns to them, in the order of the file, and nothing else. -/
def Places (vec file buf : List UInt8) (tokens : List Token) : Prop :=
  readMemFile2ChipkitDMA vec file buf = some .assertionFailed ∨
    ∃ pushed, readMemFile2ChipkitDMA vec file buf = some (.loaded (vec ++ pushed)) ∧
      writesOf pushed = some (assigned 0 tokens)

/-! ### What is written -/

/-- What the packets for the rest of a file write, from the address and the buffer on. -/
def written : Int32 → List UInt8 → List Token → List (ℕ × UInt8)
  | _, _, [] => []
  | _, buf, .address a :: tokens => written (.ofNat (min a (2 ^ 63 - 1))) buf tokens
  | addr, buf, .byte b :: tokens =>
    if (buf ++ [b]).length = 4 then
      packetWrites addr.toUInt32.toNat (buf ++ [b]) ++ written (addr + 4) [] tokens
    else written addr (buf ++ [b]) tokens

theorem toNat_pushVal (v : UInt32) :
    v.toUInt8.toNat + 2 ^ 8 * (v >>> 8).toUInt8.toNat + 2 ^ 16 * (v >>> 16).toUInt8.toNat +
      2 ^ 24 * (v >>> 24).toUInt8.toNat = v.toNat := by
  have hv := v.toNat_lt
  simp only [UInt32.toNat_toUInt8, UInt32.toNat_shiftRight, Nat.shiftRight_eq_div_pow,
    UInt32.reduceToNat, Nat.reduceMod]
  omega

theorem writesOf_packet (v : UInt32) {data : List UInt8} (hdata : data.length = 4)
    (packets : List UInt8) :
    writesOf (0x77 :: (pushVal v ++ data) ++ [0x0a] ++ packets) =
      (writesOf packets).map (packetWrites v.toNat data ++ ·) := by
  match data, hdata with
  | [d₀, d₁, d₂, d₃], _ =>
    rw [← toNat_pushVal v]
    rfl

theorem foldl_feed {m : Accumulator} (hm : m.instBuf.length < 4) (tokens : List Token) :
    (tokens.foldl Accumulator.feed m).instBuf.length =
        (m.instBuf.length + byteCount tokens) % 4 ∧
      ∃ pushed, (tokens.foldl Accumulator.feed m).vec = m.vec ++ pushed ∧
        writesOf pushed = some (written m.addr m.instBuf tokens) := by
  induction tokens generalizing m with
  | nil => exact ⟨(Nat.mod_eq_of_lt hm).symm, [], (List.append_nil _).symm, rfl⟩
  | cons t tokens ih =>
    cases t with
    | address a => exact ih hm
    | byte b =>
      rw [List.foldl_cons, byteCount, written]
      have hlength : (m.instBuf ++ [b]).length = m.instBuf.length + 1 := by simp
      split_ifs with hfull
      · have hstore : m.feed (.byte b) = ⟨m.addr + 4, [], m.vec ++
            (0x77 :: (pushVal m.addr.toUInt32 ++ (m.instBuf ++ [b])) ++ [0x0a])⟩ := if_pos hfull
        rw [hstore]
        obtain ⟨hbuf, pushed, hvec, hwrites⟩ := ih (m := ⟨m.addr + 4, [], m.vec ++
          (0x77 :: (pushVal m.addr.toUInt32 ++ (m.instBuf ++ [b])) ++ [0x0a])⟩) (by simp)
        refine ⟨?_, _, hvec.trans (List.append_assoc _ _ _), ?_⟩
        · rw [hbuf, List.length_nil]
          omega
        · rw [writesOf_packet _ hfull, hwrites]
          rfl
      · have hstore : m.feed (.byte b) = { m with instBuf := m.instBuf ++ [b] } := if_neg hfull
        rw [hstore]
        obtain ⟨hbuf, hpushed⟩ := ih (m := { m with instBuf := m.instBuf ++ [b] })
          (by dsimp only; omega)
        refine ⟨?_, hpushed⟩
        rw [hbuf, hlength]
        omega

/-! ### Files with whole words before each address -/

theorem placedAt_concat (a : ℕ) (data : List UInt8) (b : UInt8) :
    placedAt a (data ++ [b]) = placedAt a data ++ [(a + data.length, b)] := by
  simp [placedAt, List.mapIdx_append]

theorem packetWrites_eq {a : ℕ} {data : List UInt8} (h : ∀ p ∈ placedAt a data, p.1 < 2 ^ 32) :
    packetWrites a data = placedAt a data := by
  rw [packetWrites]
  conv_rhs => rw [← List.map_id (placedAt a data)]
  exact List.map_congr_left fun p hp => by rw [Nat.mod_eq_of_lt (h p hp)]; rfl

theorem lt_of_placedAt {a n : ℕ} {data : List UInt8} (h : ∀ p ∈ placedAt a data, p.1 < n)
    (hdata : 0 < data.length) : a < n := by
  cases data with
  | nil => exact absurd hdata (Nat.lt_irrefl 0)
  | cons b data => exact h (a, b) (by simp [placedAt])

theorem aligned_add_four {k : ℕ} {tokens : List Token} :
    Aligned (k + 4) tokens ↔ Aligned k tokens := by
  induction tokens generalizing k with
  | nil => exact Iff.rfl
  | cons t tokens ih =>
    cases t with
    | address a => simp only [Aligned, ih, Nat.add_mod_right]
    | byte b => exact ih (k := k + 1)

theorem toNat_readAddress {a : ℕ} (ha : a < 2 ^ 32) :
    (Int32.ofNat (min a (2 ^ 63 - 1))).toUInt32.toNat = a := by
  rw [Nat.min_eq_left (by omega), Int32.toUInt32_ofNat', UInt32.toNat_ofNat_of_lt' ha]

theorem toNat_add_four {addr : Int32} {a : ℕ} (haddr : addr.toUInt32.toNat = a)
    (ha : a + 4 < 2 ^ 32) : (addr + 4).toUInt32.toNat = a + 4 := by
  rw [Int32.toUInt32_add, UInt32.toNat_add, haddr]
  exact Nat.mod_eq_of_lt ha

/-- The bytes in the buffer are written from the address on, and the others follow. -/
theorem written_eq_of_aligned {addr : Int32} {a : ℕ} {buf : List UInt8} (tokens : List Token)
    (haddr : a < 2 ^ 32 → addr.toUInt32.toNat = a) (hbuf : buf.length < 4)
    (haligned : Aligned buf.length tokens) (hwhole : (buf.length + byteCount tokens) % 4 = 0)
    (hfits : ∀ p ∈ placedAt a buf ++ assigned (a + buf.length) tokens, p.1 < 2 ^ 32) :
    written addr buf tokens = placedAt a buf ++ assigned (a + buf.length) tokens := by
  induction tokens generalizing addr a buf with
  | nil =>
    obtain rfl : buf = [] := List.eq_nil_of_length_eq_zero (by
      rw [byteCount] at hwhole
      omega)
    rfl
  | cons t tokens ih =>
    cases t with
    | address a' =>
      obtain rfl : buf = [] := List.eq_nil_of_length_eq_zero (by
        have := haligned.1
        omega)
      exact ih toNat_readAddress hbuf haligned.2 hwhole hfits
    | byte b =>
      have hlength : (buf ++ [b]).length = buf.length + 1 := by simp
      have hnext : placedAt a buf ++ assigned (a + buf.length) (.byte b :: tokens) =
          placedAt a (buf ++ [b]) ++ assigned (a + (buf ++ [b]).length) tokens := by
        rw [placedAt_concat, assigned, hlength, List.append_assoc]
        rfl
      rw [byteCount] at hwhole
      rw [hnext] at hfits ⊢
      rw [written]
      split_ifs with hfull
      · have hfour : (buf ++ [b]).length = 4 := hfull
        have hword : ∀ p ∈ placedAt a (buf ++ [b]), p.1 < 2 ^ 32 := fun p hp =>
          hfits p (List.mem_append_left _ hp)
        have hbase : addr.toUInt32.toNat = a := haddr (lt_of_placedAt hword (by omega))
        have haligned' : Aligned 0 tokens := by
          rw [Aligned, ← hlength, hfour] at haligned
          exact aligned_add_four.mp haligned
        have hrest : written (addr + 4) [] tokens = assigned (a + 4) tokens :=
          ih (toNat_add_four hbase) (by decide) haligned' (by rw [List.length_nil]; omega)
            fun p hp => hfits p (List.mem_append_right _ (by rw [hfour]; exact hp))
        rw [hbase, packetWrites_eq hword, hrest, hfour]
      · exact ih haddr (by omega) (by rw [hlength]; exact haligned) (by omega) hfits

/-! ### Files with an address within a word -/

theorem getElem?_packetWrites {a j : ℕ} {data : List UInt8} {p : ℕ × UInt8}
    (h : (packetWrites a data)[j]? = some p) : p.1 = (a + j) % 2 ^ 32 := by
  simp only [packetWrites, placedAt, List.getElem?_map, List.getElem?_mapIdx,
    Option.map_eq_some_iff] at h
  obtain ⟨_, ⟨b, -, rfl⟩, rfl⟩ := h
  rfl

/-- After an `@` within a word, the packet of that word writes the first byte after it to another
address. `expected` are the bytes in the buffer with their addresses; `j` is the number of bytes in
the buffer at the last `@`, whose address is `a'`. -/
theorem written_ne_of_inside {a' : ℕ} {buf : List UInt8} {j : ℕ} (tokens : List Token) {a : ℕ}
    {expected : List (ℕ × UInt8)} (hj : 0 < j) (hbuf : buf.length < 4)
    (hexpected : expected.length = buf.length)
    (hmark : (j = buf.length ∧ a = a') ∨ ∃ b, expected[j]? = some (a', b))
    (hwhole : (buf.length + byteCount tokens) % 4 = 0) (hpos : 0 < buf.length) :
    written (.ofNat (min a' (2 ^ 63 - 1))) buf tokens ≠ expected ++ assigned a tokens := by
  induction tokens generalizing a' buf j a expected with
  | nil =>
    rw [byteCount] at hwhole
    omega
  | cons t tokens ih =>
    cases t with
    | address a'' => exact ih hpos hbuf hexpected (.inl ⟨rfl, rfl⟩) hwhole hpos
    | byte b =>
      have hlength : (buf ++ [b]).length = buf.length + 1 := by simp
      have hlength' : (expected ++ [(a, b)]).length = (buf ++ [b]).length := by simp [hexpected]
      -- the byte at the mark has been read now
      have hread : ∃ b', (expected ++ [(a, b)])[j]? = some (a', b') := by
        rcases hmark with ⟨rfl, rfl⟩ | ⟨b', hb'⟩
        · exact ⟨b, by rw [← hexpected, List.getElem?_concat_length]⟩
        · have hlt := (List.getElem?_eq_some_iff.mp hb').1
          exact ⟨b', by rw [List.getElem?_append_left hlt, hb']⟩
      rw [byteCount] at hwhole
      rw [assigned, List.append_cons, written]
      split_ifs with hfull
      · intro heq
        obtain ⟨b', hb'⟩ := hread
        have hheads := (List.append_inj heq (by
          rw [hlength', packetWrites, placedAt, List.length_map, List.length_mapIdx])).1
        rw [← hheads] at hb'
        have hplace : a' = _ := getElem?_packetWrites hb'
        have hlt : a' < 2 ^ 32 := by
          rw [hplace]
          exact Nat.mod_lt _ (by decide)
        have hj4 : j < 4 := by
          have := (List.getElem?_eq_some_iff.mp (hheads ▸ hb')).1
          omega
        rw [toNat_readAddress hlt] at hplace
        omega
      · exact ih hj (by omega) hlength' (.inr hread) (by omega) (by omega)

/-- So the bytes are where they should be only if there is no such address. -/
theorem aligned_of_written_eq {addr : Int32} {a : ℕ} {buf : List UInt8} (tokens : List Token)
    {expected : List (ℕ × UInt8)} (hbuf : buf.length < 4) (hexpected : expected.length = buf.length)
    (hwhole : (buf.length + byteCount tokens) % 4 = 0)
    (h : written addr buf tokens = expected ++ assigned a tokens) : Aligned buf.length tokens := by
  induction tokens generalizing addr a buf expected with
  | nil => trivial
  | cons t tokens ih =>
    cases t with
    | address a' =>
      rcases Nat.eq_zero_or_pos buf.length with hzero | hpos
      · exact ⟨by omega, ih hbuf hexpected hwhole h⟩
      · exact absurd h
          (written_ne_of_inside tokens hpos hbuf hexpected (.inl ⟨rfl, rfl⟩) hwhole hpos)
    | byte b =>
      have hlength : (buf ++ [b]).length = buf.length + 1 := by simp
      have hlength' : (expected ++ [(a, b)]).length = (buf ++ [b]).length := by simp [hexpected]
      rw [byteCount] at hwhole
      rw [assigned, List.append_cons, written] at h
      split_ifs at h with hfull
      · have hrest := (List.append_inj h (by
          rw [hlength', packetWrites, placedAt, List.length_map, List.length_mapIdx])).2
        have haligned : Aligned 0 tokens :=
          ih (by decide) rfl (by rw [List.length_nil]; omega) (hrest.trans (List.nil_append _).symm)
        rw [Aligned, ← hlength, hfull]
        exact aligned_add_four.mpr haligned
      · rw [Aligned, ← hlength]
        exact ih (by omega) hlength' (by omega) h

theorem lt_of_mem_written {addr : Int32} {buf : List UInt8} {tokens : List Token} {p : ℕ × UInt8}
    (h : p ∈ written addr buf tokens) : p.1 < 2 ^ 32 := by
  induction tokens generalizing addr buf with
  | nil => exact absurd h List.not_mem_nil
  | cons t tokens ih =>
    cases t with
    | address a => exact ih h
    | byte b =>
      rw [written] at h
      split_ifs at h with hfull
      · rcases List.mem_append.mp h with h | h
        · obtain ⟨p, -, rfl⟩ := List.mem_map.mp h
          exact Nat.mod_lt _ (by decide)
        · exact ih h
      · exact ih h

theorem written_eq_iff {tokens : List Token} (hwhole : byteCount tokens % 4 = 0) :
    written 0 [] tokens = assigned 0 tokens ↔
      Aligned 0 tokens ∧ ∀ p ∈ assigned 0 tokens, p.1 < 2 ^ 32 := by
  constructor
  · intro h
    constructor
    · exact aligned_of_written_eq tokens (by decide) rfl
        (by rwa [List.length_nil, Nat.zero_add]) (h.trans (List.nil_append _).symm)
    · intro p hp
      rw [← h] at hp
      exact lt_of_mem_written hp
  · rintro ⟨haligned, hfits⟩
    exact written_eq_of_aligned (a := 0) tokens (fun _ => rfl) (by decide) haligned
      (by rwa [List.length_nil, Nat.zero_add]) hfits

/-! ### The function -/

/-- A well-formed file is loaded with its bytes where they should be, unless the final assertion
fails, exactly if no word is longer than the buffer for words and, where the number of bytes is a
multiple of four, every `@` comes after a multiple of four bytes and the addresses have 32 bits. -/
theorem places_iff {file : List UInt8} {tokens : List Token} (h : WellFormed file tokens)
    (vec buf : List UInt8) :
    Places vec file buf tokens ↔
      (∀ w ∈ words file, w.length ≤ 256) ∧ (byteCount tokens % 4 = 0 →
        Aligned 0 tokens ∧ ∀ p ∈ assigned 0 tokens, p.1 < 2 ^ 32) := by
  obtain ⟨hbuf, pushed, hvec, hwrites⟩ :=
    foldl_feed (m := ⟨0, [], vec⟩) (Nat.zero_lt_succ 3) tokens
  rw [List.length_nil, Nat.zero_add] at hbuf
  have hloop := readLoop_eq (s := ⟨file, buf, 0, [], vec⟩) (Nat.lt_succ_self _) h
  unfold Places readMemFile2ChipkitDMA
  rw [hloop]
  by_cases hshort : ∀ w ∈ words file, w.length ≤ 256
  · rw [if_pos hshort, and_iff_right hshort, Accumulator.finish, hbuf, hvec]
    by_cases hwhole : byteCount tokens % 4 = 0
    · rw [if_pos hwhole, forall_prop_of_true hwhole, ← written_eq_iff hwhole]
      constructor
      · rintro (hfail | ⟨pushed', hloaded, hwrites'⟩)
        · exact absurd hfail (by simp)
        · obtain rfl : pushed = pushed' := by simpa using hloaded
          exact Option.some_inj.mp (hwrites.symm.trans hwrites')
      · intro hwritten
        exact .inr ⟨pushed, rfl, hwrites.trans (congrArg some hwritten)⟩
    · simp [hwhole]
  · simp [hshort]

/-- A file of two words, with two addresses. -/
theorem places_two_words :
    WellFormed "@0 11 22 33 44\n@100 55 66 77 88\n".toUTF8.toList
      [.address 0, .byte 0x11, .byte 0x22, .byte 0x33, .byte 0x44,
        .address 0x100, .byte 0x55, .byte 0x66, .byte 0x77, .byte 0x88] ∧
    Places [] "@0 11 22 33 44\n@100 55 66 77 88\n".toUTF8.toList []
      [.address 0, .byte 0x11, .byte 0x22, .byte 0x33, .byte 0x44,
        .address 0x100, .byte 0x55, .byte 0x66, .byte 0x77, .byte 0x88] := by
  refine ⟨by decide +kernel, (places_iff (by decide +kernel) [] []).mpr ?_⟩
  decide +kernel

/-- Half a word before an `@` is written behind it, and the assertion holds. -/
theorem not_places :
    ¬ ∀ (file : List UInt8) (tokens : List Token), WellFormed file tokens →
      Places [] file [] tokens := by
  intro h
  have hplaces := h "@0 11 22 @100 33 44".toUTF8.toList
    [.address 0, .byte 0x11, .byte 0x22, .address 0x100, .byte 0x33, .byte 0x44] (by decide +kernel)
  have hread : readMemFile2ChipkitDMA [] "@0 11 22 @100 33 44".toUTF8.toList [] =
      some (.loaded [0x77, 0x00, 0x01, 0x00, 0x00, 0x11, 0x22, 0x33, 0x44, 0x0a]) := by
    decide +kernel
  rw [Places, hread] at hplaces
  rcases hplaces with hfail | ⟨pushed, hloaded, hwrites⟩
  · exact absurd hfail (by simp)
  · obtain rfl : [0x77, 0x00, 0x01, 0x00, 0x00, 0x11, 0x22, 0x33, 0x44, 0x0a] = pushed := by
      simpa using hloaded
    exact absurd hwrites (by decide +kernel)

end Beethoven.Chipkit
