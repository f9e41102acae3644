import Mathlib.Algebra.Order.Ring.Int
import Mathlib.Data.List.Basic
import Mathlib.Data.List.TakeWhile
import Beethoven.Chipkit.Uart

/-!
# Loading a memory file

A model of `readMemFile2ChipkitDMA` in `util.cc`. A memory file is a text of words: an address after
an `@`, or a byte, in hexadecimal digits. The function reads the file by characters, with one
character of pushback, and words by `fscanf`. It collects bytes in a buffer of four and pushes a
packet with the address when the buffer is full.

A character is a signed byte, so the byte 255 is taken for the end of the file. A word that is
longer than the buffer that `fscanf` writes to overruns it; the function has no outcome then. The
address is a signed word that wraps around.

On a well-formed file the function is a fold over the words of the file.
-/

namespace Beethoven.Chipkit

/-! ### Characters and numbers -/

/-- `isspace`. -/
def isspace (c : UInt8) : Bool := (9 ≤ c && c ≤ 13) || c == 32

/-- `EOF` as a `char`. -/
def eof : UInt8 := 255

/-- The character `@`. -/
def atSign : UInt8 := 64

/-- The value of a hexadecimal digit. -/
def hexDigit (c : UInt8) : Option ℕ :=
  if 48 ≤ c ∧ c ≤ 57 then some (c.toNat - 48)
  else if 65 ≤ c ∧ c ≤ 70 then some (c.toNat - 55)
  else if 97 ≤ c ∧ c ≤ 102 then some (c.toNat - 87)
  else none

def isHex (c : UInt8) : Bool := (hexDigit c).isSome

/-- The number with the given digits. -/
def hexValue (digits : List UInt8) : ℕ :=
  digits.foldl (fun v c => 16 * v + (hexDigit c).getD 0) 0

/-- The digits after an optional `0x`. -/
def dropHexMark : List UInt8 → List UInt8
  | 48 :: x :: d :: s => if (x = 120 ∨ x = 88) ∧ isHex d then d :: s else 48 :: x :: d :: s
  | s => s

/-- A number within the range of a `long`. -/
def clampLong (v : ℤ) : ℤ := max (-2 ^ 63) (min v (2 ^ 63 - 1))

/-- `strtol` to the base 16. -/
def strtol (s : List UInt8) : ℤ :=
  match s.dropWhile isspace with
  | 45 :: s => clampLong (-hexValue ((dropHexMark s).takeWhile isHex))
  | 43 :: s => clampLong (hexValue ((dropHexMark s).takeWhile isHex))
  | s => clampLong (hexValue ((dropHexMark s).takeWhile isHex))

/-! ### The buffer of four bytes -/

/-- `push_val` of a word: its bytes in memory. -/
def pushVal (val : UInt32) : List UInt8 :=
  [val.toUInt8, (val >>> 8).toUInt8, (val >>> 16).toUInt8, (val >>> 24).toUInt8]

/-- The address, the bytes of `inst_buf` below `inst_idx`, and the queue. -/
structure Accumulator where
  addr : Int32
  instBuf : List UInt8
  vec : List UInt8
  deriving DecidableEq, Repr

/-- A byte is stored; a full buffer is pushed as a packet. -/
def Accumulator.store (m : Accumulator) (b : UInt8) : Accumulator :=
  let instBuf := m.instBuf ++ [b]
  if instBuf.length = 4 then
    ⟨m.addr + 4, [], m.vec ++ (0x77 :: (pushVal m.addr.toUInt32 ++ instBuf) ++ [0x0a])⟩
  else { m with instBuf := instBuf }

/-! ### The loop -/

/-- What is left of the file, the contents of `buf`, and the accumulator. -/
structure Loader where
  file : List UInt8
  buf : List UInt8
  acc : Accumulator
  deriving DecidableEq, Repr

/-- `getc`. -/
def getc : List UInt8 → UInt8 × List UInt8
  | [] => (eof, [])
  | c :: file => (c, file)

/-- `ungetc`, which does nothing with `EOF`. -/
def ungetc (c : UInt8) (file : List UInt8) : List UInt8 := if c = eof then file else c :: file

/-- `while (isspace(c = getc(f)));`. -/
def skipSpaces : List UInt8 → UInt8 × List UInt8
  | [] => (eof, [])
  | c :: file => if isspace c then skipSpaces file else (c, file)

/-- `fscanf(f, "%s", buf)`. Without a word the buffer keeps its contents. There is no result if the
word and its end do not fit in the buffer. -/
def Loader.scan (s : Loader) : Option Loader :=
  match s.file.dropWhile isspace with
  | [] => some { s with file := [] }
  | file =>
    let word := file.takeWhile (!isspace ·)
    if 256 ≤ word.length then none
    else some { s with buf := word, file := file.dropWhile (!isspace ·) }

/-- How a round of the loop ends. -/
inductive Round
  | next (s : Loader)
  | done (s : Loader)
  | overrun
  deriving DecidableEq, Repr

/-- A round of the loop. -/
def Loader.round (s : Loader) : Round :=
  let (c, file) := getc s.file
  if c = eof then .done { s with file := file }
  else
    let (c, file) := if isspace c then skipSpaces file else (c, file)
    let file := if c ≠ atSign then ungetc c file else file
    if c = eof then .done { s with file := file }
    else if c = atSign then
      match { s with file := file }.scan with
      | none => .overrun
      | some s => .next { s with acc.addr := .ofInt (strtol s.buf) }
    else
      let (q, file) := getc file
      let file := ungetc q file
      if q = atSign then .next { s with file := file }
      else
        match { s with file := file }.scan with
        | none => .overrun
        | some s => .next { s with acc := s.acc.store (.ofInt (strtol s.buf)) }

/-- How the function ends. -/
inductive Outcome
  | loaded (vec : List UInt8)
  | assertionFailed
  | overrun
  deriving DecidableEq, Repr

/-- The assertion after the loop, in a build in which `assert` is compiled in (without `NDEBUG`). -/
def Accumulator.finish (m : Accumulator) : Outcome :=
  if m.instBuf.length = 0 then .loaded m.vec else .assertionFailed

/-- The loop, if it ends within a number of rounds. -/
def readLoop : ℕ → Loader → Option Outcome
  | 0, _ => none
  | n + 1, s =>
    match s.round with
    | .next s => readLoop n s
    | .done s => some s.acc.finish
    | .overrun => some .overrun

/-- `readMemFile2ChipkitDMA`. The contents of `buf` are not initialised. -/
def readMemFile2ChipkitDMA (vec file buf : List UInt8) : Option Outcome :=
  readLoop (file.length + 1) ⟨file, buf, 0, [], vec⟩

/-! ### Memory files -/

/-- The words of a text. -/
def words (file : List UInt8) : List (List UInt8) := (file.splitOnP isspace).filter (· ≠ [])

/-- A word of a memory file. -/
inductive Token
  | address (a : ℕ)
  | byte (b : UInt8)
  deriving DecidableEq, Repr

/-- The meaning of a word: an `@` and digits, or one or two digits. -/
def token : List UInt8 → Option Token
  | [] => none
  | c :: digits =>
    if c = atSign then
      if digits ≠ [] ∧ digits.all isHex then some (.address (hexValue digits)) else none
    else if digits.length ≤ 1 ∧ (c :: digits).all isHex then
      some (.byte (.ofNat (hexValue (c :: digits))))
    else none

/-- The words of the file have the given meanings. -/
def WellFormed (file : List UInt8) (tokens : List Token) : Prop :=
  (words file).map token = tokens.map some

instance (file : List UInt8) (tokens : List Token) : Decidable (WellFormed file tokens) :=
  inferInstanceAs (Decidable (_ = _))

/-- A word is read. -/
def Accumulator.feed (m : Accumulator) : Token → Accumulator
  | .address a => { m with addr := .ofNat (min a (2 ^ 63 - 1)) }
  | .byte b => m.store b

/-! ### The words of a text -/

theorem words_nil : words [] = [] := rfl

theorem words_cons_space {c : UInt8} (hc : isspace c = true) (file : List UInt8) :
    words (c :: file) = words file := by
  rw [words, List.splitOnP_cons_eq_if_modifyHead, if_pos hc, List.filter_cons_of_neg (by simp)]
  rfl

theorem words_dropWhile (file : List UInt8) : words (file.dropWhile isspace) = words file := by
  induction file with
  | nil => rfl
  | cons c file ih =>
    cases hc : isspace c with
    | true => rw [List.dropWhile_cons_of_pos hc, ih, words_cons_space hc]
    | false => rw [List.dropWhile_cons_of_neg (by simp [hc])]

theorem words_cons {c : UInt8} (hc : isspace c = false) (file : List UInt8) :
    words (c :: file) = (c :: file.takeWhile (!isspace ·)) ::
      words (file.dropWhile (!isspace ·)) := by
  have hword : ∀ x ∈ c :: file.takeWhile (!isspace ·), isspace x = false := by
    intro x hx
    rcases List.mem_cons.mp hx with rfl | hx
    · exact hc
    · simpa using List.mem_takeWhile_imp hx
  conv_lhs => rw [← List.takeWhile_append_dropWhile (p := (!isspace ·)) (l := file)]
  cases hrest : file.dropWhile (!isspace ·) with
  | nil =>
    rw [List.append_nil, words, List.splitOnP_eq_singleton hword, List.filter_cons_of_pos (by simp)]
    rfl
  | cons x rest =>
    have hx : isspace x = true := by
      have h := List.head?_dropWhile_not (!isspace ·) file
      simpa [hrest] using h
    rw [words_cons_space hx, words, ← List.cons_append, List.splitOnP_append_cons _ _ hx,
      List.splitOnP_eq_singleton hword, List.singleton_append, List.filter_cons_of_pos (by simp)]
    rfl

/-! ### The numbers of a well-formed file -/

/-- A digit is none of the characters that are read in another way. -/
theorem not_special_of_isHex {c : UInt8} (hc : isHex c = true) :
    isspace c = false ∧ c ∉ [eof, 45, 43, 120, 88] := by
  have hall : ∀ c, isHex c = true → isspace c = false ∧ c ∉ [eof, 45, 43, 120, 88] :=
    forall_byte (by decide +kernel)
  exact hall c hc

theorem hexDigit_le (c : UInt8) : (hexDigit c).getD 0 ≤ 15 := by
  have hall : ∀ c, (hexDigit c).getD 0 ≤ 15 := forall_byte (by decide +kernel)
  exact hall c

theorem dropHexMark_eq {digits : List UInt8} (h : digits.all isHex = true) :
    dropHexMark digits = digits := by
  unfold dropHexMark
  split
  · next x d s =>
    simp only [List.all_cons, Bool.and_eq_true] at h
    have hx := (not_special_of_isHex h.2.1).2
    simp only [List.mem_cons, not_or] at hx
    rw [if_neg fun hmark => hmark.1.elim hx.2.2.2.1 hx.2.2.2.2.1]
  · rfl

/-- Digits are read as their number, unless it is too large. -/
theorem strtol_eq {digits : List UInt8} (h : digits.all isHex = true) :
    strtol digits = (min (hexValue digits) (2 ^ 63 - 1) : ℕ) := by
  have hclamp : ∀ n : ℕ, clampLong n = (min n (2 ^ 63 - 1) : ℕ) := by
    intro n
    rw [clampLong]
    omega
  have hdrop : digits.dropWhile isspace = digits := by
    cases digits with
    | nil => rfl
    | cons c digits =>
      rw [List.all_cons, Bool.and_eq_true] at h
      exact List.dropWhile_cons_of_neg (by simp [(not_special_of_isHex h.1).1])
  have htake : digits.takeWhile isHex = digits :=
    List.takeWhile_eq_self_iff.mpr fun c hc => List.all_eq_true.mp h c hc
  rw [strtol, hdrop]
  split
  · next s =>
    rw [List.all_cons] at h
    exact absurd h (by simp [show isHex 45 = false by decide])
  · next s =>
    rw [List.all_cons] at h
    exact absurd h (by simp [show isHex 43 = false by decide])
  · rw [dropHexMark_eq h, htake, hclamp]

theorem ofInt_strtol_eq {digits : List UInt8} (h : digits.all isHex = true)
    (hlength : digits.length ≤ 2) :
    UInt8.ofInt (strtol digits) = .ofNat (hexValue digits) := by
  have hlt : hexValue digits < 256 := by
    match digits, hlength with
    | [], _ => decide
    | [c], _ =>
      have hc := hexDigit_le c
      simp only [hexValue, List.foldl_cons, List.foldl_nil]
      omega
    | [c, c'], _ =>
      have hc := hexDigit_le c
      have hc' := hexDigit_le c'
      simp only [hexValue, List.foldl_cons, List.foldl_nil]
      omega
  rw [strtol_eq h, Nat.min_eq_left (by omega), UInt8.ofInt]
  congr 1
  omega

/-! ### A round on a well-formed file -/

theorem skipSpaces_eq (file : List UInt8) : skipSpaces file = getc (file.dropWhile isspace) := by
  induction file with
  | nil => rfl
  | cons c file ih =>
    cases hc : isspace c with
    | true => rw [skipSpaces, if_pos hc, ih, List.dropWhile_cons_of_pos hc]
    | false =>
      rw [skipSpaces, if_neg (by simp [hc]), List.dropWhile_cons_of_neg (by simp [hc])]
      rfl

theorem ne_eof_of_isspace {c : UInt8} (hc : isspace c = true) : c ≠ eof := by
  rintro rfl
  exact absurd hc (by decide)

theorem round_of_spaces {s : Loader} (h : s.file.dropWhile isspace = []) :
    s.round = .done { s with file := [] } := by
  cases hfile : s.file with
  | nil => simp [Loader.round, hfile, getc]
  | cons c file =>
    rw [hfile] at h
    cases hc : isspace c with
    | true =>
      rw [List.dropWhile_cons_of_pos hc] at h
      simp [Loader.round, hfile, getc, ne_eof_of_isspace hc, hc, skipSpaces_eq, h, ungetc,
        show eof ≠ atSign by decide]
    | false => simp [List.dropWhile_cons_of_neg, hc] at h

theorem round_of_word {s : Loader} {c : UInt8} {file : List UInt8}
    (h : s.file.dropWhile isspace = c :: file) (hc : c ≠ eof) :
    s.round =
      if c = atSign then
        match { s with file := file }.scan with
        | none => .overrun
        | some s => .next { s with acc.addr := .ofInt (strtol s.buf) }
      else
        match { s with file := c :: file }.scan with
        | none => .overrun
        | some s => .next { s with acc := s.acc.store (.ofInt (strtol s.buf)) } := by
  have hget : ∃ x rest, s.file = x :: rest ∧ x ≠ eof ∧
      (if isspace x then skipSpaces rest else (x, rest)) = (c, file) := by
    cases hfile : s.file with
    | nil => simp [hfile] at h
    | cons x rest =>
      rw [hfile] at h
      cases hx : isspace x with
      | true =>
        rw [List.dropWhile_cons_of_pos hx] at h
        exact ⟨x, rest, rfl, ne_eof_of_isspace hx, by rw [if_pos hx, skipSpaces_eq, h]; rfl⟩
      | false =>
        rw [List.dropWhile_cons_of_neg (by simp [hx])] at h
        obtain ⟨rfl, rfl⟩ := List.cons_eq_cons.mp h
        exact ⟨x, rest, rfl, hc, if_neg (by simp [hx])⟩
  obtain ⟨x, rest, hfile, hx, hskip⟩ := hget
  by_cases hat : c = atSign
  · subst hat
    simp [Loader.round, hfile, getc, hx, hskip, hc]
  · simp [Loader.round, hfile, getc, hx, hskip, hc, hat, ungetc]

theorem scan_of_word {s : Loader} {c : UInt8} {file : List UInt8} (h : s.file = c :: file)
    (hc : isspace c = false) :
    s.scan = if 256 ≤ (c :: file.takeWhile (!isspace ·)).length then none
      else some { s with
        buf := c :: file.takeWhile (!isspace ·), file := file.dropWhile (!isspace ·) } := by
  simp [Loader.scan, h, hc, List.dropWhile_cons_of_neg]

theorem token_eq_some {c : UInt8} {digits : List UInt8} {t : Token}
    (h : token (c :: digits) = some t) :
    (c = atSign ∧ digits ≠ [] ∧ digits.all isHex = true ∧ t = .address (hexValue digits)) ∨
      (c ≠ atSign ∧ digits.length ≤ 1 ∧ (c :: digits).all isHex = true ∧
        t = .byte (.ofNat (hexValue (c :: digits)))) := by
  simp only [token] at h
  split_ifs at h with hat hdigits hbyte
  · exact .inl ⟨hat, hdigits.1, hdigits.2, (Option.some_inj.mp h).symm⟩
  · exact .inr ⟨hat, hbyte.1, hbyte.2, (Option.some_inj.mp h).symm⟩

theorem round_of_token {s : Loader} {c : UInt8} {file : List UInt8} {t : Token}
    (h : s.file.dropWhile isspace = c :: file)
    (ht : token (c :: file.takeWhile (!isspace ·)) = some t) :
    (256 < (c :: file.takeWhile (!isspace ·)).length ∧ s.round = .overrun) ∨
      ((c :: file.takeWhile (!isspace ·)).length ≤ 256 ∧ ∃ buf,
        s.round = .next ⟨file.dropWhile (!isspace ·), buf, s.acc.feed t⟩) := by
  rcases token_eq_some ht with ⟨rfl, hne, hhex, rfl⟩ | ⟨hat, hlength, hhex, rfl⟩
  · rw [round_of_word h (by decide), if_pos rfl]
    obtain ⟨d, rest, rfl, hd⟩ : ∃ d rest, file = d :: rest ∧ isspace d = false := by
      cases file with
      | nil => exact absurd rfl hne
      | cons d rest =>
        refine ⟨d, rest, rfl, ?_⟩
        by_contra hd
        exact hne (List.takeWhile_cons_of_neg (by simpa using hd))
    have hword : (d :: rest).takeWhile (!isspace ·) = d :: rest.takeWhile (!isspace ·) :=
      List.takeWhile_cons_of_pos (by simp [hd])
    have hrest : (d :: rest).dropWhile (!isspace ·) = rest.dropWhile (!isspace ·) :=
      List.dropWhile_cons_of_pos (by simp [hd])
    rw [scan_of_word rfl hd, ← hword, ← hrest, List.length_cons]
    split_ifs with hlong
    · exact .inl ⟨by omega, rfl⟩
    · refine .inr ⟨by omega, (d :: rest).takeWhile (!isspace ·), ?_⟩
      simp only [strtol_eq hhex]
      rfl
  · have hc := List.all_eq_true.mp hhex c List.mem_cons_self
    have hspecial := not_special_of_isHex hc
    have heof : c ≠ eof := fun heq => hspecial.2 (heq ▸ List.mem_cons_self)
    rw [round_of_word h heof, if_neg hat, scan_of_word rfl hspecial.1,
      if_neg (by rw [List.length_cons]; omega)]
    refine .inr ⟨by rw [List.length_cons]; omega, c :: file.takeWhile (!isspace ·), ?_⟩
    simp only [ofInt_strtol_eq hhex (by rw [List.length_cons]; omega)]
    rfl

/-! ### The loop on a well-formed file -/

/-- The loop ends on every well-formed file. If no word is too long, the words are read one after
the other. -/
theorem readLoop_eq {n : ℕ} {s : Loader} {tokens : List Token} (hn : s.file.length < n)
    (h : WellFormed s.file tokens) :
    readLoop n s = some (if ∀ w ∈ words s.file, w.length ≤ 256 then
      (tokens.foldl Accumulator.feed s.acc).finish else .overrun) := by
  induction n generalizing s tokens with
  | zero => exact absurd hn (Nat.not_lt_zero _)
  | succ n ih =>
    have hlength : (s.file.dropWhile isspace).length ≤ s.file.length :=
      (List.dropWhile_sublist isspace).length_le
    unfold WellFormed at h
    rw [← words_dropWhile] at h ⊢
    rw [readLoop]
    cases hfile : s.file.dropWhile isspace with
    | nil =>
      rw [hfile, words_nil] at h
      obtain rfl : tokens = [] := List.map_eq_nil_iff.mp h.symm
      simp [round_of_spaces hfile, words_nil]
    | cons c file =>
      have hc : isspace c = false := by
        have hhead := List.head?_dropWhile_not isspace s.file
        simpa [hfile] using hhead
      rw [hfile, words_cons hc] at h
      rw [hfile, List.length_cons] at hlength
      rw [words_cons hc]
      cases tokens with
      | nil => exact absurd h (by simp)
      | cons t tokens =>
        rw [List.map_cons, List.map_cons, List.cons_eq_cons] at h
        rcases round_of_token hfile h.1 with ⟨hlong, hround⟩ | ⟨hshort, buf, hround⟩
        · rw [hround, if_neg fun hall => Nat.not_le.mpr hlong (hall _ List.mem_cons_self)]
        · have hrest : (file.dropWhile (!isspace ·)).length ≤ file.length :=
            (List.dropWhile_sublist _).length_le
          have hloop := ih (s := ⟨_, buf, s.acc.feed t⟩)
            (show (file.dropWhile (!isspace ·)).length < n by omega) h.2
          rw [hround]
          dsimp only
          rw [hloop]
          simp only [List.forall_mem_cons, hshort, true_and, List.foldl_cons]

end Beethoven.Chipkit
