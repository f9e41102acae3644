import Mathlib.Data.List.Forall2
import Mathlib.Tactic.Common

/-!
# Words of a shell command

How a POSIX shell reads the words of a simple command: blanks separate words, everything between
single quotes stands for itself, and a backslash outside of quotes takes the next character as it
is. A backslash before a line feed disappears with it. A line in which any other character with a
meaning of its own stands outside of quotes is not one of these words, and neither is one that ends
inside of quotes.

## Main definitions

* `Shell.Lexer`, `Shell.Lexer.step`: what has been read, and the next character.
* `Shell.split`: the words of a line.
* `Shell.Reads`: a piece of the line that the shell reads as a given text.

## Main results

* `Shell.reads_append`, `Shell.reads_literal`: pieces that follow each other.
* `Shell.split_join`: pieces with single blanks between them are the words that they are read as.
-/

namespace Beethoven.Lib.Shell

/-- The single quote. -/
def quote : Char := '\x27'

/-- The backslash. -/
def backslash : Char := '\x5c'

/-- What separates words. -/
def blanks : List Char := [' ', '\t']

/-- The other characters that stand for something else outside of quotes. -/
def special : List Char := "|&;<>()$`\"*?[]#~!^\x7b\x7d\n".toList

/-- How the next character is read. -/
inductive Mode
  | plain
  | quoted
  | escaped
  deriving DecidableEq, Repr

/-- The words that have been read and the one that has been begun. -/
structure Lexer where
  mode : Mode
  word : Option (List Char)
  words : List (List Char)
  deriving DecidableEq, Repr

namespace Lexer

/-- Add a text to the word, which it begins if there is none. -/
def extend (l : Lexer) (s : List Char) : Lexer := { l with word := some (l.word.getD [] ++ s) }

/-- The end of a word, if one has been begun. -/
def endWord (l : Lexer) : Lexer := { l with word := none, words := l.words ++ l.word.toList }

/-- Read a character. -/
def step (l : Lexer) (c : Char) : Option Lexer :=
  match l.mode with
  | .plain =>
    if c ∈ blanks then some l.endWord
    else if c = quote then some { l.extend [] with mode := .quoted }
    else if c = backslash then some { l with mode := .escaped }
    else if c ∈ special then none
    else some (l.extend [c])
  | .quoted => if c = quote then some { l with mode := .plain } else some (l.extend [c])
  | .escaped =>
    if c = '\n' then some { l with mode := .plain } else some { l.extend [c] with mode := .plain }

/-- Read a text. -/
def run (l : Lexer) (s : List Char) : Option Lexer := s.foldlM step l

/-- The words, if the line may end here. -/
def finish (l : Lexer) : Option (List (List Char)) :=
  match l.mode with
  | .plain => some (l.words ++ l.word.toList)
  | .quoted | .escaped => none

@[simp]
theorem run_nil (l : Lexer) : l.run [] = some l := rfl

@[simp]
theorem run_cons (l : Lexer) (c : Char) (s : List Char) :
    l.run (c :: s) = (l.step c).bind fun l' => l'.run s := List.foldlM_cons

theorem run_append (l : Lexer) (s t : List Char) :
    l.run (s ++ t) = (l.run s).bind fun l' => l'.run t := List.foldlM_append

@[simp]
theorem extend_mode (l : Lexer) (s : List Char) : (l.extend s).mode = l.mode := rfl

@[simp]
theorem extend_words (l : Lexer) (s : List Char) : (l.extend s).words = l.words := rfl

@[simp]
theorem extend_extend (l : Lexer) (s t : List Char) :
    (l.extend s).extend t = l.extend (s ++ t) := by
  simp [extend]

end Lexer

/-- The words of a line. -/
def split (s : List Char) : Option (List (List Char)) :=
  ((⟨.plain, none, []⟩ : Lexer).run s).bind Lexer.finish

/-- A piece of a line that is read, outside of quotes, as a given text. -/
def Reads (s text : List Char) : Prop :=
  ∀ l : Lexer, l.mode = .plain → l.run s = some (l.extend text)

/-- A character that stands for itself outside of quotes. -/
def Literal (c : Char) : Prop := c ∉ blanks ∧ c ≠ quote ∧ c ≠ backslash ∧ c ∉ special

instance (c : Char) : Decidable (Literal c) := inferInstanceAs (Decidable (_ ∧ _))

theorem reads_append {s t text text' : List Char} (hs : Reads s text) (ht : Reads t text') :
    Reads (s ++ t) (text ++ text') := by
  intro l hl
  rw [Lexer.run_append, hs l hl, Option.bind_some, ht (l.extend text) hl,
    Lexer.extend_extend]

theorem reads_char {c : Char} (hc : Literal c) : Reads [c] [c] := by
  intro l hl
  simp [Lexer.step, hl, hc.1, hc.2.1, hc.2.2.1, hc.2.2.2]

theorem reads_literal {s : List Char} (hne : s ≠ []) (hs : ∀ c ∈ s, Literal c) : Reads s s := by
  induction s with
  | nil => exact absurd rfl hne
  | cons c s ih =>
    have hc := reads_char (hs c List.mem_cons_self)
    by_cases hne' : s = []
    · subst hne'
      exact hc
    · exact reads_append hc (ih hne' fun d hd => hs d (List.mem_cons_of_mem c hd))

theorem run_blank {l : Lexer} (hmode : l.mode = .plain) (hword : l.word = none) (w : List Char) :
    (l.extend w).run [' '] = some { l with words := l.words ++ [w] } := by
  have hblank : ' ' ∈ blanks := by decide
  simp [Lexer.step, hmode, hblank, Lexer.endWord, Lexer.extend, hword]

theorem run_join {ps ws : List (List Char)} (h : List.Forall₂ Reads ps ws) (l : Lexer)
    (hmode : l.mode = .plain) (hword : l.word = none) :
    (l.run (List.intercalate [' '] ps)).bind Lexer.finish = some (l.words ++ ws) := by
  induction h generalizing l with
  | nil => simp [Lexer.finish, hmode, hword]
  | @cons p w ps ws hp h ih =>
    cases h with
    | nil => simp [hp l hmode, Lexer.finish, Lexer.extend, hmode, hword]
    | cons hp' h =>
      -- the first word, the blank behind it, and the rest from a lexer that holds the word
      rw [List.intercalate_cons_cons, Lexer.run_append, Lexer.run_append, hp l hmode,
        Option.bind_some, run_blank hmode hword, Option.bind_some]
      refine (ih { l with words := l.words ++ [w] } hmode hword).trans ?_
      rw [List.append_assoc, List.singleton_append]

/-- Pieces with single blanks between them are read as the words that each of them is read as. -/
theorem split_join {ps ws : List (List Char)} (h : List.Forall₂ Reads ps ws) :
    split (List.intercalate [' '] ps) = some ws :=
  run_join h ⟨.plain, none, []⟩ rfl rfl

end Beethoven.Lib.Shell
