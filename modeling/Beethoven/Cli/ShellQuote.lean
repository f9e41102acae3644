import Beethoven.Lib.Replace
import Beethoven.Lib.ShellWords

/-!
# Quoting for the shell

Before a command is run, it is printed as a line that can be pasted into a shell
(`cli/src/ui.rs`). A word is printed as it is if all of its characters are safe, and otherwise
between single quotes, where a quote of the word leaves the quotes, is escaped and enters them
again. The commands for AWS have a copy of the function and a variant for paths, which also takes
the tilde for safe (`cli/src/commands/aws.rs`).
-/

namespace Beethoven.Cli

open Lib

/-! ### The functions -/

/-- Leave a word as it is if all of its characters are letters, digits or listed as safe, and put it
between quotes otherwise. -/
def quoteUnlessSafe (safe s : List Char) : List Char :=
  if s = [] then [Shell.quote, Shell.quote]
  else if s.any fun c => !(c.isAlphanum || safe.contains c) then
    [Shell.quote] ++
      replaceAll [Shell.quote] [Shell.quote, Shell.backslash, Shell.quote, Shell.quote] s ++
      [Shell.quote]
  else s

/-- `ui::shell_quote`. -/
def shellQuote (s : List Char) : List Char := quoteUnlessSafe "._-/=:@,+".toList s

/-- `aws::shell_quote`. -/
def Aws.shellQuote (s : List Char) : List Char := quoteUnlessSafe "._-/=:@,+".toList s

/-- `aws::shell_quote_path`, for the text of a path. -/
def Aws.shellQuotePath (s : List Char) : List Char := quoteUnlessSafe "._-/=:@,+~".toList s

/-- `ui::print_exec`: the variables that are set for the command, the program and its arguments. The
label in front of the line is left out. -/
def printExec (envs : List (List Char × Option (List Char))) (program : List Char)
    (args : List (List Char)) : List Char :=
  let settings := envs.filterMap fun (k, v) => v.map fun v => k ++ ['='] ++ shellQuote v
  List.intercalate [' '] (settings ++ [shellQuote program] ++ args.map shellQuote)

/-! ### What the shell reads -/

/-- Inside of quotes, the text in which the quotes are escaped is read as the text. -/
theorem run_escaped (l : Shell.Lexer) (hl : l.mode = .quoted) (w s : List Char) :
    (l.extend w).run
        (replaceAll [Shell.quote] [Shell.quote, Shell.backslash, Shell.quote, Shell.quote] s) =
      some (l.extend (w ++ s)) := by
  induction s generalizing w with
  | nil => rw [replaceAll_nil, Shell.Lexer.run_nil, List.append_nil]
  | cons c s ih =>
    have hw : w ++ c :: s = w ++ [c] ++ s := by simp
    by_cases hc : c = Shell.quote
    · -- leave the quotes, an escaped quote, enter the quotes
      subst hc
      have hread : (l.extend w).run [Shell.quote, Shell.backslash, Shell.quote, Shell.quote] =
          some (l.extend (w ++ [Shell.quote])) := by
        simp [Shell.Lexer.step, hl, Shell.Lexer.extend, Shell.quote, Shell.backslash, Shell.blanks]
      rw [replaceAll_cons_self, Shell.Lexer.run_append, hread, Option.bind_some, ih, hw]
    · have hread : (l.extend w).step c = some (l.extend (w ++ [c])) := by
        simp [Shell.Lexer.step, hl, hc]
      rw [replaceAll_cons_ne hc, Shell.Lexer.run_cons, hread, Option.bind_some, ih, hw]

theorem literal_of_isAlphanum {c : Char} (hc : c.isAlphanum) : Shell.Literal c := by
  have hmeaning : ∀ d ∈ Shell.blanks ++ [Shell.quote, Shell.backslash] ++ Shell.special,
      d.isAlphanum = false := by
    have hall : (Shell.blanks ++ [Shell.quote, Shell.backslash] ++ Shell.special).all
        (!Char.isAlphanum ·) = true := by decide
    simpa using List.all_eq_true.mp hall
  have hmem : c ∉ Shell.blanks ++ [Shell.quote, Shell.backslash] ++ Shell.special := by
    intro h
    rw [hmeaning c h] at hc
    exact Bool.false_ne_true hc
  simpa [Shell.Literal, and_assoc] using hmem

/-- A quoted word is read as the word, if those of its characters that are listed as safe stand for
themselves. -/
theorem reads_quoteUnlessSafe {safe s : List Char}
    (hsafe : ∀ c ∈ safe, c ∈ s → Shell.Literal c) : Shell.Reads (quoteUnlessSafe safe s) s := by
  intro l hl
  rw [quoteUnlessSafe]
  split_ifs with hnil hquote
  · subst hnil
    simp [Shell.Lexer.step, hl, Shell.Lexer.extend, Shell.quote, Shell.blanks]
  · have hopen : l.run [Shell.quote] =
        some (({ l with mode := .quoted } : Shell.Lexer).extend []) := by
      simp [Shell.Lexer.step, hl, Shell.Lexer.extend, Shell.quote, Shell.blanks]
    have hclose : (({ l with mode := .quoted } : Shell.Lexer).extend s).run [Shell.quote] =
        some (l.extend s) := by
      simp [Shell.Lexer.step, Shell.Lexer.extend, hl]
    rw [Shell.Lexer.run_append, Shell.Lexer.run_append, hopen, Option.bind_some,
      run_escaped _ rfl, List.nil_append, Option.bind_some, hclose]
  · refine Shell.reads_literal hnil (fun c hc => ?_) l hl
    have hc' : c.isAlphanum ∨ c ∈ safe := by
      by_contra h
      exact hquote (List.any_eq_true.mpr ⟨c, hc, by simpa [not_or] using h⟩)
    rcases hc' with h | h
    · exact literal_of_isAlphanum h
    · exact hsafe c h hc

theorem literal_of_safe : ∀ c ∈ "._-/=:@,+".toList, Shell.Literal c := by
  have hall : "._-/=:@,+".toList.all (decide <| Shell.Literal ·) = true := by decide
  exact fun c hc => of_decide_eq_true (List.all_eq_true.mp hall c hc)

theorem reads_shellQuote (s : List Char) : Shell.Reads (shellQuote s) s :=
  reads_quoteUnlessSafe fun c hc _ => literal_of_safe c hc

theorem forall₂_reads_shellQuote (ws : List (List Char)) :
    List.Forall₂ Shell.Reads (ws.map shellQuote) ws := by
  rw [List.forall₂_map_left_iff, List.forall₂_same]
  exact fun w _ => reads_shellQuote w

/-- The words that are quoted and printed with single blanks between them are the words that the
shell reads. -/
theorem split_shellQuote (ws : List (List Char)) :
    Shell.split (List.intercalate [' '] (ws.map shellQuote)) = some ws :=
  Shell.split_join (forall₂_reads_shellQuote ws)

theorem Aws.reads_shellQuote (s : List Char) : Shell.Reads (Aws.shellQuote s) s :=
  reads_quoteUnlessSafe fun c hc _ => literal_of_safe c hc

/-- The variant for paths leaves a tilde as it is, which the shell may replace by a directory. Any
other path is read as the path. -/
theorem Aws.reads_shellQuotePath {s : List Char} (hs : '~' ∉ s) :
    Shell.Reads (Aws.shellQuotePath s) s := by
  have hall : "._-/=:@,+~".toList.all (fun c => c = '~' ∨ Shell.Literal c) = true := by decide
  have hsafe : ∀ c ∈ "._-/=:@,+~".toList, c = '~' ∨ Shell.Literal c :=
    fun c hc => of_decide_eq_true (List.all_eq_true.mp hall c hc)
  refine reads_quoteUnlessSafe fun c hc hmem => (hsafe c hc).resolve_left fun h => hs ?_
  rwa [← h]

/-- The settings of a command are read as they would be without quotes, if the names of the
variables need none. -/
theorem forall₂_reads_settings {envs : List (List Char × Option (List Char))}
    (henvs : ∀ env ∈ envs, ∀ c ∈ env.1, Shell.Literal c) :
    List.Forall₂ Shell.Reads
      (envs.filterMap fun (k, v) => v.map fun v => k ++ ['='] ++ shellQuote v)
      (envs.filterMap fun (k, v) => v.map fun v => k ++ ['='] ++ v) := by
  induction envs with
  | nil => exact .nil
  | cons env envs ih =>
    obtain ⟨k, v⟩ := env
    have ih := ih fun env henv => henvs env (List.mem_cons_of_mem _ henv)
    cases v with
    | none => exact ih
    | some v =>
      have hname : ∀ c ∈ k ++ ['='], Shell.Literal c := by
        intro c hc
        rcases List.mem_append.mp hc with hc | hc
        · exact henvs (k, some v) List.mem_cons_self c hc
        · rw [List.mem_singleton.mp hc]
          decide
      exact .cons (Shell.reads_append (Shell.reads_literal (by simp) hname) (reads_shellQuote v)) ih

/-- The line that is printed for a command is read as its settings, the program and the arguments,
if the names of the variables need no quotes. -/
theorem split_printExec {envs : List (List Char × Option (List Char))} (program : List Char)
    (args : List (List Char)) (henvs : ∀ env ∈ envs, ∀ c ∈ env.1, Shell.Literal c) :
    Shell.split (printExec envs program args) =
      some ((envs.filterMap fun (k, v) => v.map fun v => k ++ ['='] ++ v) ++ [program] ++
        args) := by
  have hline : List.Forall₂ Shell.Reads ([program].map shellQuote ++ args.map shellQuote)
      ([program] ++ args) := by
    rw [← List.map_append]
    exact forall₂_reads_shellQuote ([program] ++ args)
  rw [printExec, List.append_assoc, List.append_assoc]
  exact Shell.split_join (List.rel_append (forall₂_reads_settings henvs) hline)

end Beethoven.Cli
