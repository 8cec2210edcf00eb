import Mathlib.Data.List.Basic

/-!
# Words of a shell command

How a POSIX shell cuts a simple command into words: blanks separate words, single quotes make everything up to the next
single quote literal, and a backslash outside of quotes makes the next character literal.  A command that uses any
other special character, or that ends inside of quotes, has no words here.
-/

namespace Lib

/-- Space and tab. -/
def isShellBlank (c : Char) : Bool := c == ' ' || c == '\t'

/-- The characters that have to be quoted to stand for themselves, besides blanks, the single quote and the
backslash. -/
def isShellSpecial (c : Char) : Bool := "|&;<>()$`\"*?[#~=%\n\x00".toList.contains c

/-- What quotes the next character. -/
inductive ShellMode where
  | plain
  | quoted
  | escaped

/-- `word` is what has been read of the current word, if one has begun. -/
def shellScan : ShellMode → Option (List Char) → List Char → Option (List (List Char))
  | .plain, word, [] => some word.toList
  | .plain, word, c :: s =>
    if c = '\'' then shellScan .quoted (some (word.getD [])) s
    else if c = '\\' then shellScan .escaped word s
    else if isShellBlank c then (shellScan .plain none s).map (word.toList ++ ·)
    else if isShellSpecial c then none
    else shellScan .plain (some (word.getD [] ++ [c])) s
  | .quoted, _, [] => none
  | .quoted, word, c :: s =>
    if c = '\'' then shellScan .plain word s
    else if c = '\x00' then none
    else shellScan .quoted (some (word.getD [] ++ [c])) s
  | .escaped, _, [] => none
  | .escaped, word, c :: s =>
    -- an escaped newline continues the line
    if c = '\n' then shellScan .plain word s
    else if c = '\x00' then none
    else shellScan .plain (some (word.getD [] ++ [c])) s

def shellWords (s : List Char) : Option (List (List Char)) := shellScan .plain none s

/-- A character that stands for itself without quotes. -/
def isShellLiteral (c : Char) : Bool := c != '\'' && c != '\\' && !isShellBlank c && !isShellSpecial c

theorem shellScan_literal {c : Char} (hc : isShellLiteral c = true) (word : Option (List Char)) (s : List Char) :
    shellScan .plain word (c :: s) = shellScan .plain (some (word.getD [] ++ [c])) s := by
  simp only [isShellLiteral, Bool.and_eq_true, bne_iff_ne, Bool.not_eq_true'] at hc
  obtain ⟨⟨⟨hquote, hback⟩, hblank⟩, hspecial⟩ := hc
  simp only [shellScan, if_neg hquote, if_neg hback, hblank, hspecial, Bool.false_eq_true, if_false]

/-- Characters that stand for themselves are added to the word. -/
theorem shellScan_literals {w : List Char} (hw : ∀ c ∈ w, isShellLiteral c = true) (word rest : List Char) :
    shellScan .plain (some word) (w ++ rest) = shellScan .plain (some (word ++ w)) rest := by
  induction w generalizing word with
  | nil => rw [List.nil_append, List.append_nil]
  | cons c w ih =>
    rw [List.cons_append, shellScan_literal (hw c List.mem_cons_self), Option.getD_some,
      ih fun d hd => hw d (List.mem_cons_of_mem _ hd), List.append_assoc]
    rfl

/-- A word that needs no quotes begins a word. -/
theorem shellScan_word {w : List Char} (hne : w ≠ []) (hw : ∀ c ∈ w, isShellLiteral c = true) (rest : List Char) :
    shellScan .plain none (w ++ rest) = shellScan .plain (some w) rest := by
  obtain ⟨c, w, rfl⟩ := List.exists_cons_of_ne_nil hne
  rw [List.forall_mem_cons] at hw
  rw [List.cons_append, shellScan_literal hw.1, shellScan_literals hw.2]
  rfl

/-- A word and a blank after it. -/
theorem shellWords_cons {w : List Char} (hne : w ≠ []) (hw : ∀ c ∈ w, isShellLiteral c = true) (rest : List Char) :
    shellWords (w ++ ' ' :: rest) = (shellWords rest).map (w :: ·) := by
  rw [shellWords, shellScan_word hne hw]
  rfl

/-- The body of single quotes with every single quote taken out of them and escaped. -/
def shellEscape (s : List Char) : List Char := s.flatMap fun c => if c = '\'' then ['\'', '\\', '\'', '\''] else [c]

/-- Between quotes the escaped text is added to the word as it was. -/
theorem shellScan_escape {s : List Char} (hs : '\x00' ∉ s) (word rest : List Char) :
    shellScan .quoted (some word) (shellEscape s ++ '\'' :: rest) = shellScan .plain (some (word ++ s)) rest := by
  induction s generalizing word with
  | nil =>
    rw [List.append_nil]
    rfl
  | cons c s ih =>
    rw [List.mem_cons, not_or] at hs
    rw [shellEscape, List.flatMap_cons, ← shellEscape, List.append_assoc]
    by_cases hc : c = '\''
    · -- the quotes are closed, the quote is escaped, and they are opened again
      rw [if_pos hc, hc]
      exact (ih hs.2 (word ++ ['\''])).trans (by rw [List.append_assoc]; rfl)
    · rw [if_neg hc, List.cons_append, List.nil_append, shellScan, if_neg hc, if_neg (Ne.symm hs.1), Option.getD_some,
        ih hs.2, List.append_assoc]
      rfl

/-- A quoted text is a word, also where it is empty. -/
theorem shellScan_quoted {s : List Char} (hs : '\x00' ∉ s) (rest : List Char) :
    shellScan .plain none ('\'' :: shellEscape s ++ '\'' :: rest) = shellScan .plain (some s) rest := by
  rw [List.cons_append, shellScan, if_pos rfl]
  exact shellScan_escape hs [] rest

end Lib
