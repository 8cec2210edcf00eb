import Qdrop.Lib.ShellWords

/-!
# The hint of `qdrop pair` (`qdrop/src/main.rs`)

The command for the other device is printed with the name of this one, quoted for a shell.  `pair_hint_words_iff` says
that a shell reads the name back from it unless the name is empty: an empty name is printed without quotes.
-/

namespace Qdrop

open Lib

/-- `unicode::Alphabetic` and `unicode::N` of the standard library, which it asks about characters after ASCII. -/
structure UnicodeTables where
  alphabetic : Char → Bool
  numeric : Char → Bool

variable (unicode : UnicodeTables)

namespace UnicodeTables

def isAlphabetic (c : Char) : Bool :=
  ('a' ≤ c && c ≤ 'z') || ('A' ≤ c && c ≤ 'Z') || ('\x7f' < c && unicode.alphabetic c)

def isNumeric (c : Char) : Bool := ('0' ≤ c && c ≤ '9') || ('\x7f' < c && unicode.numeric c)

/-- `char::is_alphanumeric`. -/
def isAlphanumeric (c : Char) : Bool := unicode.isAlphabetic c || unicode.isNumeric c

end UnicodeTables

def shellQuote (s : String) : String :=
  if s.toList.all fun c => unicode.isAlphanumeric c || "-_.".toList.contains c then s
  else "'" ++ String.ofList (s.toList.flatMap fun c => if c = '\'' then "'\\''".toList else [c]) ++ "'"

/-- The command that `cmd_pair` prints. -/
def pairHint (deviceName : String) : String := "qdrop pair " ++ shellQuote unicode deviceName

/-! ### The two ways of quoting -/

/-- A letter or digit of ASCII, or a character after it. -/
def canBeAlphanumeric (c : Char) : Bool :=
  ('a' ≤ c && c ≤ 'z') || ('A' ≤ c && c ≤ 'Z') || ('0' ≤ c && c ≤ '9') || '\x7f' < c

theorem canBeAlphanumeric_of_isAlphanumeric {c : Char} (h : unicode.isAlphanumeric c = true) :
    canBeAlphanumeric c = true := by
  simp only [UnicodeTables.isAlphanumeric, UnicodeTables.isAlphabetic, UnicodeTables.isNumeric, Bool.or_eq_true,
    Bool.and_eq_true] at h
  simp only [canBeAlphanumeric, Bool.or_eq_true, Bool.and_eq_true]
  tauto

/-- A shell gives no meaning to a character that may be alphanumeric, and none to the three others of plain names. -/
theorem isShellLiteral_of_plain {c : Char} (h : canBeAlphanumeric c = true ∨ c ∈ "-_.".toList) :
    isShellLiteral c = true := by
  by_contra hc
  have hmem : c ∈ "'\\ \t|&;<>()$`\"*?[#~=%\n\x00".toList := by
    have hspecial : isShellSpecial c = true → c ∈ "'\\ \t|&;<>()$`\"*?[#~=%\n\x00".toList := fun hs =>
      List.mem_append_right "'\\ \t".toList (List.contains_iff_mem.1 hs)
    simp only [isShellLiteral, isShellBlank, Bool.and_eq_true, bne_iff_ne, Bool.not_eq_true', Bool.or_eq_false_iff,
      beq_eq_false_iff_ne, not_and_or, not_not, Bool.not_eq_false] at hc
    rcases hc with ((rfl | rfl) | rfl | rfl) | hs
    · decide
    · decide
    · decide
    · decide
    · exact hspecial hs
  have hno : "'\\ \t|&;<>()$`\"*?[#~=%\n\x00".toList.all
      (fun d => !canBeAlphanumeric d && !"-_.".toList.contains d) = true := by decide
  have hc := List.all_eq_true.1 hno c hmem
  simp only [Bool.and_eq_true, Bool.not_eq_true'] at hc
  rcases h with h | h
  · rw [hc.1] at h
    cases h
  · rw [List.contains_iff_mem.2 h] at hc
    cases hc.2

/-- The quoted name and what follows it: a name that is not empty is one word. -/
theorem shellScan_shellQuote {s : String} (hs : '\x00' ∉ s.toList) (hne : s ≠ "") (rest : List Char) :
    shellScan .plain none ((shellQuote unicode s).toList ++ rest) = shellScan .plain (some s.toList) rest := by
  unfold shellQuote
  split
  · rename_i hplain
    refine shellScan_word (by simpa using hne) (fun c hc => ?_) rest
    have hc := List.all_eq_true.1 hplain c hc
    rw [Bool.or_eq_true, List.contains_iff_mem] at hc
    exact isShellLiteral_of_plain (hc.imp_left (canBeAlphanumeric_of_isAlphanumeric unicode))
  · have hescape : (String.ofList (s.toList.flatMap fun c => if c = '\'' then "'\\''".toList else [c])).toList =
        shellEscape s.toList := String.toList_ofList
    rw [String.toList_append, String.toList_append, hescape, List.append_assoc, List.append_assoc]
    exact shellScan_quoted hs rest

theorem shellWords_pairHint (s : String) :
    shellWords (pairHint unicode s).toList =
      (shellWords (shellQuote unicode s).toList).map (["qdrop".toList, "pair".toList] ++ ·) := by
  have htext : (pairHint unicode s).toList =
      "qdrop".toList ++ ' ' :: ("pair".toList ++ ' ' :: (shellQuote unicode s).toList) := by
    rw [pairHint, String.toList_append]
    rfl
  rw [htext, shellWords_cons (by decide) (List.all_eq_true.1 (by decide)),
    shellWords_cons (by decide) (List.all_eq_true.1 (by decide)), Option.map_map]
  rfl

/-- A shell reads exactly the name from the quoted name, and it as the argument of the command that is printed, if and
only if the name is not empty. -/
theorem pair_hint_words_iff (s : String) (hs : '\x00' ∉ s.toList) :
    (shellWords (shellQuote unicode s).toList = some [s.toList] ∧
        shellWords (pairHint unicode s).toList = some ["qdrop".toList, "pair".toList, s.toList]) ↔
      s ≠ "" := by
  constructor
  · rintro ⟨hword, -⟩ rfl
    cases hword
  · intro hne
    have hword : shellWords (shellQuote unicode s).toList = some [s.toList] := by
      have hscan := shellScan_shellQuote unicode hs hne []
      rw [List.append_nil] at hscan
      rw [shellWords, hscan]
      rfl
    refine ⟨hword, ?_⟩
    rw [shellWords_pairHint, hword]
    rfl

private def noTables : UnicodeTables := ⟨fun _ => false, fun _ => false⟩

theorem pair_hint_words_iff_quoted :
    shellQuote noTables "Ann's box" = "'Ann'\\''s box'" ∧
      shellWords (pairHint noTables "Ann's box").toList =
        some ["qdrop".toList, "pair".toList, "Ann's box".toList] :=
  ⟨by decide, ((pair_hint_words_iff noTables "Ann's box" (by decide)).2 (by decide)).2⟩

/-- The hint for an empty name has no argument for it. -/
theorem empty_name_is_no_word :
    ¬ ∀ (unicode : UnicodeTables) (s : String), '\x00' ∉ s.toList →
      shellWords (shellQuote unicode s).toList = some [s.toList] := by
  intro h
  have hempty := h noTables "" (by decide)
  exact absurd hempty (by decide)

end Qdrop
