import Qdrop.Clipboard.Thread

/-!
# Desktop notifications (`qdropd/src/notify.rs`)

On macOS a notification is an AppleScript that is put together from its two texts, which may come from a peer.
`scriptTokens` reads a script the way AppleScript cuts it into string literals and the code around them;
`notification_literals` says that each text is one literal of the script, whatever it holds.
-/

namespace Qdrop

/-! ### The script -/

/-- What `applescript_quote` writes for a character. -/
def applescriptChar (c : Char) : List Char :=
  match c with
  | '"' | '\\' => ['\\', c]
  | '\n' => [' ']
  | c => [c]

/-- AppleScript string literal: wrap in quotes, backslash-escape the double quote and the backslash. -/
def applescriptQuote (s : String) : String := String.ofList ('"' :: s.toList.flatMap applescriptChar ++ ['"'])

def notifyScript (summary body : String) : String :=
  "display notification " ++ applescriptQuote body ++ " with title " ++ applescriptQuote summary

/-- The helper `notify` starts, and its arguments. -/
def notifyCommand (os : Platform) (summary body : String) : String × List String :=
  match os with
  | .macos => ("osascript", ["-e", notifyScript summary body])
  | .other => ("notify-send", ["--app-name=qdrop", summary, body])

/-! ### Literals of a script -/

inductive ScriptToken where
  | code (text : List Char)
  /-- What stands between the quotes. -/
  | literal (raw : List Char)
deriving DecidableEq, Repr

/-- Where the lexer is, with what it has read of the token. -/
inductive LexState where
  | code (text : List Char)
  | literal (raw : List Char)
  /-- After a backslash that is itself not escaped. -/
  | escaped (raw : List Char)

/-- The code before a literal, if there is any. -/
def codeToken (text : List Char) : List ScriptToken := if text = [] then [] else [.code text]

/-- A literal ends at the first double quote that no active backslash precedes. -/
def lexScript : LexState → List Char → Option (List ScriptToken)
  | .code text, [] => some (codeToken text)
  | .code text, c :: s =>
    if c = '"' then (lexScript (.literal []) s).map (codeToken text ++ ·) else lexScript (.code (text ++ [c])) s
  | .literal _, [] => none
  | .literal raw, c :: s =>
    if c = '"' then (lexScript (.code []) s).map (.literal raw :: ·)
    else lexScript (if c = '\\' then .escaped (raw ++ [c]) else .literal (raw ++ [c])) s
  | .escaped _, [] => none
  | .escaped raw, c :: s => lexScript (.literal (raw ++ [c])) s

def scriptTokens (s : String) : Option (List ScriptToken) := lexScript (.code []) s.toList

/-- What a literal stands for: a backslash makes the next character literal. -/
def unescape : List Char → List Char
  | '\\' :: c :: s => c :: unescape s
  | c :: s => c :: unescape s
  | [] => []

/-- Every newline is replaced by a space. -/
def spaced (s : List Char) : List Char := s.map fun c => if c = '\n' then ' ' else c

/-! ### The escapes and the lexer -/

theorem applescriptChar_cases (c : Char) :
    (applescriptChar c = ['\\', c] ∧ c ≠ '\n') ∨
      ∃ d, applescriptChar c = [d] ∧ d ≠ '"' ∧ d ≠ '\\' ∧ d = if c = '\n' then ' ' else c := by
  unfold applescriptChar
  split
  · exact Or.inl ⟨rfl, by decide⟩
  · exact Or.inl ⟨rfl, by decide⟩
  · exact Or.inr ⟨' ', rfl, by decide, by decide, rfl⟩
  · rename_i hquote hback hline
    exact Or.inr ⟨c, rfl, hquote, hback, (if_neg hline).symm⟩

/-- The lexer is inside of the literal after each escaped character. -/
theorem lexScript_escaped (s raw rest : List Char) :
    lexScript (.literal raw) (s.flatMap applescriptChar ++ rest) =
      lexScript (.literal (raw ++ s.flatMap applescriptChar)) rest := by
  induction s generalizing raw with
  | nil => simp
  | cons c s ih =>
    rw [List.flatMap_cons, List.append_assoc]
    rcases applescriptChar_cases c with ⟨hc, -⟩ | ⟨d, hd, hquote, hback, -⟩
    · rw [hc, List.cons_append, List.cons_append, List.nil_append, lexScript, if_neg (by decide), if_pos rfl, lexScript,
        ih]
      simp
    · rw [hd, List.cons_append, List.nil_append, lexScript, if_neg hquote, if_neg hback, ih]
      simp

theorem lexScript_quoted (s rest : List Char) :
    lexScript (.literal []) (s.flatMap applescriptChar ++ '"' :: rest) =
      (lexScript (.code []) rest).map (.literal (s.flatMap applescriptChar) :: ·) := by
  rw [lexScript_escaped, lexScript, if_pos rfl, List.nil_append]

private theorem lexScript_codeToken {code : List Char} (h : '"' ∉ code) (text rest : List Char) :
    lexScript (.code text) (code ++ '"' :: rest) =
      (lexScript (.literal []) rest).map (codeToken (text ++ code) ++ ·) := by
  induction code generalizing text with
  | nil => rw [List.nil_append, List.append_nil, lexScript, if_pos rfl]
  | cons c code ih =>
    rw [List.mem_cons, not_or] at h
    rw [List.cons_append, lexScript, if_neg (Ne.symm h.1), ih h.2, List.append_assoc]
    rfl

/-- Code without double quotes is read up to the next literal. -/
theorem lexScript_code {code : List Char} (hne : code ≠ []) (h : '"' ∉ code) (rest : List Char) :
    lexScript (.code []) (code ++ '"' :: rest) = (lexScript (.literal []) rest).map (.code code :: ·) := by
  rw [lexScript_codeToken h, List.nil_append, codeToken, if_neg hne]
  rfl

theorem unescape_flatMap (s : List Char) : unescape (s.flatMap applescriptChar) = spaced s := by
  induction s with
  | nil => rfl
  | cons c s ih =>
    rw [List.flatMap_cons, spaced, List.map_cons, ← spaced, ← ih]
    rcases applescriptChar_cases c with ⟨hc, hline⟩ | ⟨d, hd, -, hback, hspace⟩
    · rw [hc, if_neg hline]
      rfl
    · rw [hd, ← hspace, List.cons_append, List.nil_append, unescape]
      rintro c' s' rfl
      exact absurd rfl hback

/-- A quoted text is one complete literal. -/
theorem scriptTokens_quote (s : String) :
    scriptTokens (applescriptQuote s) = some [.literal (s.toList.flatMap applescriptChar)] := by
  rw [scriptTokens, applescriptQuote, String.toList_ofList, List.cons_append, lexScript, if_pos rfl, lexScript_quoted]
  rfl

/-- Two quoted texts, and code before each. -/
theorem scriptTokens_quoted {before between : String} (hbefore : before.toList ≠ [] ∧ '"' ∉ before.toList)
    (hbetween : between.toList ≠ [] ∧ '"' ∉ between.toList) (s t : String) :
    scriptTokens (before ++ applescriptQuote s ++ between ++ applescriptQuote t) =
      some [.code before.toList, .literal (s.toList.flatMap applescriptChar), .code between.toList,
        .literal (t.toList.flatMap applescriptChar)] := by
  have htext : (before ++ applescriptQuote s ++ between ++ applescriptQuote t).toList =
      before.toList ++ '"' :: (s.toList.flatMap applescriptChar ++ '"' ::
        (between.toList ++ '"' :: (t.toList.flatMap applescriptChar ++ '"' :: []))) := by
    simp [applescriptQuote, String.toList_append]
  rw [scriptTokens, htext, lexScript_code hbefore.1 hbefore.2, lexScript_quoted,
    lexScript_code hbetween.1 hbetween.2, lexScript_quoted]
  rfl

/-- In the script of a notification, and each for itself, the body and the summary are read as one complete literal
which stands for the text with every newline replaced by a space. -/
theorem notification_literals (summary body : String) :
    ∃ script rawBody rawSummary, notifyCommand .macos summary body = ("osascript", ["-e", script]) ∧
      scriptTokens (applescriptQuote body) = some [.literal rawBody] ∧ unescape rawBody = spaced body.toList ∧
      scriptTokens (applescriptQuote summary) = some [.literal rawSummary] ∧
      unescape rawSummary = spaced summary.toList ∧
      scriptTokens script = some [.code "display notification ".toList, .literal rawBody, .code " with title ".toList,
        .literal rawSummary] := by
  refine ⟨notifyScript summary body, body.toList.flatMap applescriptChar, summary.toList.flatMap applescriptChar, rfl,
    scriptTokens_quote body, unescape_flatMap body.toList, scriptTokens_quote summary, unescape_flatMap summary.toList,
    scriptTokens_quoted ?_ ?_ body summary⟩ <;> decide

example : (scriptTokens (notifyScript "x" "\" & (do shell script \"id\") & \"")).map List.length = some 4 := by decide

end Qdrop
