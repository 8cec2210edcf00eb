import Mathlib.Algebra.BigOperators.Group.List.Basic
import Mathlib.Algebra.GroupWithZero.Nat
import Mathlib.Algebra.Order.Group.Nat

/-!
# JSON texts

A parser for JSON (numbers are kept as their text, an unpaired surrogate is refused) and a printer for objects of
strings.  What is printed is parsed (`parse_printObject`), and no text of an object of strings is shorter than the text
where only the characters that may not stand in a string are escaped, with two characters each (`parse_object_cost`).
-/

namespace Lib

inductive Json where
  | null
  | bool (b : Bool)
  | num (text : String)
  | str (s : String)
  | arr (items : List Json)
  | obj (members : List (String × Json))

namespace Json

/-- The value of the first member with the name `key`. -/
def get? (key : String) : Json → Option Json
  | .obj members => (members.find? fun m => m.1 == key).map (·.2)
  | _ => none

def asBool : Json → Option Bool
  | .bool b => some b
  | _ => none

def asStr : Json → Option String
  | .str s => some s
  | _ => none

def asArray : Json → Option (List Json)
  | .arr items => some items
  | _ => none

/-! ### The parser -/

/-- A value and what is left of the text. -/
abbrev Parser (α : Type) := List Char → Option (α × List Char)

def isWs (c : Char) : Bool := c == ' ' || c == '\t' || c == '\n' || c == '\r'

def skipWs (s : List Char) : List Char := s.dropWhile isWs

/-- A character that may not stand in a string as it is. -/
def Special (c : Char) : Prop := c = '"' ∨ c = '\\' ∨ c.toNat < 0x20

instance (c : Char) : Decidable (Special c) := inferInstanceAs (Decidable (_ ∨ _))

def hexDigit (c : Char) : Option Nat :=
  if c.isDigit then some (c.toNat - 48)
  else if 'a' ≤ c ∧ c ≤ 'f' then some (c.toNat - 87)
  else if 'A' ≤ c ∧ c ≤ 'F' then some (c.toNat - 55)
  else none

/-- Four hexadecimal digits. -/
def hex4 : Parser Nat
  | a :: b :: c :: d :: rest =>
    match hexDigit a, hexDigit b, hexDigit c, hexDigit d with
    | some a, some b, some c, some d => some (((a * 16 + b) * 16 + c) * 16 + d, rest)
    | _, _, _, _ => none
  | _ => none

/-- The low half of a surrogate pair. -/
def lowSurrogate : Parser Nat
  | '\\' :: 'u' :: rest => (hex4 rest).filter fun r => 0xdc00 ≤ r.1 ∧ r.1 < 0xe000
  | _ => none

/-- What follows a backslash and a `u`. -/
def unicodeEscape (s : List Char) : Option (Char × List Char) :=
  match hex4 s with
  | none => none
  | some (n, rest) =>
    if 0xd800 ≤ n ∧ n < 0xdc00 then
      (lowSurrogate rest).map fun r => (Char.ofNat (0x10000 + (n - 0xd800) * 0x400 + (r.1 - 0xdc00)), r.2)
    else if 0xdc00 ≤ n ∧ n < 0xe000 then none
    else some (Char.ofNat n, rest)

def simpleEscape (c : Char) : Option Char :=
  if c = '"' ∨ c = '\\' ∨ c = '/' then some c
  else if c = 'b' then some '\x08'
  else if c = 'f' then some '\x0c'
  else if c = 'n' then some '\n'
  else if c = 'r' then some '\r'
  else if c = 't' then some '\t'
  else none

/-- What follows a backslash. -/
def escape : Parser Char
  | [] => none
  | c :: rest => if c = 'u' then unicodeEscape rest else (simpleEscape c).map fun d => (d, rest)

/-- One character of a string. -/
def stringChar : Parser Char
  | [] => none
  | c :: rest => if c = '\\' then escape rest else if Special c then none else some (c, rest)

/-- The characters up to the closing quote. -/
def stringBody : Nat → Parser (List Char)
  | 0, _ => none
  | n + 1, s =>
    match s with
    | '"' :: rest => some ([], rest)
    | s => (stringChar s).bind fun r => (stringBody n r.2).map fun t => (r.1 :: t.1, t.2)

def string : Parser String
  | '"' :: rest => (stringBody (rest.length + 1) rest).map fun r => (String.ofList r.1, r.2)
  | _ => none

/-- At least one digit. -/
def digits (s : List Char) : Option (List Char × List Char) :=
  if s.takeWhile Char.isDigit = [] then none else some (s.takeWhile Char.isDigit, s.dropWhile Char.isDigit)

/-- The integer part: no zero stands before another digit. -/
def integer (s : List Char) : Option (List Char × List Char) :=
  (digits s).filter fun r => r.1.length = 1 ∨ r.1.head? ≠ some '0'

def fraction : Parser (List Char)
  | '.' :: rest => (digits rest).map fun r => ('.' :: r.1, r.2)
  | s => some ([], s)

def exponent : Parser (List Char)
  | c :: rest =>
    if c = 'e' ∨ c = 'E' then
      match rest with
      | d :: rest' =>
        if d = '+' ∨ d = '-' then (digits rest').map fun r => (c :: d :: r.1, r.2)
        else (digits rest).map fun r => (c :: r.1, r.2)
      | [] => none
    else some ([], c :: rest)
  | [] => some ([], [])

def number (s : List Char) : Option (String × List Char) :=
  let signed : List Char × List Char := match s with
    | '-' :: rest => (['-'], rest)
    | s => ([], s)
  (integer signed.2).bind fun i =>
    (fraction i.2).bind fun f =>
      (exponent f.2).map fun e => (String.ofList (signed.1 ++ i.1 ++ f.1 ++ e.1), e.2)

section Items

variable {α : Type}

/-- Items with commas between them, up to the character `close`. -/
def items (item : Parser α) (close : Char) : Nat → Parser (List α)
  | 0, _ => none
  | n + 1, s =>
    (item s).bind fun r =>
      match skipWs r.2 with
      | c :: rest =>
        if c = ',' then (items item close n rest).map fun t => (r.1 :: t.1, t.2)
        else if c = close then some ([r.1], rest)
        else none
      | [] => none

/-- Items, or none at all, up to the character `close`. -/
def bracketed (item : Parser α) (close : Char) (s : List Char) : Option (List α × List Char) :=
  match skipWs s with
  | c :: rest => if c = close then some ([], rest) else items item close s.length s
  | [] => none

end Items

def member (value : Parser Json) : Parser (String × Json) := fun s =>
  (string (skipWs s)).bind fun k =>
    match skipWs k.2 with
    | ':' :: rest => (value rest).map fun v => ((k.1, v.1), v.2)
    | _ => none

/-- A value that is nested less than `n` deep. -/
def value : Nat → Parser Json
  | 0, _ => none
  | n + 1, s =>
    match skipWs s with
    | '{' :: rest => (bracketed (member (value n)) '}' rest).map fun r => (.obj r.1, r.2)
    | '[' :: rest => (bracketed (value n) ']' rest).map fun r => (.arr r.1, r.2)
    | '"' :: rest => (string ('"' :: rest)).map fun r => (.str r.1, r.2)
    | 't' :: 'r' :: 'u' :: 'e' :: rest => some (.bool true, rest)
    | 'f' :: 'a' :: 'l' :: 's' :: 'e' :: rest => some (.bool false, rest)
    | 'n' :: 'u' :: 'l' :: 'l' :: rest => some (.null, rest)
    | rest => (number rest).map fun r => (.num r.1, r.2)

/-- A JSON text: a value with nothing but whitespace after it. -/
def parse (text : String) : Option Json :=
  (value (text.toList.length + 1) text.toList).bind fun r => if skipWs r.2 = [] then some r.1 else none

/-! ### The least length of a text -/

/-- A special character takes an escape. -/
def charCost (c : Char) : Nat := if Special c then 2 else 1

def charsCost (cs : List Char) : Nat := (cs.map charCost).sum

/-- A string with its quotes. -/
def stringCost (s : String) : Nat := 2 + charsCost s.toList

/-- A value in an object, where only strings count. -/
def leafCost : Json → Nat
  | .str s => stringCost s
  | _ => 0

/-- A member with its colon. -/
def memberCost (m : String × Json) : Nat := stringCost m.1 + 1 + leafCost m.2

/-- An object has a brace and, for each member, a comma or the other brace. -/
def cost : Json → Nat
  | .str s => stringCost s
  | .obj members => 1 + (members.map memberCost).sum + members.length
  | _ => 0

theorem leafCost_le_cost (v : Json) : leafCost v ≤ cost v := by
  cases v with
  | str s => exact le_rfl
  | _ => exact Nat.zero_le _

/-- What `p` reads is at least as long as `w` says. -/
def Costs {α : Type} (p : Parser α) (w : α → Nat) : Prop :=
  ∀ s a rest, p s = some (a, rest) → w a + rest.length ≤ s.length

theorem length_skipWs_le (s : List Char) : (skipWs s).length ≤ s.length := (List.dropWhile_suffix isWs).length_le

/-- Where whitespace is followed by a character. -/
private theorem length_of_skipWs {s rest : List Char} {c : Char} (h : skipWs s = c :: rest) :
    rest.length + 1 ≤ s.length := by
  have hle := length_skipWs_le s
  rw [h, List.length_cons] at hle
  exact hle

private theorem hex4_length {s rest : List Char} {n : Nat} (h : hex4 s = some (n, rest)) :
    rest.length ≤ s.length := by
  unfold hex4 at h
  split at h
  · split at h
    · cases h
      simp only [List.length_cons]
      omega
    · cases h
  · cases h

private theorem unicodeEscape_length {s rest : List Char} {c : Char} (h : unicodeEscape s = some (c, rest)) :
    rest.length ≤ s.length := by
  unfold unicodeEscape at h
  split at h
  · cases h
  rename_i n rest₁ hhex
  have hlen := hex4_length hhex
  split at h
  · obtain ⟨⟨m, rest₂⟩, hlow, heq⟩ := Option.map_eq_some_iff.1 h
    obtain rfl : rest₂ = rest := congrArg Prod.snd heq
    unfold lowSurrogate at hlow
    split at hlow
    · have hlen' := hex4_length (Option.filter_eq_some_iff.1 hlow).1
      simp only [List.length_cons] at hlen
      omega
    · cases hlow
  split at h
  · cases h
  · cases h
    exact hlen

theorem stringChar_cost : Costs stringChar charCost := by
  intro s c rest h
  cases s with
  | nil => cases h
  | cons d s =>
    rw [stringChar] at h
    split at h
    · -- an escape is a backslash and one character or more
      have hlen : rest.length + 1 ≤ s.length := by
        cases s with
        | nil => cases h
        | cons e s =>
          rw [escape] at h
          split at h
          · exact Nat.succ_le_succ (unicodeEscape_length h)
          · obtain ⟨x, -, heq⟩ := Option.map_eq_some_iff.1 h
            cases heq
            exact le_rfl
      have hcost : charCost c ≤ 2 := by
        unfold charCost
        split <;> omega
      rw [List.length_cons]
      omega
    split at h
    · cases h
    · rename_i hplain
      cases h
      rw [charCost, if_neg hplain, List.length_cons, Nat.add_comm]

theorem stringBody_cost (n : Nat) : Costs (stringBody n) fun cs => charsCost cs + 1 := by
  induction n with
  | zero =>
    intro s cs rest h
    cases h
  | succ n ih =>
    intro s cs rest h
    unfold stringBody at h
    split at h
    · cases h
      simp [charsCost, Nat.add_comm]
    · obtain ⟨⟨c, s₁⟩, hc, hrest⟩ := Option.bind_eq_some_iff.1 h
      obtain ⟨⟨cs', s₂⟩, hcs, heq⟩ := Option.map_eq_some_iff.1 hrest
      cases heq
      have h₁ := stringChar_cost _ _ _ hc
      have h₂ := ih _ _ _ hcs
      simp only [charsCost, List.map_cons, List.sum_cons] at h₂ ⊢
      omega

theorem string_cost : Costs string stringCost := by
  intro s k rest h
  unfold string at h
  split at h
  · obtain ⟨⟨cs, s'⟩, hbody, heq⟩ := Option.map_eq_some_iff.1 h
    cases heq
    have hcost := stringBody_cost _ _ _ _ hbody
    rw [stringCost, String.toList_ofList, List.length_cons]
    dsimp only at hcost ⊢
    omega
  · cases h

private theorem digits_length {s ds rest : List Char} (h : digits s = some (ds, rest)) : rest.length ≤ s.length := by
  unfold digits at h
  split at h
  · cases h
  · cases h
    exact (List.dropWhile_suffix Char.isDigit).length_le

private theorem fraction_length {s ds rest : List Char} (h : fraction s = some (ds, rest)) :
    rest.length ≤ s.length := by
  unfold fraction at h
  split at h
  · obtain ⟨⟨f, s'⟩, hd, heq⟩ := Option.map_eq_some_iff.1 h
    cases heq
    exact (digits_length hd).trans (Nat.le_succ _)
  · cases h
    exact le_rfl

private theorem exponent_length {s ds rest : List Char} (h : exponent s = some (ds, rest)) :
    rest.length ≤ s.length := by
  have hmap : ∀ {g : List Char → List Char} {s' : List Char},
      ((digits s').map fun r => (g r.1, r.2)) = some (ds, rest) → rest.length ≤ s'.length := by
    intro g s' hmap
    obtain ⟨⟨f, s''⟩, hd, heq⟩ := Option.map_eq_some_iff.1 hmap
    cases heq
    exact digits_length hd
  cases s with
  | nil =>
    cases h
    exact le_rfl
  | cons c s =>
    unfold exponent at h
    dsimp only at h
    split at h
    · cases s with
      | nil => cases h
      | cons d s =>
        dsimp only at h
        simp only [List.length_cons]
        split at h
        · exact (hmap (g := fun f => c :: d :: f) h).trans (by omega)
        · exact (hmap (g := fun f => c :: f) h).trans (by simp)
    · cases h
      exact le_rfl

private theorem number_length {s rest : List Char} {t : String} (h : number s = some (t, rest)) :
    rest.length ≤ s.length := by
  unfold number at h
  generalize hsigned : (match s with
    | '-' :: rest => (['-'], rest)
    | s => (([], s) : List Char × List Char)) = signed at h
  have hlen : signed.2.length ≤ s.length := by
    rw [← hsigned]
    split
    · exact Nat.le_succ _
    · exact le_rfl
  obtain ⟨⟨i, s₁⟩, hi, h₁⟩ := Option.bind_eq_some_iff.1 h
  obtain ⟨⟨f, s₂⟩, hf, h₂⟩ := Option.bind_eq_some_iff.1 h₁
  obtain ⟨⟨e, s₃⟩, he, heq⟩ := Option.map_eq_some_iff.1 h₂
  cases heq
  have hi' := digits_length (Option.filter_eq_some_iff.1 hi).1
  exact (exponent_length he).trans ((fraction_length hf).trans (hi'.trans hlen))

section Items

variable {α : Type} {item : Parser α} {w : α → Nat}

theorem items_cost (h : Costs item w) (close : Char) (n : Nat) :
    Costs (items item close n) fun l => (l.map w).sum + l.length := by
  induction n with
  | zero =>
    intro s l rest hs
    cases hs
  | succ n ih =>
    intro s l rest hs
    rw [items] at hs
    obtain ⟨⟨a, s₁⟩, ha, hs₁⟩ := Option.bind_eq_some_iff.1 hs
    have hcost := h _ _ _ ha
    dsimp only at hs₁
    split at hs₁
    · rename_i c s₂ hws
      have hlen := length_of_skipWs hws
      split at hs₁
      · obtain ⟨⟨l', s₃⟩, hl, heq⟩ := Option.map_eq_some_iff.1 hs₁
        cases heq
        have hrest := ih _ _ _ hl
        simp only [List.map_cons, List.sum_cons, List.length_cons] at hrest ⊢
        omega
      split at hs₁
      · cases hs₁
        simp only [List.map_cons, List.map_nil, List.sum_cons, List.sum_nil, List.length_cons, List.length_nil]
        omega
      · cases hs₁
    · cases hs₁

theorem bracketed_cost (h : Costs item w) (close : Char) :
    Costs (bracketed item close) fun l => (l.map w).sum + l.length := by
  intro s l rest hs
  unfold bracketed at hs
  split at hs
  · rename_i c s' hws
    split at hs
    · cases hs
      have hlen := length_of_skipWs hws
      simp only [List.map_nil, List.sum_nil, List.length_nil]
      omega
    · exact items_cost h close _ _ _ _ hs
  · cases hs

end Items

theorem member_cost {value : Parser Json} (h : Costs value leafCost) : Costs (member value) memberCost := by
  intro s m rest hs
  obtain ⟨⟨k, s₁⟩, hk, hs₁⟩ := Option.bind_eq_some_iff.1 hs
  have hkey := string_cost _ _ _ hk
  have hws := length_skipWs_le s
  dsimp only at hs₁
  split at hs₁
  · rename_i s₂ hcolon
    obtain ⟨⟨v, s₃⟩, hv, heq⟩ := Option.map_eq_some_iff.1 hs₁
    cases heq
    have hval := h _ _ _ hv
    have hlen := length_of_skipWs hcolon
    rw [memberCost]
    dsimp only at hkey ⊢
    omega
  · cases hs₁

theorem value_cost (n : Nat) : Costs (value n) cost := by
  induction n with
  | zero =>
    intro s v rest hs
    cases hs
  | succ n ih =>
    have hleaf : Costs (value n) leafCost := fun s v rest hv =>
      (Nat.add_le_add_right (leafCost_le_cost v) _).trans (ih s v rest hv)
    intro s v rest hs
    have hws := length_skipWs_le s
    refine le_trans ?_ hws
    rw [value] at hs
    split at hs
    · rename_i s' heq
      obtain ⟨⟨ms, s₁⟩, hms, hv⟩ := Option.map_eq_some_iff.1 hs
      cases hv
      have hcost := bracketed_cost (member_cost hleaf) _ _ _ _ hms
      rw [heq, cost, List.length_cons]
      dsimp only at hcost ⊢
      omega
    · rename_i s' heq
      obtain ⟨⟨vs, s₁⟩, hvs, hv⟩ := Option.map_eq_some_iff.1 hs
      cases hv
      have hcost := bracketed_cost hleaf _ _ _ _ hvs
      have hfree : cost (.arr vs) = 0 := rfl
      rw [heq, hfree, List.length_cons]
      dsimp only at hcost ⊢
      omega
    · rename_i s' heq
      obtain ⟨⟨k, s₁⟩, hk, hv⟩ := Option.map_eq_some_iff.1 hs
      cases hv
      have hcost := string_cost _ _ _ hk
      rw [heq]
      exact hcost
    · rename_i s' heq
      cases hs
      simp only [heq, cost, List.length_cons]
      omega
    · rename_i s' heq
      cases hs
      simp only [heq, cost, List.length_cons]
      omega
    · rename_i s' heq
      cases hs
      simp only [heq, cost, List.length_cons]
      omega
    · obtain ⟨⟨t, s₁⟩, ht, hv⟩ := Option.map_eq_some_iff.1 hs
      cases hv
      have hfree : cost (.num t) = 0 := rfl
      rw [hfree, Nat.zero_add]
      exact number_length ht

/-- A text is at least as long as its value costs. -/
theorem parse_cost {text : String} {v : Json} (h : parse text = some v) : cost v ≤ text.toList.length := by
  obtain ⟨⟨v', rest⟩, hv, hend⟩ := Option.bind_eq_some_iff.1 h
  have hcost := value_cost _ _ _ _ hv
  dsimp only at hend
  split at hend
  · cases hend
    omega
  · cases hend

/-! ### Printed objects -/

/-- A character in a string. -/
def escaped (c : Char) : List Char :=
  if c = '"' ∨ c = '\\' then ['\\', c]
  else if c = '\n' then ['\\', 'n']
  else if c.toNat < 0x20 then ['\\', 'u', '0', '0', (c.toNat / 16).digitChar, (c.toNat % 16).digitChar]
  else [c]

def printString (s : String) : List Char := '"' :: (s.toList.flatMap escaped ++ ['"'])

def printMember (m : String × String) : List Char := printString m.1 ++ ':' :: printString m.2

/-- An object of strings. -/
def printObject (fields : List (String × String)) : List Char :=
  '{' :: ([','].intercalate (fields.map printMember) ++ ['}'])

theorem escaped_of_plain {c : Char} (h : ¬ Special c) : escaped c = [c] := by
  simp only [Special, not_or] at h
  rw [escaped, if_neg (by simp [h]), if_neg, if_neg h.2.2]
  rintro rfl
  exact h.2.2 (by decide)

private theorem hexDigit_digitChar : ∀ d < 16, hexDigit d.digitChar = some d := by decide

theorem stringChar_escaped (c : Char) (rest : List Char) : stringChar (escaped c ++ rest) = some (c, rest) := by
  unfold escaped
  split
  · rename_i hc
    rcases hc with rfl | rfl <;> rfl
  split
  · rename_i hc
    subst hc
    rfl
  split
  · rename_i hc
    have hhigh := hexDigit_digitChar (c.toNat / 16) (by omega)
    have hlow := hexDigit_digitChar (c.toNat % 16) (by omega)
    have hzero : hexDigit '0' = some 0 := by decide
    have hvalue : ((0 * 16 + 0) * 16 + c.toNat / 16) * 16 + c.toNat % 16 = c.toNat := by omega
    have hhex : hex4 ('0' :: '0' :: (c.toNat / 16).digitChar :: (c.toNat % 16).digitChar :: rest) =
        some (c.toNat, rest) := by
      simp only [hex4, hzero, hhigh, hlow, hvalue]
    have hunicode : unicodeEscape ('0' :: '0' :: (c.toNat / 16).digitChar :: (c.toNat % 16).digitChar :: rest) =
        some (c, rest) := by
      rw [unicodeEscape, hhex]
      dsimp only
      rw [if_neg (by omega), if_neg (by omega), Char.ofNat_toNat]
    exact hunicode
  · rename_i hplain hnewline hcontrol
    simp only [not_or] at hplain
    have hspecial : ¬ Special c := by simp [Special, hplain, hcontrol]
    rw [List.singleton_append, stringChar, if_neg hplain.2, if_neg hspecial]

section Escapes

/-! A string is read back whatever way its characters are escaped, when each of them is read back. -/

variable {esc : Char → List Char}

private theorem esc_ne_nil (hesc : ∀ c rest, stringChar (esc c ++ rest) = some (c, rest)) (c : Char) : esc c ≠ [] := by
  intro hnil
  have hchar := hesc c []
  rw [hnil] at hchar
  cases hchar

/-- No escaped character starts with a quote. -/
private theorem esc_append_ne (hesc : ∀ c rest, stringChar (esc c ++ rest) = some (c, rest)) (c : Char)
    (s rest : List Char) : esc c ++ s ≠ '"' :: rest := by
  intro h
  have hchar := hesc c s
  rw [h] at hchar
  cases hchar

theorem stringBody_escaped (hesc : ∀ c rest, stringChar (esc c ++ rest) = some (c, rest)) {cs rest : List Char}
    {n : Nat} (h : cs.length < n) : stringBody n (cs.flatMap esc ++ '"' :: rest) = some (cs, rest) := by
  induction cs generalizing n with
  | nil =>
    obtain ⟨n, rfl⟩ := Nat.exists_eq_succ_of_ne_zero (Nat.pos_iff_ne_zero.1 h)
    rfl
  | cons c cs ih =>
    obtain ⟨n, rfl⟩ := Nat.exists_eq_succ_of_ne_zero (Nat.ne_zero_of_lt h)
    rw [List.flatMap_cons, List.append_assoc]
    rw [stringBody, hesc, Option.bind_some]
    · dsimp only
      rw [ih (Nat.lt_of_succ_lt_succ h), Option.map_some]
    · exact esc_append_ne hesc c _

theorem string_escaped (hesc : ∀ c rest, stringChar (esc c ++ rest) = some (c, rest)) (s : String)
    (rest : List Char) : string ('"' :: (s.toList.flatMap esc ++ '"' :: rest)) = some (s, rest) := by
  have hlen : s.toList.length ≤ (s.toList.flatMap esc).length := by
    generalize s.toList = cs
    induction cs with
    | nil => exact le_rfl
    | cons c cs ih =>
      have hpos := List.length_pos_iff.2 (esc_ne_nil hesc c)
      rw [List.flatMap_cons, List.length_append, List.length_cons]
      omega
  rw [string, stringBody_escaped hesc (by simp only [List.length_append]; omega), Option.map_some,
    String.ofList_toList]

end Escapes

theorem string_print (s : String) (rest : List Char) : string (printString s ++ rest) = some (s, rest) := by
  have hprint : printString s ++ rest = '"' :: (s.toList.flatMap escaped ++ '"' :: rest) := by simp [printString]
  rw [hprint, string_escaped stringChar_escaped]

theorem skipWs_cons {c : Char} (h : isWs c = false) (rest : List Char) : skipWs (c :: rest) = c :: rest :=
  List.dropWhile_cons_of_neg (by simp [h])

theorem value_quote (n : Nat) (rest : List Char) :
    value (n + 1) ('"' :: rest) = (string ('"' :: rest)).map fun r => (.str r.1, r.2) := rfl

theorem value_brace (n : Nat) (rest : List Char) :
    value (n + 1) ('{' :: rest) = (bracketed (member (value n)) '}' rest).map fun r => (.obj r.1, r.2) := rfl

theorem value_print (n : Nat) (s : String) (rest : List Char) :
    value (n + 1) (printString s ++ rest) = some (.str s, rest) := by
  have hstring := string_print s rest
  rw [printString, List.cons_append] at hstring ⊢
  rw [value_quote, hstring, Option.map_some]

theorem member_print (n : Nat) (m : String × String) (rest : List Char) :
    member (value (n + 1)) (printMember m ++ rest) = some ((m.1, .str m.2), rest) := by
  have hkey := string_print m.1 (':' :: (printString m.2 ++ rest))
  have hskip : skipWs (printMember m ++ rest) = printString m.1 ++ ':' :: (printString m.2 ++ rest) := by
    simp only [printMember, printString, List.append_assoc, List.cons_append,
      skipWs_cons (show isWs '"' = false by decide)]
  have hcolon : skipWs (':' :: (printString m.2 ++ rest)) = ':' :: (printString m.2 ++ rest) :=
    skipWs_cons (by decide) _
  simp only [member, hskip, hkey, Option.bind_some, hcolon, value_print, Option.map_some]

theorem items_print {fields : List (String × String)} (n : Nat) {k : Nat} (rest : List Char) (hne : fields ≠ [])
    (hk : fields.length ≤ k) :
    items (member (value (n + 1))) '}' k ([','].intercalate (fields.map printMember) ++ '}' :: rest) =
      some (fields.map fun m => (m.1, .str m.2), rest) := by
  induction fields generalizing k with
  | nil => exact absurd rfl hne
  | cons m fields ih =>
    obtain ⟨k, rfl⟩ := Nat.exists_eq_succ_of_ne_zero (Nat.ne_zero_of_lt hk)
    cases fields with
    | nil =>
      rw [List.map_singleton, List.intercalate_singleton, items, member_print, Option.bind_some]
      dsimp only
      rw [skipWs_cons (by decide)]
      rfl
    | cons m' fields =>
      have hrest := ih (by simp) (Nat.le_of_succ_le_succ hk)
      rw [List.map_cons, List.map_cons] at hrest ⊢
      rw [List.intercalate_cons_cons, List.append_assoc, List.append_assoc, items, member_print, Option.bind_some,
        List.singleton_append]
      dsimp only
      rw [skipWs_cons (by decide)]
      dsimp only
      rw [if_pos rfl, hrest, Option.map_some]
      rfl

/-- A printed object is parsed. -/
theorem parse_printObject {fields : List (String × String)} (hne : fields ≠ []) :
    parse (String.ofList (printObject fields)) = some (.obj (fields.map fun m => (m.1, .str m.2))) := by
  obtain ⟨m, fields, rfl⟩ := List.exists_cons_of_ne_nil hne
  have hstart : ∃ text, [','].intercalate ((m :: fields).map printMember) = '"' :: text := by
    cases fields with
    | nil => exact ⟨_, rfl⟩
    | cons m' fields => exact ⟨_, rfl⟩
  have hlen : (m :: fields).length ≤ ([','].intercalate ((m :: fields).map printMember) ++ ['}']).length := by
    clear hne hstart
    induction fields generalizing m with
    | nil => simp [printMember, printString]
    | cons m' fields ih =>
      have hrest := ih m'
      simp only [List.map_cons, List.intercalate_cons_cons, List.length_append, List.length_cons] at hrest ⊢
      omega
  have hitems := fun n => items_print n [] hne hlen
  obtain ⟨text, htext⟩ := hstart
  rw [parse, String.toList_ofList, printObject]
  rw [htext] at hitems ⊢
  have hvalue : value (('{' :: ('"' :: text ++ ['}'])).length + 1) ('{' :: ('"' :: text ++ ['}'])) =
      some (.obj ((m :: fields).map fun m => (m.1, .str m.2)), []) := by
    have hskip : skipWs ('"' :: text ++ ['}']) = '"' :: (text ++ ['}']) := skipWs_cons (by decide) _
    rw [List.length_cons, value_brace, bracketed, hskip]
    dsimp only
    rw [if_neg (by decide), hitems, Option.map_some]
  rw [hvalue]
  rfl

/-! ### Objects put together by formatting -/

/-- A member whose text is put between the quotes as it is. -/
def rawMember (m : String × List Char) : List Char := '"' :: (m.1.toList ++ '"' :: ':' :: '"' :: (m.2 ++ ['"']))

def rawObject (fields : List (String × List Char)) : List Char :=
  '{' :: ([','].intercalate (fields.map rawMember) ++ ['}'])

theorem charsCost_append (cs ds : List Char) : charsCost (cs ++ ds) = charsCost cs + charsCost ds := by
  simp [charsCost]

/-- The special characters are counted twice. -/
theorem charsCost_eq (cs : List Char) : charsCost cs = cs.length + cs.countP (Special ·) := by
  induction cs with
  | nil => rfl
  | cons c cs ih =>
    have hcons : charsCost (c :: cs) = charCost c + charsCost cs := rfl
    rw [hcons, ih, List.length_cons]
    by_cases h : Special c
    · rw [List.countP_cons_of_pos (by simpa using h), charCost, if_pos h]
      omega
    · rw [List.countP_cons_of_neg (by simpa using h), charCost, if_neg h]
      omega

theorem flatMap_escaped {cs : List Char} (h : ∀ c ∈ cs, ¬ Special c) : cs.flatMap escaped = cs := by
  induction cs with
  | nil => rfl
  | cons c cs ih =>
    rw [List.flatMap_cons, escaped_of_plain (h c (List.mem_cons_self ..)),
      ih fun c hc => h c (List.mem_cons_of_mem _ hc)]
    rfl

/-- A formatted text is the printed one where the texts of its members are the escaped values. -/
theorem rawObject_eq_print {fields : List (String × String × List Char)}
    (hkeys : ∀ f ∈ fields, ∀ c ∈ f.1.toList, ¬ Special c)
    (hraw : ∀ f ∈ fields, f.2.1.toList.flatMap escaped = f.2.2) :
    rawObject (fields.map fun f => (f.1, f.2.2)) = printObject (fields.map fun f => (f.1, f.2.1)) := by
  have hmembers : (fields.map fun f => (f.1, f.2.2)).map rawMember =
      (fields.map fun f => (f.1, f.2.1)).map printMember := by
    rw [List.map_map, List.map_map]
    refine List.map_congr_left fun f hf => ?_
    simp [rawMember, printMember, printString, flatMap_escaped (hkeys f hf), hraw f hf]
  rw [rawObject, printObject, hmembers]

private theorem length_members (fields : List (String × List Char)) (hne : fields ≠ []) :
    ([','].intercalate (fields.map rawMember)).length + 1 =
      (fields.map fun f => f.1.toList.length + f.2.length + 6).sum := by
  have hmember : ∀ f, (rawMember f).length = f.1.toList.length + f.2.length + 5 := by
    intro f
    simp only [rawMember, List.length_cons, List.length_append, List.length_nil]
    omega
  induction fields with
  | nil => exact absurd rfl hne
  | cons f fields ih =>
    cases fields with
    | nil => simp [hmember]
    | cons f' fields =>
      have hrest := ih (by simp)
      simp only [List.map_cons, List.intercalate_cons_cons, List.length_append, List.sum_cons, hmember,
        List.length_singleton] at hrest ⊢
      omega

/-- Where a formatted text is parsed to the values, these cost no more than the texts of the members are long. -/
theorem parse_rawObject_cost {fields : List (String × String × List Char)} (hne : fields ≠ [])
    (h : parse (String.ofList (rawObject (fields.map fun f => (f.1, f.2.2)))) =
      some (.obj (fields.map fun f => (f.1, .str f.2.1)))) :
    (fields.map fun f => charsCost f.2.1.toList).sum ≤ (fields.map fun f => f.2.2.length).sum := by
  have hcost := parse_cost h
  have hlen := length_members (fields.map fun f => (f.1, f.2.2)) (by simpa using hne)
  rw [String.toList_ofList, rawObject, List.length_cons, List.length_append, List.length_singleton] at hcost
  have hmembers : cost (.obj (fields.map fun f => (f.1, .str f.2.1))) =
      1 + (fields.map fun f => charsCost f.1.toList + charsCost f.2.1.toList + 6).sum := by
    rw [cost]
    clear hne h hcost hlen
    induction fields with
    | nil => rfl
    | cons f fields ih =>
      simp only [List.map_cons, List.sum_cons, List.length_cons, memberCost, leafCost, stringCost] at ih ⊢
      omega
  rw [hmembers] at hcost
  clear hne h hmembers
  have hsum : (fields.map fun f => f.1.toList.length + f.2.2.length + 6).sum +
        (fields.map fun f => charsCost f.2.1.toList).sum ≤
      (fields.map fun f => charsCost f.1.toList + charsCost f.2.1.toList + 6).sum +
        (fields.map fun f => f.2.2.length).sum := by
    clear hcost hlen
    induction fields with
    | nil => rfl
    | cons f fields ih =>
      have hkey := charsCost_eq f.1.toList
      simp only [List.map_cons, List.sum_cons] at ih ⊢
      omega
  simp only [List.map_map, Function.comp_def] at hlen hcost
  omega

end Json

end Lib
