import Mathlib.Data.List.TakeWhile
import Qdrop.Lib.Json

/-!
# Printing JSON

Compact texts of any JSON value: no whitespace, and only the characters that may not stand in a string are escaped,
with one letter where there is one.  What is printed is parsed again (`parse_print`), and it is one line
(`print_isLine`).
-/

namespace Lib.Json

/-! ### The printer -/

/-- The letter of a short escape. -/
def shortEscape (c : Char) : Option Char :=
  if c = '"' ∨ c = '\\' then some c
  else if c = '\x08' then some 'b'
  else if c = '\x0c' then some 'f'
  else if c = '\n' then some 'n'
  else if c = '\r' then some 'r'
  else if c = '\t' then some 't'
  else none

/-- A character in a string. -/
def printChar (c : Char) : List Char :=
  match shortEscape c with
  | some d => ['\\', d]
  | none =>
    if c.toNat < 0x20 then ['\\', 'u', '0', '0', (c.toNat / 16).digitChar, (c.toNat % 16).digitChar] else [c]

def quote (s : String) : List Char := '"' :: (s.toList.flatMap printChar ++ ['"'])

mutual

def print : Json → List Char
  | .null => ['n', 'u', 'l', 'l']
  | .bool true => ['t', 'r', 'u', 'e']
  | .bool false => ['f', 'a', 'l', 's', 'e']
  | .num text => text.toList
  | .str s => quote s
  | .arr items => '[' :: ([','].intercalate (printItems items) ++ [']'])
  | .obj members => '{' :: ([','].intercalate (printMembers members) ++ ['}'])

def printItems : List Json → List (List Char)
  | [] => []
  | v :: vs => print v :: printItems vs

def printMembers : List (String × Json) → List (List Char)
  | [] => []
  | (key, v) :: ms => (quote key ++ ':' :: print v) :: printMembers ms

end

mutual

/-- The texts of the numbers are numbers. -/
def Numeric : Json → Prop
  | .num text => number text.toList = some (text, [])
  | .arr items => NumericItems items
  | .obj members => NumericMembers members
  | .null | .bool _ | .str _ => True

def NumericItems : List Json → Prop
  | [] => True
  | v :: vs => v.Numeric ∧ NumericItems vs

def NumericMembers : List (String × Json) → Prop
  | [] => True
  | (_, v) :: ms => v.Numeric ∧ NumericMembers ms

end

theorem numericItems_map {α : Type} {f : α → Json} {xs : List α} (h : ∀ x ∈ xs, (f x).Numeric) :
    NumericItems (xs.map f) := by
  induction xs with
  | nil => exact trivial
  | cons x xs ih => exact ⟨h x (List.mem_cons_self ..), ih fun y hy => h y (List.mem_cons_of_mem _ hy)⟩

/-! ### Strings and numbers -/

theorem stringChar_printChar (c : Char) (rest : List Char) : stringChar (printChar c ++ rest) = some (c, rest) := by
  unfold printChar
  split
  · rename_i d hd
    have hescape : simpleEscape d = some c ∧ d ≠ 'u' := by
      unfold shortEscape at hd
      split at hd
      · rename_i hc
        cases hd
        rcases hc with rfl | rfl <;> decide
      · split_ifs at hd
        all_goals
          subst_vars
          cases hd
          decide
    have hslash : stringChar ('\\' :: d :: rest) = escape (d :: rest) := rfl
    rw [List.cons_append, List.cons_append, List.nil_append, hslash, escape, if_neg hescape.2, hescape.1,
      Option.map_some]
  · rename_i hshort
    split
    · rename_i hc
      -- below a space the escape of the other printer is the same one
      have hother := stringChar_escaped c rest
      have hplain : ¬ (c = '"' ∨ c = '\\') := by
        rintro (rfl | rfl) <;> cases hshort
      have hnewline : c ≠ '\n' := by
        rintro rfl
        cases hshort
      rwa [escaped, if_neg hplain, if_neg hnewline, if_pos hc] at hother
    · rename_i hc
      have hspecial : ¬ Special c := by
        rintro (rfl | rfl | hlt)
        · cases hshort
        · cases hshort
        · exact hc hlt
      have hslash : c ≠ '\\' := fun h => hspecial (Or.inr (Or.inl h))
      rw [List.singleton_append, stringChar, if_neg hslash, if_neg hspecial]

theorem string_quote (s : String) (rest : List Char) : string (quote s ++ rest) = some (s, rest) := by
  have hquote : quote s ++ rest = '"' :: (s.toList.flatMap printChar ++ '"' :: rest) := by simp [quote]
  rw [hquote, string_escaped stringChar_printChar]

/-- What stands behind a value. -/
def Ends (rest : List Char) : Prop := ∀ c, rest.head? = some c → c = ',' ∨ isWs c = true ∨ c = ']' ∨ c = '}'

theorem isWs_cases {c : Char} (h : isWs c = true) : c = ' ' ∨ c = '\t' ∨ c = '\n' ∨ c = '\r' := by
  simpa only [isWs, Bool.or_eq_true, beq_iff_eq, or_assoc] using h

/-- The characters that may stand behind a value. -/
theorem Ends.head {rest : List Char} (h : Ends rest) {c : Char} (hc : rest.head? = some c) :
    c = ',' ∨ c = ' ' ∨ c = '\t' ∨ c = '\n' ∨ c = '\r' ∨ c = ']' ∨ c = '}' := by
  rcases h c hc with hc | hc | hc
  · exact Or.inl hc
  · have := isWs_cases hc
    tauto
  · tauto

theorem ends_nil : Ends [] := by
  intro c hc
  cases hc

theorem ends_cons {c : Char} (hc : c = ',' ∨ isWs c = true ∨ c = ']' ∨ c = '}') (rest : List Char) :
    Ends (c :: rest) := by
  intro d hd
  cases hd
  exact hc

section Numbers

variable {s rest : List Char}

private theorem not_isDigit_of_ends (h : Ends rest) : ∀ c ∈ rest.head?, ¬ c.isDigit = true := by
  intro c hc
  rcases h.head hc with rfl | rfl | rfl | rfl | rfl | rfl | rfl <;> decide

/-- The digits at the head of a text, when what follows does not go on with one. -/
private theorem digits_append {ds more : List Char} (h : Ends rest) (hs : digits s = some (ds, more)) :
    digits (s ++ rest) = some (ds, more ++ rest) := by
  have htake : ∀ l : List Char, (l ++ rest).takeWhile Char.isDigit = l.takeWhile Char.isDigit ∧
      (l ++ rest).dropWhile Char.isDigit = l.dropWhile Char.isDigit ++ rest := by
    intro l
    induction l with
    | nil =>
      cases rest with
      | nil => exact ⟨rfl, rfl⟩
      | cons c rest =>
        have hc := not_isDigit_of_ends h c rfl
        rw [List.nil_append, List.takeWhile_cons_of_neg hc, List.dropWhile_cons_of_neg hc]
        exact ⟨rfl, rfl⟩
    | cons c l ih =>
      by_cases hc : c.isDigit = true
      · simp [hc, ih.1, ih.2]
      · simp [hc]
  unfold digits at hs ⊢
  rw [(htake s).1, (htake s).2]
  split at hs
  · cases hs
  · rename_i hne
    cases hs
    rw [if_neg hne]

private theorem fraction_append {f more : List Char} (h : Ends rest) (hs : fraction s = some (f, more)) :
    fraction (s ++ rest) = some (f, more ++ rest) := by
  have hother : ∀ l : List Char, l.head? ≠ some '.' → fraction l = some ([], l) := by
    intro l hl
    unfold fraction
    split
    · exact absurd rfl hl
    · rfl
  cases s with
  | nil =>
    cases hs
    refine hother rest fun hdot => ?_
    rcases h.head hdot with hc | hc | hc | hc | hc | hc | hc <;> exact absurd hc (by decide)
  | cons c s =>
    by_cases hc : c = '.'
    · subst hc
      obtain ⟨⟨ds, more'⟩, hds, heq⟩ := Option.map_eq_some_iff.1 hs
      cases heq
      rw [List.cons_append, fraction, digits_append h hds, Option.map_some]
    · have hhead : ∀ l : List Char, (c :: l).head? ≠ some '.' := fun l hl => hc (Option.some.inj hl)
      rw [hother _ (hhead s)] at hs
      cases hs
      exact hother _ (hhead _)

private theorem exponent_append {e more : List Char} (h : Ends rest) (hs : exponent s = some (e, more)) :
    exponent (s ++ rest) = some (e, more ++ rest) := by
  have hother : ∀ (c : Char) (l : List Char), ¬ (c = 'e' ∨ c = 'E') → exponent (c :: l) = some ([], c :: l) := by
    intro c l hc
    unfold exponent
    dsimp only
    rw [if_neg hc]
  cases s with
  | nil =>
    cases hs
    cases rest with
    | nil => rfl
    | cons c rest =>
      refine hother c rest ?_
      rcases h.head (c := c) rfl with rfl | rfl | rfl | rfl | rfl | rfl | rfl <;> decide
  | cons c s =>
    by_cases hc : c = 'e' ∨ c = 'E'
    · unfold exponent at hs ⊢
      dsimp only [List.cons_append] at hs ⊢
      rw [if_pos hc] at hs ⊢
      cases s with
      | nil => cases hs
      | cons d s =>
        dsimp only [List.cons_append] at hs ⊢
        split at hs
        all_goals
          rename_i hd
          obtain ⟨⟨ds, more'⟩, hds, heq⟩ := Option.map_eq_some_iff.1 hs
          cases heq
        · rw [if_pos hd, digits_append h hds, Option.map_some]
        · have hall := digits_append h hds
          rw [List.cons_append] at hall
          rw [if_neg hd, hall, Option.map_some]
    · rw [hother c s hc] at hs
      cases hs
      exact hother c _ hc

private theorem integer_append {i more : List Char} (h : Ends rest) (hs : integer s = some (i, more)) :
    integer (s ++ rest) = some (i, more ++ rest) := by
  obtain ⟨hds, hzero⟩ := Option.filter_eq_some_iff.1 hs
  rw [integer, digits_append h hds, Option.filter_some, if_pos hzero]

/-- What is behind the sign. -/
private theorem number_signed (sign l : List Char) (h : sign = ['-'] ∨ sign = [] ∧ l.head? ≠ some '-') :
    number (sign ++ l) = (integer l).bind fun i => (fraction i.2).bind fun f =>
      (exponent f.2).map fun e => (String.ofList (sign ++ i.1 ++ f.1 ++ e.1), e.2) := by
  rcases h with rfl | ⟨rfl, hl⟩
  · rfl
  · unfold number
    rw [List.nil_append]
    split
    · exact absurd rfl hl
    · rfl

private theorem sign_of (s : List Char) :
    ∃ sign l, s = sign ++ l ∧ (sign = ['-'] ∨ sign = [] ∧ l.head? ≠ some '-') := by
  by_cases hminus : s.head? = some '-'
  · obtain ⟨l, rfl⟩ := List.head?_eq_some_iff.1 hminus
    exact ⟨['-'], l, rfl, Or.inl rfl⟩
  · exact ⟨[], s, rfl, Or.inr ⟨rfl, hminus⟩⟩

/-- The parts of a number. -/
private theorem number_eq_some {t : String} {more : List Char} (hs : number s = some (t, more)) :
    ∃ sign l i l₁ f l₂ e, s = sign ++ l ∧ (sign = ['-'] ∨ sign = [] ∧ l.head? ≠ some '-') ∧
      integer l = some (i, l₁) ∧ fraction l₁ = some (f, l₂) ∧ exponent l₂ = some (e, more) ∧
      t = String.ofList (sign ++ i ++ f ++ e) := by
  obtain ⟨sign, l, rfl, hsign⟩ := sign_of s
  rw [number_signed sign l hsign] at hs
  obtain ⟨⟨i, l₁⟩, hi, hs₁⟩ := Option.bind_eq_some_iff.1 hs
  obtain ⟨⟨f, l₂⟩, hf, hs₂⟩ := Option.bind_eq_some_iff.1 hs₁
  obtain ⟨⟨e, l₃⟩, he, heq⟩ := Option.map_eq_some_iff.1 hs₂
  cases heq
  exact ⟨sign, l, i, l₁, f, l₂, e, rfl, hsign, hi, hf, he, rfl⟩

theorem number_append {t : String} {more : List Char} (h : Ends rest) (hs : number s = some (t, more)) :
    number (s ++ rest) = some (t, more ++ rest) := by
  obtain ⟨sign, l, i, l₁, f, l₂, e, rfl, hsign, hi, hf, he, rfl⟩ := number_eq_some hs
  have hsign' : sign = ['-'] ∨ sign = [] ∧ (l ++ rest).head? ≠ some '-' := by
    refine hsign.imp_right fun hplain => ⟨hplain.1, ?_⟩
    cases l with
    | nil => cases hi
    | cons c l => exact hplain.2
  rw [List.append_assoc, number_signed sign _ hsign', integer_append h hi, Option.bind_some, fraction_append h hf,
    Option.bind_some, exponent_append h he, Option.map_some]

/-- The characters of a number. -/
def NumberChar (c : Char) : Prop := c.isDigit = true ∨ c ∈ ['-', '+', '.', 'e', 'E']

theorem numberChar_of_number {t : String} {more : List Char} (hs : number s = some (t, more)) :
    ∀ c ∈ t.toList, NumberChar c := by
  have hdigits : ∀ {l ds l' : List Char}, digits l = some (ds, l') → ∀ c ∈ ds, NumberChar c := by
    intro l ds l' hl c hc
    unfold digits at hl
    split at hl
    · cases hl
    · cases hl
      exact Or.inl (List.mem_takeWhile_imp hc)
  obtain ⟨sign, l, i, l₁, f, l₂, e, -, hsign, hi, hf, he, rfl⟩ := number_eq_some hs
  intro c hc
  rw [String.toList_ofList] at hc
  simp only [List.mem_append] at hc
  rcases hc with ((hc | hc) | hc) | hc
  · rcases hsign with rfl | ⟨rfl, -⟩
    · exact Or.inr (by simp [List.mem_singleton.1 hc])
    · cases hc
  · exact hdigits (Option.filter_eq_some_iff.1 hi).1 c hc
  · unfold fraction at hf
    split at hf
    · obtain ⟨⟨ds, l'⟩, hds, heq⟩ := Option.map_eq_some_iff.1 hf
      cases heq
      rcases List.mem_cons.1 hc with rfl | hc
      · exact Or.inr (by simp)
      · exact hdigits hds c hc
    · cases hf
      cases hc
  · cases l₂ with
    | nil =>
      cases he
      cases hc
    | cons d l₂ =>
      unfold exponent at he
      dsimp only at he
      split at he
      · rename_i hd
        have hd' : NumberChar d := Or.inr (by rcases hd with rfl | rfl <;> simp)
        cases l₂ with
        | nil => cases he
        | cons d' l₂ =>
          dsimp only at he
          split at he
          all_goals
            rename_i hd₂
            obtain ⟨⟨ds, l'⟩, hds, heq⟩ := Option.map_eq_some_iff.1 he
            cases heq
            rcases List.mem_cons.1 hc with rfl | hc
            · exact hd'
          · rcases List.mem_cons.1 hc with rfl | hc
            · exact Or.inr (by rcases hd₂ with rfl | rfl <;> simp)
            · exact hdigits hds c hc
          · exact hdigits hds c hc
      · cases he
        cases hc

/-- A number starts with a digit or a minus. -/
theorem number_head {t : String} {more : List Char} (hs : number s = some (t, more)) :
    ∃ c l, s = c :: l ∧ (c = '-' ∨ c.isDigit = true) := by
  obtain ⟨sign, l, i, l₁, f, l₂, e, rfl, hsign, hi, -⟩ := number_eq_some hs
  rcases hsign with rfl | ⟨rfl, -⟩
  · exact ⟨'-', l, rfl, Or.inl rfl⟩
  · have hds := (Option.filter_eq_some_iff.1 hi).1
    cases l with
    | nil => cases hds
    | cons c l =>
      refine ⟨c, l, rfl, Or.inr ?_⟩
      by_contra hc
      rw [digits, List.takeWhile_cons_of_neg hc, if_pos rfl] at hds
      cases hds

end Numbers

private theorem head?_toDigits {n : Nat} (h : 0 < n) : (Nat.toDigits 10 n).head? ≠ some '0' := by
  induction n using Nat.strongRecOn with
  | ind n ih =>
    rw [Nat.toDigits_eq_if (by decide)]
    split
    · rename_i hlt
      have hsmall : ∀ d < 10, 0 < d → [d.digitChar].head? ≠ some '0' := by decide
      exact hsmall n hlt h
    · rename_i hlt
      have hrest := ih (n / 10) (by omega) (by omega)
      rwa [List.head?_append_of_ne_nil _ Nat.toDigits_ne_nil]

/-- The decimal digits of a number. -/
theorem number_toString (n : Nat) : number (toString n).toList = some (toString n, []) := by
  have hall : ∀ c ∈ Nat.toDigits 10 n, c.isDigit = true := fun c hc =>
    Nat.isDigit_of_mem_toDigits (by decide) (by decide) hc
  have hne : Nat.toDigits 10 n ≠ [] := Nat.toDigits_ne_nil
  have hdigits : digits (Nat.toDigits 10 n) = some (Nat.toDigits 10 n, []) := by
    unfold digits
    rw [List.takeWhile_eq_self_iff.2 hall, if_neg hne, List.dropWhile_eq_nil_iff.2 hall]
  have hzero : (Nat.toDigits 10 n).length = 1 ∨ (Nat.toDigits 10 n).head? ≠ some '0' := by
    rcases Nat.eq_zero_or_pos n with rfl | hpos
    · exact Or.inl (by rw [Nat.toDigits_zero]; rfl)
    · exact Or.inr (head?_toDigits hpos)
  have hminus : (Nat.toDigits 10 n).head? ≠ some '-' := by
    intro h
    exact absurd (hall _ (List.mem_of_mem_head? h)) (by decide)
  have hinteger : integer (Nat.toDigits 10 n) = some (Nat.toDigits 10 n, []) := by
    rw [integer, hdigits, Option.filter_some, if_pos (by simpa using hzero)]
  have hnumber := number_signed [] (Nat.toDigits 10 n) (Or.inr ⟨rfl, hminus⟩)
  rw [hinteger] at hnumber
  rw [Nat.toString_eq_repr, Nat.toList_repr]
  simpa [fraction, exponent, Nat.repr_eq_ofList_toDigits] using hnumber

/-! ### Lists with commas -/

/-- Whitespace between the parts of a text. -/
def Gap (gap : List Char) : Prop := ∀ c ∈ gap, isWs c = true

theorem gap_nil : Gap [] := fun _ hc => nomatch hc

theorem Gap.skipWs {gap : List Char} (h : Gap gap) (rest : List Char) : skipWs (gap ++ rest) = Json.skipWs rest :=
  List.dropWhile_append_of_pos h

section Items

variable {α : Type} {f : α → List Char} {item : Parser α} {close : Char} {xs : List α}

theorem Gap.ends {gap : List Char} (h : Gap gap) (hclose : close = ']' ∨ close = '}') (rest : List Char) :
    Ends (gap ++ close :: rest) := by
  cases gap with
  | nil => exact ends_cons (Or.inr (Or.inr hclose)) rest
  | cons c gap => exact ends_cons (Or.inr (Or.inl (h c (List.mem_cons_self ..)))) _

theorem skipWs_close (hclose : close = ']' ∨ close = '}') (rest : List Char) :
    skipWs (close :: rest) = close :: rest := by
  refine skipWs_cons ?_ rest
  rcases hclose with rfl | rfl <;> rfl

theorem items_intercalate {gap : List Char} (hgap : Gap gap) (hclose : close = ']' ∨ close = '}')
    (hxs : ∀ x ∈ xs, ∀ rest, Ends rest → item (f x ++ rest) = some (x, rest)) (hne : xs ≠ []) {k : Nat}
    (hk : xs.length ≤ k) (rest : List Char) :
    items item close k ([','].intercalate (xs.map f) ++ (gap ++ close :: rest)) = some (xs, rest) := by
  induction xs generalizing k with
  | nil => exact absurd rfl hne
  | cons x xs ih =>
    obtain ⟨k, rfl⟩ := Nat.exists_eq_succ_of_ne_zero (Nat.ne_zero_of_lt hk)
    have hx := hxs x (List.mem_cons_self ..)
    cases xs with
    | nil =>
      have hcomma : close ≠ ',' := by rcases hclose with rfl | rfl <;> decide
      rw [List.map_singleton, List.intercalate_singleton, items, hx _ (hgap.ends hclose rest), Option.bind_some]
      dsimp only
      rw [hgap.skipWs, skipWs_close hclose]
      dsimp only
      rw [if_neg hcomma, if_pos rfl]
    | cons y xs =>
      have hrest := ih (fun z hz => hxs z (List.mem_cons_of_mem _ hz)) (by simp) (Nat.le_of_succ_le_succ hk)
      rw [List.map_cons] at hrest
      rw [List.map_cons, List.map_cons, List.intercalate_cons_cons, List.append_assoc, List.append_assoc, items,
        List.singleton_append, hx _ (ends_cons (Or.inl rfl) _), Option.bind_some]
      dsimp only
      rw [skipWs_cons rfl]
      dsimp only
      rw [if_pos rfl, hrest, Option.map_some]

/-- The items are not more than the characters. -/
private theorem length_le_intercalate (f : α → List Char) (xs : List α) (hf : ∀ x ∈ xs, f x ≠ []) :
    xs.length ≤ ([','].intercalate (xs.map f)).length := by
  induction xs with
  | nil => exact Nat.zero_le _
  | cons x xs ih =>
    have hpos := List.length_pos_iff.2 (hf x (List.mem_cons_self ..))
    cases xs with
    | nil =>
      rw [List.map_singleton, List.intercalate_singleton]
      exact hpos
    | cons y xs =>
      have hrest := ih fun z hz => hf z (List.mem_cons_of_mem _ hz)
      simp only [List.map_cons, List.intercalate_cons_cons, List.length_append, List.length_cons] at hrest ⊢
      omega

theorem length_item_le (x : α) (hx : x ∈ xs) : (f x).length ≤ ([','].intercalate (xs.map f)).length := by
  induction xs with
  | nil => cases hx
  | cons y xs ih =>
    cases xs with
    | nil =>
      rw [List.mem_singleton] at hx
      subst hx
      simp
    | cons z xs =>
      rw [List.map_cons, List.map_cons, List.intercalate_cons_cons, List.length_append, List.length_append]
      rcases List.mem_cons.1 hx with rfl | hx
      · omega
      · have hrest := ih hx
        rw [List.map_cons] at hrest
        omega

/-- Items that each start with a gap. -/
theorem bracketed_gaps {gap : List Char} (hgap : Gap gap) (hclose : close = ']' ∨ close = '}')
    (hxs : ∀ x ∈ xs, ∀ rest, Ends rest → item (f x ++ rest) = some (x, rest))
    (hstart : ∀ x ∈ xs, ∃ g c l, f x = g ++ c :: l ∧ Gap g ∧ isWs c = false ∧ c ≠ close) (rest : List Char) :
    bracketed item close ([','].intercalate (xs.map f) ++ (gap ++ close :: rest)) = some (xs, rest) := by
  unfold bracketed
  cases xs with
  | nil =>
    rw [List.map_nil, List.intercalate_nil, List.nil_append, hgap.skipWs, skipWs_close hclose]
    dsimp only
    rw [if_pos rfl]
  | cons x xs =>
    have hne : ∀ y ∈ x :: xs, f y ≠ [] := by
      intro y hy hnil
      obtain ⟨g, c, l, heq, -⟩ := hstart y hy
      rw [heq] at hnil
      simp at hnil
    have hle : (x :: xs).length ≤ ([','].intercalate ((x :: xs).map f) ++ (gap ++ close :: rest)).length := by
      rw [List.length_append]
      exact (length_le_intercalate f (x :: xs) hne).trans (Nat.le_add_right _ _)
    have hitems := items_intercalate hgap hclose hxs (by simp) hle rest
    have hhead : ∃ g c l, [','].intercalate ((x :: xs).map f) ++ (gap ++ close :: rest) = g ++ c :: l ∧ Gap g ∧
        isWs c = false ∧ c ≠ close := by
      obtain ⟨g, c, l, heq, hc⟩ := hstart x (List.mem_cons_self ..)
      cases xs with
      | nil => exact ⟨g, c, l ++ (gap ++ close :: rest), by simp [heq], hc⟩
      | cons y xs =>
        have hlist : [','].intercalate ((x :: y :: xs).map f) ++ (gap ++ close :: rest) =
            g ++ c :: (l ++ ([','] ++ ([','].intercalate ((y :: xs).map f) ++ (gap ++ close :: rest)))) := by
          simp only [List.map_cons, List.intercalate_cons_cons, heq, List.append_assoc, List.cons_append]
        exact ⟨g, c, _, hlist, hc⟩
    obtain ⟨g, c, l, heq, hg, hws, hne⟩ := hhead
    have hskip : skipWs (g ++ c :: l) = c :: l := by rw [hg.skipWs, skipWs_cons hws]
    rw [heq] at hitems ⊢
    rw [hskip]
    dsimp only
    rw [if_neg hne, hitems]

theorem bracketed_intercalate (hclose : close = ']' ∨ close = '}')
    (hxs : ∀ x ∈ xs, ∀ rest, Ends rest → item (f x ++ rest) = some (x, rest))
    (hstart : ∀ x ∈ xs, ∃ c l, f x = c :: l ∧ isWs c = false ∧ c ≠ close) (rest : List Char) :
    bracketed item close ([','].intercalate (xs.map f) ++ close :: rest) = some (xs, rest) := by
  refine bracketed_gaps gap_nil hclose hxs (fun x hx => ?_) rest
  obtain ⟨c, l, heq, hc⟩ := hstart x hx
  exact ⟨[], c, l, heq, gap_nil, hc⟩

end Items

/-! ### Values -/

theorem printItems_eq (items : List Json) : printItems items = items.map print := by
  induction items with
  | nil => rfl
  | cons v vs ih => rw [printItems, ih, List.map_cons]

/-- A member with its colon. -/
def printPair (m : String × Json) : List Char := quote m.1 ++ ':' :: print m.2

theorem printMembers_eq (members : List (String × Json)) : printMembers members = members.map printPair := by
  induction members with
  | nil => rfl
  | cons m ms ih =>
    rw [printMembers, ih, List.map_cons]
    rfl

private theorem number_head_of {t : String} (h : number t.toList = some (t, [])) :
    ∃ c l, t.toList = c :: l ∧ isWs c = false ∧ c ≠ ']' ∧ c ≠ '}' ∧ c ≠ '{' ∧ c ≠ '[' ∧ c ≠ '"' ∧ c ≠ 't' ∧
      c ≠ 'f' ∧ c ≠ 'n' := by
  obtain ⟨c, l, heq, hc⟩ := number_head h
  refine ⟨c, l, heq, ?_⟩
  rcases hc with rfl | hc
  · decide
  · have hne : ∀ d : Char, d.isDigit = false → c ≠ d := by
      rintro d hd rfl
      rw [hd] at hc
      cases hc
    refine ⟨?_, hne _ rfl, hne _ rfl, hne _ rfl, hne _ rfl, hne _ rfl, hne _ rfl, hne _ rfl, hne _ rfl⟩
    have hspace := hne ' ' rfl
    have htab := hne '\t' rfl
    have hnewline := hne '\n' rfl
    have hreturn := hne '\r' rfl
    simp [isWs, hspace, htab, hnewline, hreturn]

/-- How a value starts. -/
theorem print_head (v : Json) (hv : v.Numeric) :
    ∃ c l, print v = c :: l ∧ isWs c = false ∧ c ≠ ']' ∧ c ≠ '}' := by
  cases v with
  | null => exact ⟨_, _, rfl, by decide⟩
  | bool b => cases b <;> exact ⟨_, _, rfl, by decide⟩
  | num t =>
    rw [Numeric] at hv
    obtain ⟨c, l, heq, hws, hbracket, hbrace, -⟩ := number_head_of hv
    exact ⟨c, l, heq, hws, hbracket, hbrace⟩
  | str s => exact ⟨_, _, rfl, by decide⟩
  | arr items => exact ⟨'[', _, by rw [print], by decide⟩
  | obj members => exact ⟨'{', _, by rw [print], by decide⟩

private theorem value_number {t : String} (h : number t.toList = some (t, [])) (n : Nat) {rest : List Char}
    (hrest : Ends rest) : value (n + 1) (t.toList ++ rest) = some (.num t, rest) := by
  have hnumber := number_append hrest h
  obtain ⟨c, l, heq, hws, -, -, hbrace, hbracket, hquote, ht, hf, hn⟩ := number_head_of h
  rw [heq] at hnumber ⊢
  have hskip : skipWs (c :: l ++ rest) = c :: (l ++ rest) := skipWs_cons hws _
  unfold value
  rw [hskip]
  split
  · rename_i hc
    exact absurd (List.cons.inj hc).1 hbrace
  · rename_i hc
    exact absurd (List.cons.inj hc).1 hbracket
  · rename_i hc
    exact absurd (List.cons.inj hc).1 hquote
  · rename_i hc
    exact absurd (List.cons.inj hc).1 ht
  · rename_i hc
    exact absurd (List.cons.inj hc).1 hf
  · rename_i hc
    exact absurd (List.cons.inj hc).1 hn
  · rw [List.cons_append] at hnumber
    rw [hnumber]
    rfl

theorem value_bracket (n : Nat) (rest : List Char) :
    value (n + 1) ('[' :: rest) = (bracketed (value n) ']' rest).map fun r => (.arr r.1, r.2) := rfl

theorem member_pair {value : Parser Json} {m : String × Json} {rest : List Char}
    (h : value (print m.2 ++ rest) = some (m.2, rest)) : member value (printPair m ++ rest) = some (m, rest) := by
  have hkey := string_quote m.1 (':' :: (print m.2 ++ rest))
  have hskip : skipWs (printPair m ++ rest) = quote m.1 ++ ':' :: (print m.2 ++ rest) := by
    rw [printPair, List.append_assoc, List.cons_append]
    exact skipWs_cons rfl _
  have hcolon : skipWs (':' :: (print m.2 ++ rest)) = ':' :: (print m.2 ++ rest) := skipWs_cons rfl _
  rw [member, hskip, hkey, Option.bind_some, hcolon]
  show Option.map _ (value _) = _
  rw [h, Option.map_some]

mutual

/-- A value is read back, and the text behind it is left. -/
theorem value_of_print (v : Json) (hv : v.Numeric) {n : Nat} (hn : (print v).length < n) {rest : List Char}
    (hrest : Ends rest) : value n (print v ++ rest) = some (v, rest) := by
  obtain ⟨n, rfl⟩ : ∃ k, n = k + 1 := ⟨n - 1, by omega⟩
  cases v with
  | null => rfl
  | bool b => cases b <;> rfl
  | num t =>
    rw [Numeric] at hv
    rw [print]
    exact value_number hv n hrest
  | str s =>
    have hs := string_quote s rest
    rw [print]
    rw [quote, List.cons_append] at hs ⊢
    rw [value_quote, hs, Option.map_some]
  | arr items =>
    rw [Numeric] at hv
    rw [print, List.length_cons, List.length_append] at hn
    rw [print, printItems_eq, List.cons_append, List.append_assoc, List.singleton_append, value_bracket]
    have hitems := values_of_print items hv (n := n) fun v hvm => by
      have hle := length_item_le (f := print) v hvm
      rw [printItems_eq] at hn
      omega
    rw [bracketed_intercalate (Or.inl rfl) (fun v hvm rest hr => (hitems v hvm).2 rest hr)
      (fun v hvm => (hitems v hvm).1), Option.map_some]
  | obj members =>
    rw [Numeric] at hv
    rw [print, List.length_cons, List.length_append] at hn
    rw [print, printMembers_eq, List.cons_append, List.append_assoc, List.singleton_append, value_brace]
    have hmembers := members_of_print members hv (n := n) fun m hm => by
      have hle := length_item_le (f := printPair) m hm
      rw [printPair, List.length_append, List.length_cons] at hle
      rw [printMembers_eq] at hn
      omega
    rw [bracketed_intercalate (Or.inr rfl) (fun m hm rest hr => member_pair (hmembers m hm rest hr))
      (fun m hm => ⟨'"', _, rfl, by decide⟩), Option.map_some]

theorem values_of_print (items : List Json) (hv : NumericItems items) {n : Nat}
    (hn : ∀ v ∈ items, (print v).length < n) :
    ∀ v ∈ items, (∃ c l, print v = c :: l ∧ isWs c = false ∧ c ≠ ']') ∧
      ∀ rest, Ends rest → value n (print v ++ rest) = some (v, rest) := by
  intro v hvm
  cases items with
  | nil => cases hvm
  | cons w ws =>
    rcases List.mem_cons.1 hvm with rfl | hvm
    · obtain ⟨c, l, heq, hws, hbracket, -⟩ := print_head v hv.1
      exact ⟨⟨c, l, heq, hws, hbracket⟩, fun rest hr => value_of_print v hv.1 (hn v (List.mem_cons_self ..)) hr⟩
    · exact values_of_print ws hv.2 (fun u hu => hn u (List.mem_cons_of_mem _ hu)) v hvm

theorem members_of_print (members : List (String × Json)) (hv : NumericMembers members) {n : Nat}
    (hn : ∀ m ∈ members, (print m.2).length < n) :
    ∀ m ∈ members, ∀ rest, Ends rest → value n (print m.2 ++ rest) = some (m.2, rest) := by
  intro m hm rest hr
  cases members with
  | nil => cases hm
  | cons w ws =>
    obtain ⟨key, v⟩ := w
    rcases List.mem_cons.1 hm with rfl | hm
    · exact value_of_print v hv.1 (hn (key, v) (List.mem_cons_self ..)) hr
    · exact members_of_print ws hv.2 (fun u hu => hn u (List.mem_cons_of_mem _ hu)) m hm rest hr

end

/-- What is printed is parsed again. -/
theorem parse_print (v : Json) (hv : v.Numeric) : parse (String.ofList (print v)) = some v := by
  have hvalue := value_of_print v hv (Nat.lt_succ_self _) ends_nil
  rw [List.append_nil] at hvalue
  rw [parse, String.toList_ofList, hvalue]
  rfl

/-! ### One line -/

private theorem printChar_plain (c : Char) : ∀ d ∈ printChar c, 0x20 ≤ d.toNat := by
  intro d hd
  unfold printChar at hd
  split at hd
  · rename_i e he
    have hescape : 0x20 ≤ e.toNat := by
      unfold shortEscape at he
      split at he
      · rename_i hc
        cases he
        rcases hc with rfl | rfl <;> decide
      · split_ifs at he
        all_goals
          cases he
          decide
    rcases List.mem_cons.1 hd with rfl | hd
    · decide
    · rw [List.mem_singleton] at hd
      exact hd ▸ hescape
  · split at hd
    · have hhex : ∀ k < 16, 0x20 ≤ (Nat.digitChar k).toNat := by decide
      have hhigh := hhex (c.toNat / 16) (by omega)
      have hlow := hhex (c.toNat % 16) (by omega)
      simp only [List.mem_cons, List.not_mem_nil, or_false] at hd
      rcases hd with rfl | rfl | rfl | rfl | rfl | rfl
      · decide
      · decide
      · decide
      · decide
      · exact hhigh
      · exact hlow
    · rename_i hc
      rw [List.mem_singleton] at hd
      subst hd
      omega

private theorem quote_plain (s : String) : ∀ c ∈ quote s, 0x20 ≤ c.toNat := by
  intro c hc
  rw [quote, List.mem_cons, List.mem_append, List.mem_singleton] at hc
  rcases hc with rfl | hc | rfl
  · decide
  · obtain ⟨d, -, hd⟩ := List.mem_flatMap.1 hc
    exact printChar_plain d c hd
  · decide

private theorem numberChar_plain {c : Char} (h : NumberChar c) : 0x20 ≤ c.toNat := by
  rcases h with h | h
  · simp only [Char.isDigit, Bool.and_eq_true, decide_eq_true_eq, UInt32.le_iff_toNat_le] at h
    have hval : c.toNat = c.val.toNat := rfl
    have hzero : '0'.val.toNat = 48 := rfl
    omega
  · simp only [List.mem_cons, List.not_mem_nil, or_false] at h
    rcases h with rfl | rfl | rfl | rfl | rfl <;> decide

private theorem literal_plain {cs : List Char} (h : cs.all (fun c => decide (0x20 ≤ c.toNat)) = true) :
    ∀ c ∈ cs, 0x20 ≤ c.toNat := fun c hc => of_decide_eq_true (List.all_eq_true.1 h c hc)

private theorem intercalate_plain {texts : List (List Char)} (h : ∀ t ∈ texts, ∀ c ∈ t, 0x20 ≤ c.toNat) :
    ∀ c ∈ [','].intercalate texts, 0x20 ≤ c.toNat := by
  induction texts with
  | nil =>
    intro c hc
    cases hc
  | cons t ts ih =>
    have hrest := ih fun u hu => h u (List.mem_cons_of_mem _ hu)
    intro c hc
    cases ts with
    | nil =>
      rw [List.intercalate_singleton] at hc
      exact h t (List.mem_cons_self ..) c hc
    | cons u us =>
      rw [List.intercalate_cons_cons, List.mem_append, List.mem_append, List.mem_singleton] at hc
      rcases hc with (hc | rfl) | hc
      · exact h t (List.mem_cons_self ..) c hc
      · decide
      · exact hrest c hc

private theorem enclosed_plain {opening closing : Char} {cs : List Char} (ho : 0x20 ≤ opening.toNat)
    (hc : 0x20 ≤ closing.toNat) (h : ∀ c ∈ cs, 0x20 ≤ c.toNat) :
    ∀ c ∈ opening :: (cs ++ [closing]), 0x20 ≤ c.toNat := by
  intro c hmem
  rw [List.mem_cons, List.mem_append, List.mem_singleton] at hmem
  rcases hmem with rfl | hmem | rfl
  · exact ho
  · exact h c hmem
  · exact hc

mutual

/-- No control character is printed, so the text is one line. -/
theorem print_isLine (v : Json) (hv : v.Numeric) : ∀ c ∈ print v, 0x20 ≤ c.toNat := by
  cases v with
  | null => exact literal_plain (by decide)
  | bool b =>
    cases b with
    | true => exact literal_plain (by decide)
    | false => exact literal_plain (by decide)
  | num t =>
    rw [Numeric] at hv
    exact fun c hc => numberChar_plain (numberChar_of_number hv c hc)
  | str s => exact quote_plain s
  | arr items =>
    rw [Numeric] at hv
    exact enclosed_plain (by decide) (by decide) (intercalate_plain (printItems_isLine items hv))
  | obj members =>
    rw [Numeric] at hv
    exact enclosed_plain (by decide) (by decide) (intercalate_plain (printMembers_isLine members hv))

theorem printItems_isLine (items : List Json) (hv : NumericItems items) :
    ∀ t ∈ printItems items, ∀ c ∈ t, 0x20 ≤ c.toNat := by
  intro t ht
  cases items with
  | nil => cases ht
  | cons v vs =>
    rcases List.mem_cons.1 ht with rfl | ht
    · exact print_isLine v hv.1
    · exact printItems_isLine vs hv.2 t ht

theorem printMembers_isLine (members : List (String × Json)) (hv : NumericMembers members) :
    ∀ t ∈ printMembers members, ∀ c ∈ t, 0x20 ≤ c.toNat := by
  intro t ht
  cases members with
  | nil => cases ht
  | cons m ms =>
    obtain ⟨key, v⟩ := m
    rcases List.mem_cons.1 ht with rfl | ht
    · intro c hc
      rw [List.mem_append, List.mem_cons] at hc
      rcases hc with hc | rfl | hc
      · exact quote_plain key c hc
      · decide
      · exact print_isLine v hv.1 c hc
    · exact printMembers_isLine ms hv.2 t ht

end

end Lib.Json
