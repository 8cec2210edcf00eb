import Qdrop.Lib.JsonPrint

/-!
# Printing JSON over several lines

Every item and every member stands on a line of its own, indented by two spaces for each bracket around it.  What is
printed is parsed again (`parse_pretty`).
-/

namespace Lib.Json

/-- A new line inside of `depth` brackets. -/
def newline (depth : Nat) : List Char := '\n' :: List.replicate (2 * depth) ' '

/-- What stands before the bracket that closes. -/
def closing {α : Type} (depth : Nat) (xs : List α) : List Char := if xs.isEmpty then [] else newline depth

mutual

def pretty (depth : Nat) : Json → List Char
  | .null => ['n', 'u', 'l', 'l']
  | .bool true => ['t', 'r', 'u', 'e']
  | .bool false => ['f', 'a', 'l', 's', 'e']
  | .num text => text.toList
  | .str s => quote s
  | .arr items => '[' :: ([','].intercalate (prettyItems depth items) ++ (closing depth items ++ [']']))
  | .obj members => '{' :: ([','].intercalate (prettyMembers depth members) ++ (closing depth members ++ ['}']))

def prettyItems (depth : Nat) : List Json → List (List Char)
  | [] => []
  | v :: vs => (newline (depth + 1) ++ pretty (depth + 1) v) :: prettyItems depth vs

def prettyMembers (depth : Nat) : List (String × Json) → List (List Char)
  | [] => []
  | (key, v) :: ms =>
    (newline (depth + 1) ++ (quote key ++ ':' :: ' ' :: pretty (depth + 1) v)) :: prettyMembers depth ms

end

/-! ### Lines -/

theorem gap_newline (depth : Nat) : Gap (newline depth) := by
  intro c hc
  rcases List.mem_cons.1 hc with rfl | hc
  · rfl
  · rw [(List.mem_replicate.1 hc).2]
    rfl

theorem gap_closing {α : Type} (depth : Nat) (xs : List α) : Gap (closing depth xs) := by
  unfold closing
  split
  · exact gap_nil
  · exact gap_newline depth

theorem gap_space : Gap [' '] := by
  intro c hc
  rw [List.mem_singleton.1 hc]
  rfl

/-- An item on its line. -/
def prettyLine (depth : Nat) (v : Json) : List Char := newline (depth + 1) ++ pretty (depth + 1) v

/-- A member on its line. -/
def prettyPair (depth : Nat) (m : String × Json) : List Char :=
  newline (depth + 1) ++ (quote m.1 ++ ':' :: ' ' :: pretty (depth + 1) m.2)

theorem prettyItems_eq (depth : Nat) (items : List Json) : prettyItems depth items = items.map (prettyLine depth) := by
  induction items with
  | nil => rfl
  | cons v vs ih =>
    rw [prettyItems, ih, List.map_cons]
    rfl

theorem prettyMembers_eq (depth : Nat) (members : List (String × Json)) :
    prettyMembers depth members = members.map (prettyPair depth) := by
  induction members with
  | nil => rfl
  | cons m ms ih =>
    rw [prettyMembers, ih, List.map_cons]
    rfl

/-- Whitespace before a value is skipped. -/
theorem value_gap {g : List Char} (hg : Gap g) (n : Nat) (s : List Char) : value n (g ++ s) = value n s := by
  cases n with
  | zero => rfl
  | succ n => rw [value, value, hg.skipWs]

theorem member_prettyPair {n depth : Nat} {m : String × Json} {rest : List Char}
    (h : value n (pretty (depth + 1) m.2 ++ rest) = some (m.2, rest)) :
    member (value n) (prettyPair depth m ++ rest) = some (m, rest) := by
  have hkey := string_quote m.1 (':' :: ([' '] ++ (pretty (depth + 1) m.2 ++ rest)))
  have hskip : skipWs (prettyPair depth m ++ rest) =
      quote m.1 ++ ':' :: ([' '] ++ (pretty (depth + 1) m.2 ++ rest)) := by
    rw [prettyPair, List.append_assoc, (gap_newline _).skipWs, List.append_assoc]
    exact skipWs_cons rfl _
  have hcolon : skipWs (':' :: ([' '] ++ (pretty (depth + 1) m.2 ++ rest))) =
      ':' :: ([' '] ++ (pretty (depth + 1) m.2 ++ rest)) := skipWs_cons rfl _
  rw [member, hskip, hkey, Option.bind_some, hcolon]
  show Option.map _ (value n _) = _
  rw [value_gap gap_space, h, Option.map_some]

/-- How a value starts. -/
theorem pretty_head (depth : Nat) (v : Json) (hv : v.Numeric) :
    ∃ c l, pretty depth v = c :: l ∧ isWs c = false ∧ c ≠ ']' ∧ c ≠ '}' := by
  have hprint := print_head v hv
  cases v with
  | arr items => exact ⟨'[', _, by rw [pretty], by decide⟩
  | obj members => exact ⟨'{', _, by rw [pretty], by decide⟩
  | bool b => cases b <;> exact hprint
  | _ => exact hprint

mutual

/-- A value is read back, and the text behind it is left. -/
theorem value_of_pretty (depth : Nat) (v : Json) (hv : v.Numeric) {n : Nat} (hn : (pretty depth v).length < n)
    {rest : List Char} (hrest : Ends rest) : value n (pretty depth v ++ rest) = some (v, rest) := by
  obtain ⟨n, rfl⟩ : ∃ k, n = k + 1 := ⟨n - 1, by omega⟩
  cases v with
  | arr items =>
    rw [Numeric] at hv
    rw [pretty, List.length_cons, List.length_append] at hn
    rw [pretty, prettyItems_eq, List.cons_append, List.append_assoc, List.append_assoc, List.singleton_append,
      value_bracket]
    have hitems := values_of_pretty depth items hv (n := n) fun v hvm => by
      have hle := length_item_le (f := prettyLine depth) v hvm
      rw [prettyLine, List.length_append] at hle
      rw [prettyItems_eq] at hn
      omega
    rw [bracketed_gaps (gap_closing _ _) (Or.inl rfl) (fun v hvm rest hr => (hitems v hvm).2 rest hr)
      (fun v hvm => (hitems v hvm).1), Option.map_some]
  | obj members =>
    rw [Numeric] at hv
    rw [pretty, List.length_cons, List.length_append] at hn
    rw [pretty, prettyMembers_eq, List.cons_append, List.append_assoc, List.append_assoc, List.singleton_append,
      value_brace]
    have hmembers := members_of_pretty depth members hv (n := n) fun m hm => by
      have hle := length_item_le (f := prettyPair depth) m hm
      rw [prettyPair, List.length_append, List.length_append, List.length_cons, List.length_cons] at hle
      rw [prettyMembers_eq] at hn
      omega
    rw [bracketed_gaps (gap_closing _ _) (Or.inr rfl) (fun m hm rest hr => member_prettyPair (hmembers m hm rest hr))
      (fun m hm => ⟨_, '"', _, rfl, gap_newline _, by decide⟩), Option.map_some]
  | bool b => cases b <;> exact value_of_print _ hv hn hrest
  | _ => exact value_of_print _ hv hn hrest

theorem values_of_pretty (depth : Nat) (items : List Json) (hv : NumericItems items) {n : Nat}
    (hn : ∀ v ∈ items, (pretty (depth + 1) v).length < n) :
    ∀ v ∈ items, (∃ g c l, prettyLine depth v = g ++ c :: l ∧ Gap g ∧ isWs c = false ∧ c ≠ ']') ∧
      ∀ rest, Ends rest → value n (prettyLine depth v ++ rest) = some (v, rest) := by
  intro v hvm
  cases items with
  | nil => cases hvm
  | cons w ws =>
    rcases List.mem_cons.1 hvm with rfl | hvm
    · obtain ⟨c, l, heq, hws, hbracket, -⟩ := pretty_head (depth + 1) v hv.1
      refine ⟨⟨_, c, l, by rw [prettyLine, heq], gap_newline _, hws, hbracket⟩, fun rest hr => ?_⟩
      rw [prettyLine, List.append_assoc, value_gap (gap_newline _)]
      exact value_of_pretty (depth + 1) v hv.1 (hn v (List.mem_cons_self ..)) hr
    · exact values_of_pretty depth ws hv.2 (fun u hu => hn u (List.mem_cons_of_mem _ hu)) v hvm

theorem members_of_pretty (depth : Nat) (members : List (String × Json)) (hv : NumericMembers members) {n : Nat}
    (hn : ∀ m ∈ members, (pretty (depth + 1) m.2).length < n) :
    ∀ m ∈ members, ∀ rest, Ends rest → value n (pretty (depth + 1) m.2 ++ rest) = some (m.2, rest) := by
  intro m hm rest hr
  cases members with
  | nil => cases hm
  | cons w ws =>
    obtain ⟨key, v⟩ := w
    rcases List.mem_cons.1 hm with rfl | hm
    · exact value_of_pretty (depth + 1) v hv.1 (hn (key, v) (List.mem_cons_self ..)) hr
    · exact members_of_pretty depth ws hv.2 (fun u hu => hn u (List.mem_cons_of_mem _ hu)) m hm rest hr

end

/-- What is printed is parsed again. -/
theorem parse_pretty (v : Json) (hv : v.Numeric) : parse (String.ofList (pretty 0 v)) = some v := by
  have hvalue := value_of_pretty 0 v hv (Nat.lt_succ_self _) ends_nil
  rw [List.append_nil] at hvalue
  rw [parse, String.toList_ofList, hvalue]
  rfl

end Lib.Json
