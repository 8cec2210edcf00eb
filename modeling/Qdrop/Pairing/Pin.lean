import Qdrop.BlobName
import Qdrop.Lib.Rejection

/-!
# The pairing PIN (`gen_pin` in `qdrop-core/src/crypto.rs`, `prompt_pin` in `qdrop/src/main.rs`)

The PIN is the remainder of the first drawn number that lies below a multiple of a million.  What is shown can be
typed, with any whitespace around it, and each of the texts that the prompt accepts is shown on one in a million of the
streams of random numbers, whatever their length (`gen_pin_uniform`).
-/

namespace Qdrop

open Finset Lib

/-- `u32::from_le_bytes(random_bytes::<4>()?)`. -/
abbrev PinDraw := Fin (2 ^ 32)

/-- `u32::checked_mul`. -/
def checkedMul (a b : Nat) : Option Nat := if a * b < 2 ^ 32 then some (a * b) else none

/-- `format!("{:06}", n)`. -/
def formatPin (n : Nat) : String :=
  String.ofList (List.replicate (6 - (Nat.toDigits 10 n).length) '0' ++ Nat.toDigits 10 n)

/-- What one round of the loop makes of the number it has drawn. -/
def pinOfDraw (n : PinDraw) : Option String :=
  match checkedMul ((2 ^ 32 - 1) / 1000000) 1000000 with
  | some limit => if n.val < limit then some (formatPin (n.val % 1000000)) else none
  | none => none

/-- `gen_pin` on the numbers that the system's generator returns; `none` when it has not returned yet. -/
def genPin : List (Except String PinDraw) → Option (Except String String)
  | [] => none
  | .error err :: _ => some (.error err)
  | .ok n :: draws =>
    match pinOfDraw n with
    | some pin => some (.ok pin)
    | none => genPin draws

/-- Why `prompt_pin` fails. -/
inductive PromptError where
  | read (err : String)
  /-- `expected a 6-digit PIN, got ..` -/
  | notAPin (got : String)
  deriving DecidableEq

/-- `prompt_pin`, from what `read_line` returns. -/
def promptPin : Except String String → Except PromptError String
  | .error err => .error (.read err)
  | .ok line =>
    let pin := trimmed line
    if pin.utf8ByteSize ≠ 6 ∨ pin.toList.all Char.isDigit = false then .error (.notAPin pin) else .ok line

/-- The PIN that `cmd_pair` gives to `run_request`. -/
def typedPin (line : Except String String) : Except PromptError String := (promptPin line).map trimmed

/-! ### Six digits -/

/-- Six ASCII digits. -/
def IsPin (pin : String) : Prop := pin.toList.length = 6 ∧ ∀ c ∈ pin.toList, c.isDigit = true

instance (pin : String) : Decidable (IsPin pin) := inferInstanceAs (Decidable (_ ∧ _))

theorem isDigit_formatPin (n : Nat) : ∀ c ∈ (formatPin n).toList, c.isDigit = true := by
  intro c hc
  rw [formatPin, String.toList_ofList, List.mem_append] at hc
  rcases hc with hc | hc
  · rw [(List.mem_replicate.1 hc).2]
    rfl
  · exact Nat.isDigit_of_mem_toDigits (by decide) (by decide) hc

theorem length_formatPin {n : Nat} (h : n < 1000000) : (formatPin n).toList.length = 6 := by
  have hlen : (Nat.toDigits 10 n).length ≤ 6 := (Nat.length_toDigits_le_iff (by decide) (by decide)).2 h
  rw [formatPin, String.toList_ofList, List.length_append, List.length_replicate]
  omega

theorem isPin_formatPin {n : Nat} (h : n < 1000000) : IsPin (formatPin n) := ⟨length_formatPin h, isDigit_formatPin n⟩

theorem ofDigitChars_formatPin (n : Nat) : Nat.ofDigitChars 10 (formatPin n).toList 0 = n := by
  rw [formatPin, String.toList_ofList, Nat.ofDigitChars_append, Nat.ofDigitChars_replicate_zero, Nat.mul_zero,
    Nat.ofDigitChars_ten_toDigits]

theorem formatPin_inj {m n : Nat} (h : formatPin m = formatPin n) : m = n := by
  rw [← ofDigitChars_formatPin m, h, ofDigitChars_formatPin]

private theorem digit_lt {c : Char} (h : c.isDigit = true) : 48 ≤ c.toNat ∧ c.toNat - 48 < 10 := by
  obtain ⟨hlo, hhi⟩ := Char.isDigit_iff_toNat.1 h
  have h0 : '0'.toNat = 48 := rfl
  have h9 : '9'.toNat = 57 := rfl
  omega

theorem ofDigitChars_snoc (l : List Char) (c : Char) :
    Nat.ofDigitChars 10 (l ++ [c]) 0 = 10 * Nat.ofDigitChars 10 l 0 + (c.toNat - 48) := by
  rw [Nat.ofDigitChars_append, Nat.ofDigitChars_cons, Nat.ofDigitChars_nil]
  rfl

theorem ofDigitChars_lt {l : List Char} (h : ∀ c ∈ l, c.isDigit = true) :
    Nat.ofDigitChars 10 l 0 < 10 ^ l.length := by
  induction l using List.reverseRecOn with
  | nil => simp
  | append_singleton l c ih =>
    have hl := ih fun d hd => h d (List.mem_append_left _ hd)
    obtain ⟨-, hc⟩ := digit_lt (h c (by simp))
    rw [ofDigitChars_snoc, List.length_append, List.length_singleton, Nat.pow_succ]
    omega

/-- Equally many digits of the same number are the same digits. -/
theorem ofDigitChars_inj {l l' : List Char} (hd : ∀ c ∈ l, c.isDigit = true) (hd' : ∀ c ∈ l', c.isDigit = true)
    (hlen : l.length = l'.length) (h : Nat.ofDigitChars 10 l 0 = Nat.ofDigitChars 10 l' 0) : l = l' := by
  induction l using List.reverseRecOn generalizing l' with
  | nil => exact (List.length_eq_zero_iff.1 hlen.symm).symm
  | append_singleton l c ih =>
    rcases List.eq_nil_or_concat' l' with rfl | ⟨m, d, rfl⟩
    · simp at hlen
    · rw [ofDigitChars_snoc, ofDigitChars_snoc] at h
      obtain ⟨hc, hc10⟩ := digit_lt (hd c (by simp))
      obtain ⟨hd0, hd10⟩ := digit_lt (hd' d (by simp))
      have hcd : c = d := Char.toNat_inj.1 (by omega)
      have hlm : l = m := ih (fun e he => hd e (List.mem_append_left _ he))
        (fun e he => hd' e (List.mem_append_left _ he)) (by simpa using hlen) (by omega)
      rw [hlm, hcd]

/-- Every six digits are the PIN of a number. -/
theorem exists_formatPin {pin : String} (h : IsPin pin) : ∃ n < 1000000, formatPin n = pin := by
  have hlt : Nat.ofDigitChars 10 pin.toList 0 < 1000000 := by
    have := ofDigitChars_lt h.2
    rwa [h.1] at this
  refine ⟨_, hlt, String.toList_injective ?_⟩
  apply ofDigitChars_inj (isDigit_formatPin _) h.2
  · rw [length_formatPin hlt, h.1]
  · exact ofDigitChars_formatPin _

/-- The PINs. -/
def pins : Finset String := (range 1000000).image formatPin

theorem mem_pins {pin : String} : pin ∈ pins ↔ IsPin pin := by
  simp only [pins, mem_image, mem_range]
  constructor
  · rintro ⟨n, hn, rfl⟩
    exact isPin_formatPin hn
  · exact exists_formatPin

theorem card_pins : pins.card = 1000000 := by
  rw [pins, card_image_of_injective _ fun _ _ => formatPin_inj, card_range]

/-! ### The prompt -/

/-- Digits take one byte each. -/
theorem utf8ByteSize_digits {l : List Char} (h : ∀ c ∈ l, c.isDigit = true) :
    (String.ofList l).utf8ByteSize = l.length := by
  induction l with
  | nil => rfl
  | cons c l ih =>
    have hsize : c.utf8Size = 1 := by
      obtain ⟨-, hc⟩ := digit_lt (h c List.mem_cons_self)
      rw [Char.utf8Size_eq_one_iff, UInt32.le_iff_toNat_le]
      have hval : c.val.toNat = c.toNat := rfl
      have h127 : (127 : UInt32).toNat = 127 := rfl
      omega
    rw [← List.singleton_append, String.ofList_append, String.utf8ByteSize_append, ← String.singleton_eq_ofList,
      String.utf8ByteSize_singleton, hsize, ih fun d hd => h d (List.mem_cons_of_mem c hd), List.singleton_append,
      List.length_cons, Nat.add_comm]

theorem utf8ByteSize_eq_six {pin : String} (h : ∀ c ∈ pin.toList, c.isDigit = true) :
    pin.utf8ByteSize = pin.toList.length := by
  rw [← utf8ByteSize_digits h, String.ofList_toList]

theorem typedPin_eq (line : String) :
    typedPin (.ok line) = if IsPin (trimmed line) then .ok (trimmed line) else .error (.notAPin (trimmed line)) := by
  have hiff : (trimmed line).utf8ByteSize ≠ 6 ∨ (trimmed line).toList.all Char.isDigit = false ↔
      ¬ IsPin (trimmed line) := by
    rw [IsPin, not_and_or, ← Bool.not_eq_true, List.all_eq_true]
    by_cases hall : ∀ c ∈ (trimmed line).toList, c.isDigit = true
    · rw [utf8ByteSize_eq_six hall]
    · simp [hall]
  unfold typedPin promptPin
  dsimp only
  by_cases hpin : IsPin (trimmed line)
  · rw [if_pos hpin, if_neg fun hbad => hiff.1 hbad hpin]
    rfl
  · rw [if_neg hpin, if_pos (hiff.2 hpin)]
    rfl

theorem typedPin_iff {line pin : String} : typedPin (.ok line) = .ok pin ↔ trimmed line = pin ∧ IsPin pin := by
  rw [typedPin_eq]
  constructor
  · intro h
    split at h
    · rename_i hpin
      cases h
      exact ⟨rfl, hpin⟩
    · cases h
  · rintro ⟨rfl, hpin⟩
    exact if_pos hpin

theorem isPin_typedPin {line : Except String String} {pin : String} (h : typedPin line = .ok pin) : IsPin pin := by
  cases line with
  | error err => cases h
  | ok line => exact (typedPin_iff.1 h).2

theorem isWhitespace_digit {c : Char} (h : c.isDigit = true) : isWhitespace c = false := by
  obtain ⟨hlo, hhi⟩ := digit_lt h
  simp only [isWhitespace, Bool.or_eq_false_iff, Bool.and_eq_false_iff, decide_eq_false_iff_not, beq_eq_false_iff_ne]
  omega

theorem rdropWhile_append {s after : List Char} (h : ∀ c ∈ after, isWhitespace c = true) :
    (s ++ after).rdropWhile isWhitespace = s.rdropWhile isWhitespace := by
  induction after using List.reverseRecOn with
  | nil => rw [List.append_nil]
  | append_singleton after c ih =>
    rw [← List.append_assoc, List.rdropWhile_concat_pos _ _ _ (h c (by simp))]
    exact ih fun d hd => h d (List.mem_append_left _ hd)

/-- Whitespace around digits is trimmed. -/
theorem trimmed_pin {before after : List Char} {pin : String} (hbefore : ∀ c ∈ before, isWhitespace c = true)
    (hafter : ∀ c ∈ after, isWhitespace c = true) (hpin : IsPin pin) :
    trimmed (String.ofList (before ++ pin.toList ++ after)) = pin := by
  have hne : pin.toList ≠ [] := by
    intro hnil
    have hlen := hpin.1
    rw [hnil] at hlen
    cases hlen
  have hdrop : (before ++ pin.toList ++ after).dropWhile isWhitespace = pin.toList ++ after := by
    obtain ⟨c, rest, hpin'⟩ := List.exists_cons_of_ne_nil hne
    have hc : ¬ isWhitespace c = true := by
      rw [isWhitespace_digit (hpin.2 c (by rw [hpin']; exact List.mem_cons_self))]
      exact Bool.false_ne_true
    rw [List.append_assoc, List.dropWhile_append_of_pos hbefore, hpin', List.cons_append,
      List.dropWhile_cons_of_neg hc]
  have hlast : pin.toList.rdropWhile isWhitespace = pin.toList := by
    rw [List.rdropWhile_eq_self_iff]
    intro hne
    rw [isWhitespace_digit (hpin.2 _ (List.getLast_mem hne))]
    exact Bool.false_ne_true
  rw [trimmed, String.toList_ofList, trim, hdrop, rdropWhile_append hafter, hlast, String.ofList_toList]

/-! ### The loop -/

theorem pinOfDraw_eq (n : PinDraw) :
    pinOfDraw n = if n.val < 4294000000 then some (formatPin (n.val % 1000000)) else none := rfl

theorem genPin_eq (draws : List PinDraw) :
    genPin (draws.map .ok) = (draws.findSome? pinOfDraw).map .ok := by
  induction draws with
  | nil => rfl
  | cons n draws ih =>
    rw [List.map_cons, genPin, List.findSome?_cons]
    cases pinOfDraw n with
    | none => exact ih
    | some pin => rfl

theorem isPin_pinOfDraw {n : PinDraw} {pin : String} (h : pinOfDraw n = some pin) : IsPin pin := by
  rw [pinOfDraw_eq] at h
  split at h
  · cases h
    exact isPin_formatPin (Nat.mod_lt _ (by decide))
  · cases h

/-- Whatever the generator returns, what is shown is a PIN. -/
theorem isPin_genPin {draws : List (Except String PinDraw)} {pin : String} (h : genPin draws = some (.ok pin)) :
    IsPin pin := by
  induction draws with
  | nil => cases h
  | cons d draws ih =>
    cases d with
    | error err => cases h
    | ok n =>
      rw [genPin] at h
      cases hn : pinOfDraw n with
      | none => exact ih (by rwa [hn] at h)
      | some shown =>
        rw [hn] at h
        cases h
        exact isPin_pinOfDraw hn

/-- The draws that give one PIN: its number, and the millions above it. -/
theorem card_fiber {m : Nat} (hm : m < 1000000) : (Rejection.fiber pinOfDraw (some (formatPin m))).card = 4294 := by
  have hlt : ∀ i : Fin 4294, 1000000 * i.val + m < 2 ^ 32 := fun i => by omega
  have himage : Rejection.fiber pinOfDraw (some (formatPin m)) =
      univ.image fun i : Fin 4294 => (⟨1000000 * i.val + m, hlt i⟩ : PinDraw) := by
    ext n
    rw [Rejection.mem_fiber, mem_image, pinOfDraw_eq]
    constructor
    · intro h
      split at h
      · rename_i hn
        have hmod : n.val % 1000000 = m := formatPin_inj (Option.some.inj h)
        have hdiv : 1000000 * (n.val / 1000000) + m = n.val := by omega
        exact ⟨⟨n.val / 1000000, by omega⟩, mem_univ _, Fin.ext hdiv⟩
      · cases h
    · rintro ⟨i, -, rfl⟩
      rw [if_pos (by show 1000000 * i.val + m < 4294000000; omega)]
      show some (formatPin ((1000000 * i.val + m) % 1000000)) = _
      rw [Nat.mul_add_mod, Nat.mod_eq_of_lt hm]
  rw [himage, card_image_of_injective, card_univ, Fintype.card_fin]
  intro i j hij
  have hval : 1000000 * i.val + m = 1000000 * j.val + m := congrArg Fin.val hij
  exact Fin.ext (by omega)

theorem card_fiber_none : (Rejection.fiber pinOfDraw none).card = 967296 := by
  have hlt : ∀ i : Fin 967296, 4294000000 + i.val < 2 ^ 32 := fun i => by omega
  have himage : Rejection.fiber pinOfDraw none =
      univ.image fun i : Fin 967296 => (⟨4294000000 + i.val, hlt i⟩ : PinDraw) := by
    ext n
    rw [Rejection.mem_fiber, mem_image, pinOfDraw_eq]
    constructor
    · intro h
      split at h
      · cases h
      · rename_i hn
        exact ⟨⟨n.val - 4294000000, by omega⟩, mem_univ _, Fin.ext (by
          show 4294000000 + (n.val - 4294000000) = n.val
          omega)⟩
    · rintro ⟨i, -, rfl⟩
      exact if_neg (by show ¬ 4294000000 + i.val < 4294000000; omega)
  rw [himage, card_image_of_injective, card_univ, Fintype.card_fin]
  intro i j hij
  have hval : 4294000000 + i.val = 4294000000 + j.val := congrArg Fin.val hij
  exact Fin.ext (by omega)

/-- The streams of `k` numbers on which the loop returns `r`. -/
def pinStreams (k : Nat) (r : Option (Except String String)) : Finset (Fin k → PinDraw) :=
  univ.filter fun draws => genPin (List.ofFn fun i => .ok (draws i)) = r

/-- The streams of `k` numbers on which a PIN is shown. -/
def shownStreams (k : Nat) : Finset (Fin k → PinDraw) :=
  univ.filter fun draws => (genPin (List.ofFn fun i => .ok (draws i))).isSome = true

theorem genPin_ofFn {k : Nat} (draws : Fin k → PinDraw) :
    genPin (List.ofFn fun i => .ok (draws i)) = ((List.ofFn draws).findSome? pinOfDraw).map .ok := by
  rw [← genPin_eq, List.map_ofFn]
  rfl

theorem pinStreams_some (k : Nat) (pin : String) :
    pinStreams k (some (.ok pin)) = Rejection.streams pinOfDraw k (some pin) := by
  ext draws
  rw [pinStreams, mem_filter, Rejection.mem_streams, genPin_ofFn, Option.map_eq_some_iff]
  simp

theorem pinStreams_none (k : Nat) : pinStreams k none = Rejection.streams pinOfDraw k none := by
  ext draws
  rw [pinStreams, mem_filter, Rejection.mem_streams, genPin_ofFn, Option.map_eq_none_iff]
  simp

theorem shownStreams_eq (k : Nat) : shownStreams k = Rejection.finished pinOfDraw k := by
  ext draws
  rw [shownStreams, mem_filter, Rejection.mem_finished, genPin_ofFn, Option.isSome_map]
  simp

theorem card_pinStreams {pin : String} (h : IsPin pin) (k : Nat) :
    (pinStreams k (some (.ok pin))).card * 1000000 = (shownStreams k).card := by
  have hfiber : ∀ q ∈ pins, (Rejection.fiber pinOfDraw (some q)).card = 4294 := by
    intro q hq
    obtain ⟨m, hm, rfl⟩ := exists_formatPin (mem_pins.1 hq)
    exact card_fiber hm
  rw [pinStreams_some, shownStreams_eq, ← card_pins]
  exact Rejection.card_streams_mul (fun n q hq => mem_pins.2 (isPin_pinOfDraw hq)) hfiber (mem_pins.2 h) k

/-- A text that is no PIN is never shown. -/
theorem card_pinStreams_le (k : Nat) (pin : String) :
    (pinStreams k (some (.ok pin))).card * 1000000 ≤ (shownStreams k).card := by
  by_cases hpin : IsPin pin
  · exact (card_pinStreams hpin k).le
  · have hempty : pinStreams k (some (.ok pin)) = ∅ := by
      refine filter_eq_empty_iff.2 fun draws _ hdraws => ?_
      exact hpin (isPin_genPin hdraws)
    rw [hempty, card_empty, Nat.zero_mul]
    exact Nat.zero_le _

/-- Every PIN that can be typed is shown on one in a million of the streams of `k` random numbers on which a PIN is
shown, and on all but `967296 ^ k` of the streams one is.  What is shown can be typed, with whitespace around it. -/
theorem gen_pin_uniform (k : Nat) {line : Except String String} {pin : String} (h : typedPin line = .ok pin) :
    (pinStreams k (some (.ok pin))).card * 1000000 = (shownStreams k).card ∧
      (pinStreams k none).card = 967296 ^ k ∧
      ∀ draws shown before after, genPin draws = some (.ok shown) → (∀ c ∈ before, isWhitespace c = true) →
        (∀ c ∈ after, isWhitespace c = true) →
        typedPin (.ok (String.ofList (before ++ shown.toList ++ after))) = .ok shown := by
  refine ⟨card_pinStreams (isPin_typedPin h) k, ?_, fun draws shown before after hshown hbefore hafter => ?_⟩
  · rw [pinStreams_none, Rejection.card_streams_none, card_fiber_none]
  · exact typedPin_iff.2 ⟨trimmed_pin hbefore hafter (isPin_genPin hshown), isPin_genPin hshown⟩

theorem gen_pin_uniform_typed :
    (pinStreams 3 (some (.ok "424242"))).card * 1000000 = (shownStreams 3).card ∧
      (pinStreams 3 none).card = 967296 ^ 3 := by
  have htyped : typedPin (.ok "424242\n") = .ok "424242" := by decide +kernel
  exact ⟨(gen_pin_uniform 3 htyped).1, (gen_pin_uniform 3 htyped).2.1⟩

end Qdrop
