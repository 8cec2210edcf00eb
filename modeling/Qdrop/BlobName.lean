import Qdrop.Proto

/-!
# Which names `safe_blob_name` accepts (`qdrop-core/src/proto.rs`)

The names are checked through `Path::components`, which leaves out empty pieces and single dots between slashes.  So
`report.pdf/` and `report.pdf/./` are one component like `report.pdf`, and pass; `accepts_plain_names_iff` says that
such names are all that is accepted beyond plain file names.
-/

namespace Qdrop

/-- `str::trim`, as a string. -/
def trimmed (name : String) : String := String.ofList (trim name.toList)

/-- A bare file name without a backslash. -/
def PlainName (s : String) : Prop := Bare s ∧ '\\' ∉ s.toList

instance (s : String) : Decidable (PlainName s) := inferInstanceAs (Decidable (Bare s ∧ _))

/-- Nothing but slashes, and single dots between them. -/
def OnlyDots (tail : List Char) : Prop := ∀ piece ∈ slashPieces tail, piece = [] ∨ piece = ['.']

/-- Without the whitespace around it the name is a plain file name, then a slash and only slashes and single dots. -/
def EndsInSlash (name : String) : Prop :=
  ∃ file tail, trim name.toList = file ++ '/' :: tail ∧ PlainName (String.ofList file) ∧ OnlyDots tail

/-! ### Trimming -/

/-- Only whitespace is trimmed. -/
theorem trim_decompose (s : List Char) :
    ∃ before after, s = before ++ trim s ++ after ∧ (∀ c ∈ before, isWhitespace c = true) ∧
      ∀ c ∈ after, isWhitespace c = true := by
  refine ⟨s.takeWhile isWhitespace, (s.dropWhile isWhitespace).rtakeWhile isWhitespace, ?_,
    fun c hc => List.mem_takeWhile_imp hc, fun c hc => List.mem_rtakeWhile_imp hc⟩
  rw [trim, List.append_assoc, List.rdropWhile_append_rtakeWhile, List.takeWhile_append_dropWhile]

theorem mem_trim {s : List Char} {c : Char} (hc : c ∈ s) (hw : isWhitespace c = false) : c ∈ trim s := by
  obtain ⟨before, after, hs, hbefore, hafter⟩ := trim_decompose s
  rw [hs, List.mem_append, List.mem_append] at hc
  rcases hc with (hc | hc) | hc
  · simp [hbefore c hc] at hw
  · exact hc
  · simp [hafter c hc] at hw

theorem trim_trim (s : List Char) : trim (trim s) = trim s := by
  refine trim_eq_self fun c hc => ?_
  rcases hc with hc | hc
  · -- the first character is that of the text without the whitespace before it
    obtain ⟨rest, hrest⟩ := List.rdropWhile_prefix isWhitespace (l := s.dropWhile isWhitespace)
    have hhead : (s.dropWhile isWhitespace).head? = some c := by
      rw [← hrest, List.head?_append, show (s.dropWhile isWhitespace).rdropWhile isWhitespace = trim s from rfl, hc]
      rfl
    have hnot := List.head?_dropWhile_not isWhitespace s
    rw [hhead] at hnot
    simpa using hnot
  · have hne : trim s ≠ [] := by
      rintro hnil
      rw [hnil] at hc
      cases hc
    have hlast : ¬ isWhitespace ((trim s).getLast hne) = true :=
      List.rdropWhile_last_not isWhitespace (s.dropWhile isWhitespace) hne
    rw [List.getLast?_eq_getLast_of_ne_nil hne] at hc
    cases hc
    simpa using hlast

theorem trimmed_trimmed (name : String) : trimmed (trimmed name) = trimmed name := by
  rw [trimmed, trimmed, String.toList_ofList, trim_trim]

/-! ### Pieces between slashes -/

theorem slashPieces_ne_nil (s : List Char) : slashPieces s ≠ [] := by
  cases s with
  | nil => simp [slashPieces]
  | cons c s =>
    unfold slashPieces
    split
    · simp
    · split <;> simp

theorem slashPieces_append {file : List Char} (h : '/' ∉ file) (tail : List Char) :
    slashPieces (file ++ '/' :: tail) = file :: slashPieces tail := by
  induction file with
  | nil => simp [slashPieces]
  | cons c file ih =>
    rw [List.mem_cons, not_or] at h
    rw [List.cons_append, slashPieces, if_neg (Ne.symm h.1), ih h.2]

theorem slashPieces_of_notMem {s : List Char} (h : '/' ∉ s) : slashPieces s = [s] := by
  induction s with
  | nil => rfl
  | cons c s ih =>
    rw [List.mem_cons, not_or] at h
    rw [slashPieces, if_neg (Ne.symm h.1), ih h.2]

/-- A text has no slash, or it is cut at its first one. -/
theorem slash_cases (s : List Char) : '/' ∉ s ∨ ∃ file tail, s = file ++ '/' :: tail ∧ '/' ∉ file := by
  induction s with
  | nil => exact Or.inl List.not_mem_nil
  | cons c s ih =>
    by_cases hc : c = '/'
    · exact Or.inr ⟨[], s, by rw [hc]; rfl, List.not_mem_nil⟩
    · rcases ih with h | ⟨file, tail, rfl, h⟩
      · exact Or.inl fun hmem => (List.mem_cons.1 hmem).elim (fun e => hc e.symm) h
      · exact Or.inr ⟨c :: file, tail, rfl, fun hmem => (List.mem_cons.1 hmem).elim (fun e => hc e.symm) h⟩

theorem parseComponent_eq_none {piece : List Char} : parseComponent piece = none ↔ piece = [] ∨ piece = ['.'] := by
  unfold parseComponent
  split
  · simp [*]
  · split <;> simp [*]

theorem onlyDots_iff {tail : List Char} : OnlyDots tail ↔ (slashPieces tail).filterMap parseComponent = [] := by
  rw [List.filterMap_eq_nil_iff]
  exact forall₂_congr fun _ _ => parseComponent_eq_none.symm

/-! ### The check -/

/-- `PlainName` of a list of characters. -/
private theorem plainName_ofList {s : List Char} :
    PlainName (String.ofList s) ↔ (s ≠ [] ∧ s ≠ ['.'] ∧ s ≠ ['.', '.']) ∧ '/' ∉ s ∧ '\\' ∉ s := by
  have hne (t : String) : String.ofList s ≠ t ↔ s ≠ t.toList :=
    not_congr ⟨fun h => by rw [← h, String.toList_ofList], fun h => by rw [h, String.ofList_toList]⟩
  rw [PlainName, Bare, hne, hne, hne, String.toList_ofList]
  simp [and_assoc]

/-- The components of a name that begins with a piece of its own. -/
private theorem components_cons {s piece : List Char} {rest : List (List Char)} (hs : slashPieces s = piece :: rest)
    (hpiece : piece ≠ [] ∧ piece ≠ ['.'] ∧ piece ≠ ['.', '.']) :
    components s = .normal piece :: rest.filterMap parseComponent := by
  have hnormal : parseComponent piece = some (.normal piece) := by
    rw [parseComponent, if_neg (by simp [hpiece]), if_neg hpiece.2.2]
  unfold components
  rw [hs]
  split
  · rename_i heq
    exact absurd (List.cons.inj heq).1 hpiece.1
  · rename_i heq
    exact absurd (List.cons.inj heq).1 hpiece.2.1
  · rw [List.filterMap_cons_some hnormal]

/-- No single normal component comes from a name that begins with a slash or a dot name. -/
private theorem components_ne {file : List Char} (tail : List Char) (hslash : '/' ∉ file)
    (h : file = [] ∨ file = ['.'] ∨ file = ['.', '.']) (s : List Char) :
    components (file ++ '/' :: tail) ≠ [.normal s] := by
  unfold components
  rw [slashPieces_append hslash]
  rcases h with rfl | rfl | rfl
  · obtain ⟨piece, rest, hrest⟩ := List.exists_cons_of_ne_nil (slashPieces_ne_nil tail)
    simp [hrest]
  · simp
  · rw [List.filterMap_cons_some (show parseComponent ['.', '.'] = some .parentDir from rfl)]
    simp

/-- The check of a component. -/
private theorem component_check {piece s : List Char} (hpiece : piece ≠ [] ∧ piece ≠ ['.'] ∧ piece ≠ ['.', '.'])
    (hslash : '/' ∉ piece) :
    (if piece = ['.', '.'] ∨ '/' ∈ piece ∨ '\\' ∈ piece then none else some piece) = some s ↔
      PlainName (String.ofList s) ∧ piece = s := by
  rw [plainName_ofList]
  simp only [hpiece.2.2, hslash, false_or]
  by_cases hback : '\\' ∈ piece
  · rw [if_pos hback]
    refine iff_of_false (by simp) ?_
    rintro ⟨⟨-, -, hs⟩, rfl⟩
    exact hs hback
  · rw [if_neg hback, Option.some.injEq]
    refine ⟨?_, And.right⟩
    rintro rfl
    exact ⟨⟨hpiece, hslash, hback⟩, rfl⟩

private theorem not_plain_of_dots {s : List Char} (h : s = [] ∨ s = ['.'] ∨ s = ['.', '.']) :
    ¬ PlainName (String.ofList s) := by
  rw [plainName_ofList]
  rintro ⟨⟨h₁, h₂, h₃⟩, -⟩
  exact h.elim h₁ (Or.elim · h₂ h₃)

/-- A trimmed name without a slash is its only component. -/
private theorem safeTrimmed_bare {t : List Char} (hslash : '/' ∉ t) (s : List Char) :
    safeTrimmed t = some s ↔ PlainName (String.ofList s) ∧ t = s := by
  unfold safeTrimmed
  by_cases hdots : t = [] ∨ t = ['.'] ∨ t = ['.', '.']
  · rw [if_pos hdots]
    refine iff_of_false (by simp) ?_
    rintro ⟨hplain, rfl⟩
    exact not_plain_of_dots hdots hplain
  · have ht : t ≠ [] ∧ t ≠ ['.'] ∧ t ≠ ['.', '.'] := by simpa using hdots
    rw [if_neg hdots, components_cons (slashPieces_of_notMem hslash) ht]
    exact component_check ht hslash

/-- Of a trimmed name with a slash, nothing but dots may follow the slash. -/
private theorem safeTrimmed_slash {file : List Char} (hslash : '/' ∉ file) (tail s : List Char) :
    safeTrimmed (file ++ '/' :: tail) = some s ↔ PlainName (String.ofList s) ∧ file = s ∧ OnlyDots tail := by
  have hlong : ¬ (file ++ '/' :: tail = [] ∨ file ++ '/' :: tail = ['.'] ∨ file ++ '/' :: tail = ['.', '.']) := by
    have hmem : '/' ∈ file ++ '/' :: tail := List.mem_append_right _ List.mem_cons_self
    rintro (h | h | h) <;> rw [h] at hmem <;> exact absurd hmem (by decide)
  unfold safeTrimmed
  rw [if_neg hlong]
  by_cases hfile : file = [] ∨ file = ['.'] ∨ file = ['.', '.']
  · refine iff_of_false ?_ ?_
    · split
      · rename_i s' hs'
        exact absurd hs' (components_ne tail hslash hfile s')
      · simp
    · rintro ⟨hplain, rfl, -⟩
      exact not_plain_of_dots hfile hplain
  · have hf : file ≠ [] ∧ file ≠ ['.'] ∧ file ≠ ['.', '.'] := by simpa using hfile
    rw [components_cons (slashPieces_append hslash tail) hf, onlyDots_iff]
    cases hrest : (slashPieces tail).filterMap parseComponent with
    | cons c cs => simp
    | nil =>
      rw [and_iff_left rfl]
      exact component_check hf hslash

/-- A trimmed name is accepted if it is plain, or plain up to its first slash and only dots from there on. -/
theorem safeTrimmed_eq_some {t s : List Char} :
    safeTrimmed t = some s ↔
      PlainName (String.ofList s) ∧ (t = s ∨ ∃ tail, t = s ++ '/' :: tail ∧ OnlyDots tail) := by
  rcases slash_cases t with hslash | ⟨file, tail, rfl, hslash⟩
  · have hno : ¬ ∃ tail, t = s ++ '/' :: tail ∧ OnlyDots tail := by
      rintro ⟨tail, rfl, -⟩
      exact hslash (List.mem_append_right _ List.mem_cons_self)
    rw [or_iff_left hno, safeTrimmed_bare hslash]
  · rw [safeTrimmed_slash hslash]
    refine and_congr_right fun hs => ?_
    obtain ⟨-, hs, -⟩ := plainName_ofList.1 hs
    constructor
    · rintro ⟨rfl, hdots⟩
      exact Or.inr ⟨tail, rfl, hdots⟩
    · rintro (rfl | ⟨tail', heq, hdots⟩)
      · exact absurd (List.mem_append_right _ List.mem_cons_self) hs
      · -- both texts are cut at their first slash
        have hpieces := congrArg slashPieces heq
        rw [slashPieces_append hslash, slashPieces_append hs, List.cons.injEq] at hpieces
        refine ⟨hpieces.1, ?_⟩
        rw [OnlyDots, hpieces.2]
        exact hdots

theorem safeBlobName_eq_some {name s : String} :
    safeBlobName name = some s ↔ PlainName s ∧
      (trimmed name = s ∨ ∃ tail, trim name.toList = s.toList ++ '/' :: tail ∧ OnlyDots tail) := by
  rw [safeBlobName, Option.map_eq_some_iff, trimmed]
  constructor
  · rintro ⟨l, hl, rfl⟩
    obtain ⟨hplain, rfl | htail⟩ := safeTrimmed_eq_some.1 hl
    · exact ⟨hplain, Or.inl rfl⟩
    · exact ⟨hplain, Or.inr (by rwa [String.toList_ofList])⟩
  · rintro ⟨hplain, hs⟩
    refine ⟨s.toList, safeTrimmed_eq_some.2 ⟨by rwa [String.ofList_toList], ?_⟩, String.ofList_toList⟩
    exact hs.imp_left fun h => by rw [← h, String.toList_ofList]

/-- Exactly the plain file names are accepted, as they are without the whitespace around them, and an accepted name is
accepted again, if and only if the name is not a plain file name with slashes after it. -/
theorem accepts_plain_names_iff (name : String) :
    ((∀ s, safeBlobName name = some s ↔ s = trimmed name ∧ PlainName s) ∧
        ('/' ∈ name.toList ∨ '\\' ∈ name.toList → safeBlobName name = none) ∧
        ∀ s, safeBlobName name = some s → safeBlobName s = some s) ↔
      ¬ EndsInSlash name := by
  constructor
  · rintro ⟨hexact, -, -⟩ ⟨file, tail, htrim, hplain, hdots⟩
    have hsome : safeBlobName name = some (String.ofList file) :=
      safeBlobName_eq_some.2 ⟨hplain, Or.inr ⟨tail, by rwa [String.toList_ofList], hdots⟩⟩
    have hfile := ((hexact _).1 hsome).1
    rw [trimmed, htrim] at hfile
    have hlength := congrArg List.length (String.ofList_injective hfile)
    simp at hlength
  · intro hends
    have hexact (s : String) : safeBlobName name = some s ↔ s = trimmed name ∧ PlainName s := by
      rw [safeBlobName_eq_some, and_comm, eq_comm]
      refine and_congr_left fun hplain => or_iff_left ?_
      rintro ⟨tail, htrim, hdots⟩
      exact hends ⟨s.toList, tail, htrim, by rwa [String.ofList_toList], hdots⟩
    refine ⟨hexact, fun hsep => ?_, fun s hs => ?_⟩
    · by_contra hsome
      obtain ⟨s, hs⟩ := Option.ne_none_iff_exists'.1 hsome
      obtain ⟨rfl, ⟨-, -, -, hslash⟩, hback⟩ := (hexact s).1 hs
      rw [trimmed, String.toList_ofList] at hslash hback
      rcases hsep with hmem | hmem
      · exact hslash (mem_trim hmem (by decide))
      · exact hback (mem_trim hmem (by decide))
    · obtain ⟨rfl, hplain⟩ := (hexact s).1 hs
      exact safeBlobName_eq_some.2 ⟨hplain, Or.inl (trimmed_trimmed name)⟩

/-- A name with a slash at its end is accepted, and what is left of it may have to be trimmed again. -/
theorem slash_at_end_accepted :
    safeBlobName "report.pdf/" = some "report.pdf" ∧ safeBlobName "a /" = some "a " ∧
      safeBlobName "a " = some "a" ∧
      ¬ ∀ name s, safeBlobName name = some s ↔ s = trimmed name ∧ PlainName s := by
  have haccepted : safeBlobName "report.pdf/" = some "report.pdf" := by decide
  refine ⟨haccepted, by decide, by decide, fun h => ?_⟩
  have htrimmed := ((h "report.pdf/" "report.pdf").1 haccepted).1
  exact absurd htrimmed (by decide)

end Qdrop
