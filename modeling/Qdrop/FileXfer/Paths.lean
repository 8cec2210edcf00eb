import Qdrop.FileXfer.Receive

/-!
# Temp paths and destinations stay inside the directory

A bare name joined to a directory names a direct child of it, and different bare names name different children.
The temp path determines directory, name and id (`tmpPathFor_inj`); it does not depend on the peer.  A destination
chosen by `uniqueDest` is a direct child of the final directory (`uniqueDest_child`), and it is free unless all
ten thousand candidates are taken (`uniqueDest_free`).
-/

namespace Qdrop

open Lib

/-- What `join` puts between the directory and a relative name. -/
private def joinSep (base : PathBuf) : List Char :=
  if base.toList = [] ∨ base.toList.getLast? = some '/' then [] else ['/']

/-- Joining a name that is not absolute appends it. -/
private theorem join_toList {base rel : PathBuf} (h : '/' ∉ rel.toList) :
    (join base rel).toList = base.toList ++ joinSep base ++ rel.toList := by
  have habs : rel.toList.head? ≠ some '/' := by
    intro hh
    exact h (List.mem_of_mem_head? (by rw [hh]; exact rfl))
  unfold join joinSep
  rw [if_neg habs]
  split <;> simp [String.toList_append]

/-- Different names without a slash name different children of a directory. -/
theorem join_inj {base a b : PathBuf} (ha : '/' ∉ a.toList) (hb : '/' ∉ b.toList)
    (h : join base a = join base b) : a = b := by
  have h' := congrArg String.toList h
  rw [join_toList ha, join_toList hb] at h'
  exact String.toList_inj.1 (List.append_cancel_left h')

/-- A child of a directory is not the directory. -/
theorem join_ne_self {base a : PathBuf} (ha : '/' ∉ a.toList) (ha' : a ≠ "") : join base a ≠ base := by
  intro h
  have h' := congrArg List.length (congrArg String.toList h)
  rw [join_toList ha, List.length_append, List.length_append] at h'
  have hlen : a.toList.length = 0 := by omega
  exact ha' (String.toList_inj.1 (by simpa using List.length_eq_zero_iff.1 hlen))

/-- A child of a directory is not a child of one of its subdirectories. -/
theorem join_ne_join_join {base sub a b : PathBuf} (hs : '/' ∉ sub.toList) (hs' : sub ≠ "")
    (ha : '/' ∉ a.toList) (hb : '/' ∉ b.toList) : join base a ≠ join (join base sub) b := by
  intro h
  have h' := congrArg String.toList h
  rw [join_toList ha, join_toList hb, join_toList hs, List.append_assoc, List.append_assoc,
    List.append_assoc, List.append_assoc] at h'
  have hrel := List.append_cancel_left (List.append_cancel_left h')
  have hsub : sub.toList ≠ [] := fun e => hs' (String.toList_inj.1 (by simpa using e))
  -- the subdirectory's name does not end in a slash, so a separator follows it
  have hsep : joinSep (join base sub) = ['/'] := by
    unfold joinSep
    rw [join_toList hs, if_neg]
    rintro (h0 | h0)
    · simp [hsub] at h0
    · rw [List.getLast?_append_of_ne_nil _ hsub] at h0
      exact hs (List.mem_of_getLast? h0)
  rw [hsep] at hrel
  exact ha (by rw [hrel]; simp)

/-- A child of a directory or of its `pending` subdirectory determines which of the two it is in, and its name. -/
theorem child_inj {D d d' : PathBuf} {a b : String} (hd : d = D ∨ d = join D "pending")
    (hd' : d' = D ∨ d' = join D "pending") (ha : '/' ∉ a.toList) (hb : '/' ∉ b.toList) (h : join d a = join d' b) :
    d = d' ∧ a = b := by
  rcases hd with rfl | rfl <;> rcases hd' with rfl | rfl
  · exact ⟨rfl, join_inj ha hb h⟩
  · exact absurd h (join_ne_join_join (by decide) (by decide) ha hb)
  · exact absurd h.symm (join_ne_join_join (by decide) (by decide) hb ha)
  · exact ⟨rfl, join_inj ha hb h⟩

/-- The only child of a directory or of its `pending` subdirectory that is one of the two is `pending`. -/
theorem child_eq_dir {D d d' : PathBuf} {a : String} (hd : d = D ∨ d = join D "pending")
    (hd' : d' = D ∨ d' = join D "pending") (ha : '/' ∉ a.toList) (ha' : a ≠ "") (h : join d a = d') :
    d ≠ d' ∧ a = "pending" := by
  have hne : d ≠ d' := by
    rintro rfl
    exact join_ne_self ha ha' h
  refine ⟨hne, ?_⟩
  rcases hd with rfl | rfl <;> rcases hd' with rfl | rfl
  · exact absurd rfl hne
  · exact join_inj ha (by decide) h
  · -- a path is shorter than what is below it
    have hlen := congrArg List.length (congrArg String.toList h)
    rw [join_toList ha, join_toList (by decide)] at hlen
    have hpos : "pending".toList.length = 7 := rfl
    simp only [List.length_append] at hlen
    omega
  · exact absurd rfl hne

/-! ### The temp path -/

/-- The part of a list after the last occurrence of `x` is determined. -/
theorem append_cons_inj {α : Type} {x : α} : ∀ {a a' b b' : List α}, x ∉ b → x ∉ b' →
    a ++ x :: b = a' ++ x :: b' → a = a' ∧ b = b'
  | [], [], _, _, _, _, h => by simpa using h
  | [], c :: a', b, b', hb, _, h => by
    simp only [List.nil_append, List.cons_append, List.cons.injEq] at h
    exact absurd (h.2 ▸ by simp : x ∈ b) hb
  | c :: a, [], b, b', _, hb', h => by
    simp only [List.nil_append, List.cons_append, List.cons.injEq] at h
    exact absurd (h.2.symm ▸ by simp : x ∈ b') hb'
  | c :: a, c' :: a', b, b', hb, hb', h => by
    simp only [List.cons_append, List.cons.injEq] at h
    obtain ⟨rfl, h⟩ := h
    obtain ⟨rfl, rfl⟩ := append_cons_inj hb hb' h
    exact ⟨rfl, rfl⟩

/-- A numeral has only digits. -/
theorem not_mem_toString {c : Char} (hc : c.isDigit = false) (n : Nat) : c ∉ (toString n).toList := by
  intro h
  rw [Nat.toString_eq_repr, Nat.toList_repr] at h
  rw [Nat.isDigit_of_mem_toDigits (by decide) (by decide) h] at hc
  cases hc

theorem toString_inj {n m : Nat} (h : (toString n).toList = (toString m).toList) : n = m := by
  rw [Nat.toString_eq_repr, Nat.toString_eq_repr, Nat.toList_repr, Nat.toList_repr] at h
  rw [← Nat.ofDigitChars_ten_toDigits (n := n), ← Nat.ofDigitChars_ten_toDigits (n := m), h]

private def tmpName (safe : String) (id : Nat) : String := "." ++ safe ++ "." ++ toString id ++ ".part"

private theorem tmpName_toList (safe : String) (id : Nat) :
    (tmpName safe id).toList = '.' :: (safe.toList ++ '.' :: (toString id).toList) ++ ".part".toList := by
  simp [tmpName, String.toList_append]

private theorem tmpName_no_slash {safe : String} (h : '/' ∉ safe.toList) (id : Nat) :
    '/' ∉ (tmpName safe id).toList := by
  rw [tmpName_toList]
  have hid := not_mem_toString (c := '/') (by decide) id
  simp only [List.cons_append, List.mem_cons, List.mem_append, not_or]
  exact ⟨by decide, ⟨h, by decide, hid⟩, by decide⟩

private theorem tmpName_inj {safe safe' : String} {id id' : Nat} (h : tmpName safe id = tmpName safe' id') :
    safe = safe' ∧ id = id' := by
  have h' := congrArg String.toList h
  rw [tmpName_toList, tmpName_toList] at h'
  have h2 := List.append_cancel_right h'
  simp only [List.cons.injEq, true_and] at h2
  obtain ⟨hs, hid⟩ := append_cons_inj (not_mem_toString (by decide) id) (not_mem_toString (by decide) id') h2
  exact ⟨String.toList_inj.1 hs, toString_inj hid⟩

/-- The directory of a peer's files is the download directory or its `pending` subdirectory. -/
theorem finalDirFor_cases (cfg : XferConfig) (registry : PeersFile) (peerId : DeviceId) :
    finalDirFor cfg registry peerId = cfg.downloadDir ∨
      finalDirFor cfg registry peerId = join cfg.downloadDir "pending" := by
  unfold finalDirFor
  split
  · exact Or.inr rfl
  · exact Or.inl rfl

/-- The temp path determines the directory, the name and the id of the transfer, but not the peer. -/
theorem tmpPathFor_inj {D d d' : PathBuf} {safe safe' : String} {id id' : Nat}
    (hd : d = D ∨ d = join D "pending") (hd' : d' = D ∨ d' = join D "pending")
    (hs : '/' ∉ safe.toList) (hs' : '/' ∉ safe'.toList)
    (h : tmpPathFor d safe id = tmpPathFor d' safe' id') : d = d' ∧ safe = safe' ∧ id = id' := by
  obtain ⟨rfl, hname⟩ := child_inj hd hd' (tmpName_no_slash hs id) (tmpName_no_slash hs' id') h
  exact ⟨rfl, tmpName_inj hname⟩

/-- A temp file starts with a dot, so it is no file of another name. -/
theorem tmpPathFor_ne_join {dir : PathBuf} {safe n : String} {id : Nat} (hs : '/' ∉ safe.toList)
    (hn : '/' ∉ n.toList) (hdot : n.toList.head? ≠ some '.') : tmpPathFor dir safe id ≠ join dir n := by
  intro h
  have hname : tmpName safe id = n := join_inj (tmpName_no_slash hs id) hn h
  rw [← hname, tmpName_toList] at hdot
  exact hdot rfl

private theorem tmpName_ne_empty (safe : String) (id : Nat) : tmpName safe id ≠ "" := by
  intro h
  have h' := congrArg String.toList h
  rw [tmpName_toList] at h'
  cases h'

theorem tmpPathFor_ne_self {dir : PathBuf} {safe : String} {id : Nat} (hs : '/' ∉ safe.toList) :
    tmpPathFor dir safe id ≠ dir :=
  join_ne_self (tmpName_no_slash hs id) (tmpName_ne_empty safe id)

/-- A temp file is a direct child of its directory. -/
theorem tmpPathFor_child (dir : PathBuf) {safe : String} (hs : '/' ∉ safe.toList) (id : Nat) :
    ∃ n, Bare n ∧ tmpPathFor dir safe id = join dir n := by
  have hlen : 5 < (tmpName safe id).toList.length := by
    rw [tmpName_toList, List.length_append, List.length_cons]
    have hpart : ".part".toList.length = 5 := rfl
    omega
  refine ⟨tmpName safe id, ⟨?_, ?_, ?_, tmpName_no_slash hs id⟩, rfl⟩
  all_goals
    intro h
    rw [h] at hlen
    exact absurd hlen (by decide)

/-- A temp file is neither the directory nor its `pending` subdirectory. -/
theorem tmpPathFor_ne_dir {D d d' : PathBuf} {safe : String} {id : Nat} (hd : d = D ∨ d = join D "pending")
    (hd' : d' = D ∨ d' = join D "pending") (hs : '/' ∉ safe.toList) : tmpPathFor d safe id ≠ d' := by
  intro h
  obtain ⟨-, hname⟩ := child_eq_dir hd hd' (tmpName_no_slash hs id) (tmpName_ne_empty safe id) h
  have hhead := congrArg (fun s => s.toList.head?) hname
  rw [tmpName_toList] at hhead
  cases hhead

/-- A temp file is no file of another name in either directory. -/
theorem tmpPathFor_ne_child {D d d' : PathBuf} {safe n : String} {id : Nat} (hd : d = D ∨ d = join D "pending")
    (hd' : d' = D ∨ d' = join D "pending") (hs : '/' ∉ safe.toList) (hn : '/' ∉ n.toList)
    (hdot : n.toList.head? ≠ some '.') : tmpPathFor d safe id ≠ join d' n := by
  intro h
  obtain ⟨rfl, -⟩ := child_inj hd hd' (tmpName_no_slash hs id) hn h
  exact tmpPathFor_ne_join hs hn hdot h

/-! ### The destination -/

private theorem rsplitDot_eq {s a b : List Char} (h : rsplitDot s = some (a, b)) : s = a ++ '.' :: b := by
  unfold rsplitDot at h
  have hsplit := List.takeWhile_append_dropWhile (p := fun x => decide (x ≠ '.')) (l := s.reverse)
  have hhead := List.head?_dropWhile_not (fun x => decide (x ≠ '.')) s.reverse
  split at h
  · cases h
  · rename_i c stem heq
    simp only [Option.some.injEq, Prod.mk.injEq] at h
    obtain ⟨rfl, rfl⟩ := h
    rw [heq] at hsplit hhead
    have hc : c = '.' := by simpa using hhead
    subst hc
    have := congrArg List.reverse hsplit
    simpa using this.symm

/-- A numbered variant of a bare name is a bare name. -/
private theorem numbered_bare {name : String} (h : Bare name) (i : Nat) : Bare (numbered name i) := by
  obtain ⟨_, _, _, hslash⟩ := h
  have hi := not_mem_toString (c := '/') (by decide) i
  have hparen : '(' ∈ (numbered name i).toList ∧ '/' ∉ (numbered name i).toList := by
    unfold numbered
    split
    · rename_i stem ext hsp
      have hname := rsplitDot_eq hsp
      rw [hname] at hslash
      simp only [List.mem_append, List.mem_cons, not_or] at hslash
      simp only [String.toList_append, String.toList_ofList, List.mem_append, not_or]
      exact ⟨by simp, ⟨⟨⟨hslash.1, by decide⟩, hi⟩, by decide⟩, by decide, hslash.2.2⟩
    · simp only [String.toList_append, List.mem_append, not_or]
      exact ⟨by simp, ⟨⟨hslash, by decide⟩, hi⟩, by decide⟩
  refine ⟨?_, ?_, ?_, hparen.2⟩ <;> intro he <;> rw [he] at hparen <;> exact absurd hparen.1 (by decide)

/-- The candidates of `unique_dest`, in the order it tries them. -/
def destNames (name : String) : List String := name :: (List.range' 1 9999).map (numbered name)

/-- Every candidate is a bare name. -/
theorem destNames_bare {name n : String} (h : Bare name) (hn : n ∈ destNames name) : Bare n := by
  rcases List.mem_cons.1 hn with rfl | hn
  · exact h
  · obtain ⟨i, -, rfl⟩ := List.mem_map.1 hn
    exact numbered_bare h i

/-- The destination is one of the candidates. -/
theorem uniqueDest_mem (fs : FileSys PathBuf) (dir : PathBuf) (name : String) :
    ∃ n ∈ destNames name, uniqueDest fs dir name = join dir n := by
  unfold uniqueDest
  split
  · exact ⟨name, List.mem_cons_self .., rfl⟩
  · split
    · rename_i i hi
      refine ⟨numbered name i, List.mem_cons_of_mem _ ?_, rfl⟩
      exact List.mem_map.2 ⟨i, List.mem_of_find?_eq_some hi, rfl⟩
    · exact ⟨name, List.mem_cons_self .., rfl⟩

/-- The destination is a direct child of the directory. -/
theorem uniqueDest_child (fs : FileSys PathBuf) (dir : PathBuf) {name : String} (h : Bare name) :
    ∃ n, Bare n ∧ uniqueDest fs dir name = join dir n := by
  obtain ⟨n, hn, heq⟩ := uniqueDest_mem fs dir name
  exact ⟨n, destNames_bare h hn, heq⟩

/-- The destination is free, or every candidate is taken and it is the first one. -/
theorem uniqueDest_free (fs : FileSys PathBuf) (dir : PathBuf) (name : String) :
    fs.node (uniqueDest fs dir name) = none ∨
      (uniqueDest fs dir name = join dir name ∧ ∀ n ∈ destNames name, fs.present (join dir n) = true) := by
  unfold uniqueDest
  split
  · rename_i h
    exact Or.inl (FileSys.present_eq_false.1 h)
  · rename_i h
    split
    · rename_i i hi
      have := List.find?_some hi
      exact Or.inl (FileSys.present_eq_false.1 (by simpa using this))
    · rename_i hnone
      refine Or.inr ⟨rfl, ?_⟩
      intro n hn
      rcases List.mem_cons.1 hn with rfl | hn
      · simpa using h
      · obtain ⟨i, hi, rfl⟩ := List.mem_map.1 hn
        have := List.find?_eq_none.1 hnone i hi
        simpa using this

/-- When every candidate is taken the destination is the first one. -/
theorem uniqueDest_taken {fs : FileSys PathBuf} {dir : PathBuf} {name : String}
    (h : ∀ n ∈ destNames name, fs.present (join dir n) = true) : uniqueDest fs dir name = join dir name := by
  rcases uniqueDest_free fs dir name with hfree | ⟨hfirst, -⟩
  · obtain ⟨n, hn, heq⟩ := uniqueDest_mem fs dir name
    have hpresent := h n hn
    rw [heq] at hfree
    rw [FileSys.present_eq_false.2 hfree] at hpresent
    cases hpresent
  · exact hfirst

end Qdrop
