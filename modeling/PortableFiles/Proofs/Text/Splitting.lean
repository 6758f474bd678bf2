import PortableFiles.Text.Split
set_option autoImplicit false

/-!
# Splitting what is put together

Cutting at an element commutes with putting lists together around it, so pieces that do not hold a
separator are what cutting gives back (`Text.splitOn_joinWith`).  The first piece ends where the
list does or where the first separator stands (`Text.splitOn_eq_cons_iff`).  Lines that were written
one after the other are the lines of the text (`Text.lines_flatMap`).
-/

namespace PortableFiles.Text

variable {α : Type} {sep : α → Bool}

/-- A piece that holds no element at which lists are cut is one piece. -/
theorem splitOn_of_forall_not {l : List α} (h : ∀ a ∈ l, sep a = false) : splitOn sep l = [l] := by
  induction l with
  | nil => rfl
  | cons a rest ih =>
    have ha : sep a = false := h a List.mem_cons_self
    rw [splitOn, ih fun b hb => h b (List.mem_cons_of_mem a hb)]
    simp [ha]

theorem splitOn_cons_of_pos {a : α} (h : sep a = true) (l : List α) :
    splitOn sep (a :: l) = [] :: splitOn sep l := by
  rw [splitOn, if_pos h]

/-- Both sides of an element at which lists are cut are split on their own. -/
theorem splitOn_append {a : α} (h : sep a = true) (l r : List α) :
    splitOn sep (l ++ a :: r) = splitOn sep l ++ splitOn sep r := by
  induction l with
  | nil => rw [List.nil_append, splitOn_cons_of_pos h]; rfl
  | cons b rest ih =>
    rw [List.cons_append, splitOn, splitOn, ih]
    by_cases hb : sep b = true
    · simp [hb]
    · cases hs : splitOn sep rest with
      | nil => exact absurd hs (splitOn_ne_nil _ _)
      | cons piece pieces => simp [hb]

/-- A list is its first piece, or its first piece, a separator and the rest, which is cut on its
own. -/
theorem splitOn_eq_cons_iff {l piece : List α} {pieces : List (List α)} :
    splitOn sep l = piece :: pieces ↔
      (∀ a ∈ piece, sep a = false)
        ∧ (l = piece ∧ pieces = []
          ∨ ∃ a rest, sep a = true ∧ l = piece ++ a :: rest ∧ splitOn sep rest = pieces) := by
  constructor
  · -- The list is cut at the first separator in it, if there is one.
    intro h
    cases hfind : l.find? sep with
    | none =>
      have hfree : ∀ a ∈ l, sep a = false := by simpa using List.find?_eq_none.1 hfind
      rw [splitOn_of_forall_not hfree] at h
      cases h
      exact ⟨hfree, .inl ⟨rfl, rfl⟩⟩
    | some a =>
      obtain ⟨ha, front, rest, rfl, hfront⟩ := List.find?_eq_some_iff_append.1 hfind
      have hfree : ∀ b ∈ front, sep b = false := by simpa using hfront
      rw [splitOn_append ha, splitOn_of_forall_not hfree] at h
      cases h
      exact ⟨hfree, .inr ⟨a, rest, ha, rfl, rfl⟩⟩
  · rintro ⟨hfree, ⟨rfl, rfl⟩ | ⟨a, rest, ha, rfl, rfl⟩⟩
    · exact splitOn_of_forall_not hfree
    · rw [splitOn_append ha, splitOn_of_forall_not hfree, List.singleton_append]

theorem joinWith_cons_cons (a : α) (piece next : List α) (rest : List (List α)) :
    joinWith a (piece :: next :: rest) = piece ++ a :: joinWith a (next :: rest) := rfl

/-- What is put together holds the elements of the pieces and what stands between them. -/
theorem eq_or_mem_of_mem_joinWith {a b : α} {pieces : List (List α)} (h : b ∈ joinWith a pieces) :
    b = a ∨ ∃ piece ∈ pieces, b ∈ piece := by
  induction pieces with
  | nil => cases h
  | cons piece rest ih =>
    cases rest with
    | nil => exact .inr ⟨piece, List.mem_cons_self, h⟩
    | cons next rest =>
      rw [joinWith_cons_cons, List.mem_append, List.mem_cons] at h
      obtain hpiece | rfl | hrest := h
      · exact .inr ⟨piece, List.mem_cons_self, hpiece⟩
      · exact .inl rfl
      · obtain hb | ⟨found, hfound, hb⟩ := ih hrest
        · exact .inl hb
        · exact .inr ⟨found, List.mem_cons_of_mem piece hfound, hb⟩

/-- Pieces that are put together around an element that none of them holds are cut apart again. -/
theorem splitOn_joinWith [DecidableEq α] {a : α} {pieces : List (List α)} (hsome : pieces ≠ [])
    (h : ∀ piece ∈ pieces, a ∉ piece) : splitOn (· = a) (joinWith a pieces) = pieces := by
  induction pieces with
  | nil => exact absurd rfl hsome
  | cons piece rest ih =>
    have hpiece : splitOn (· = a) piece = [piece] := by
      apply splitOn_of_forall_not
      intro b hb
      apply decide_eq_false
      rintro rfl
      exact h piece List.mem_cons_self hb
    cases rest with
    | nil => exact hpiece
    | cons next rest =>
      have hrest := ih (by simp) fun p hp => h p (List.mem_cons_of_mem piece hp)
      rw [joinWith, splitOn_append (by simp), hpiece, hrest]
      · rfl
      · simp

/-- What is not empty among such pieces is what is not empty after cutting. -/
theorem filter_splitOn_joinWith [DecidableEq α] {a : α} {pieces : List (List α)}
    (h : ∀ piece ∈ pieces, a ∉ piece) :
    (splitOn (· = a) (joinWith a pieces)).filter (· ≠ []) = pieces.filter (· ≠ []) := by
  cases pieces with
  | nil => rfl
  | cons piece rest => rw [splitOn_joinWith (List.cons_ne_nil _ _) h]

/-! ## Lines -/

/-- What comes before the first line feed is the first line. -/
theorem lines_append {line : List Char} (h : '\n' ∉ line) (rest : List Char) :
    lines (line ++ '\n' :: rest) = withoutReturn line :: lines rest := by
  have hline : splitOn (· = '\n') line = [line] := by
    apply splitOn_of_forall_not
    intro c hc
    apply decide_eq_false
    rintro rfl
    exact h hc
  have hsplit : splitOn (· = '\n') (line ++ '\n' :: rest)
      = line :: splitOn (· = '\n') rest := by
    rw [splitOn_append (by decide), hline, List.singleton_append]
  obtain ⟨piece, pieces, hpieces⟩ := List.exists_cons_of_ne_nil (splitOn_ne_nil (· = '\n') rest)
  rw [lines, hsplit, lines, hpieces]
  rfl

/-- Lines that each end with a line feed come before the lines of the text after them. -/
theorem lines_flatMap {written : List (List Char)} (h : ∀ line ∈ written, '\n' ∉ line)
    (rest : List Char) :
    lines (written.flatMap (· ++ ['\n']) ++ rest) = written.map withoutReturn ++ lines rest := by
  induction written with
  | nil => rfl
  | cons line written ih =>
    obtain ⟨hline, hwritten⟩ := List.forall_mem_cons.1 h
    rw [List.flatMap_cons, List.append_assoc, List.append_assoc, List.singleton_append,
      lines_append hline, ih hwritten]
    rfl

/-- Without a carriage return a line begins with no more than it did. -/
theorem withoutReturn_begins (line : List Char) : withoutReturn line <+: line := by
  unfold withoutReturn
  split
  · exact List.dropLast_prefix line
  · exact List.prefix_refl line

end PortableFiles.Text
