set_option autoImplicit false

/-!
# Splitting and joining at a separator

`splitOn` cuts a list at every element that a predicate selects, and always gives at least one
piece; `joinWith` puts pieces back together around a separator.  `joinWith_splitOn` says that
cutting at one separator loses nothing.  `lines` cuts a text into its lines.
-/

namespace PortableFiles.Text

variable {α : Type}

/-- The pieces of a list between the elements that `sep` selects, empty pieces included. -/
def splitOn (sep : α → Bool) : List α → List (List α)
  | [] => [[]]
  | a :: rest =>
    if sep a then [] :: splitOn sep rest
    else
      match splitOn sep rest with
      | [] => [[a]]
      | piece :: pieces => (a :: piece) :: pieces

/-- The pieces with `a` between each two of them. -/
def joinWith (a : α) : List (List α) → List α
  | [] => []
  | [piece] => piece
  | piece :: pieces => piece ++ a :: joinWith a pieces

theorem splitOn_ne_nil (sep : α → Bool) (l : List α) : splitOn sep l ≠ [] := by
  cases l with
  | nil => simp [splitOn]
  | cons a rest =>
    unfold splitOn
    split
    · simp
    · split <;> simp

theorem joinWith_splitOn [DecidableEq α] (a : α) (l : List α) :
    joinWith a (splitOn (· = a) l) = l := by
  induction l with
  | nil => rfl
  | cons b rest ih =>
    unfold splitOn
    by_cases h : b = a
    · subst h
      cases hs : splitOn (fun x => decide (x = b)) rest with
      | nil => exact absurd hs (splitOn_ne_nil _ _)
      | cons piece pieces => simp [hs, joinWith] at ih ⊢; exact ih
    · cases hs : splitOn (fun x => decide (x = a)) rest with
      | nil => exact absurd hs (splitOn_ne_nil _ _)
      | cons piece pieces =>
        rw [hs] at ih
        simp only [h, decide_false, Bool.false_eq_true, ↓reduceIte]
        cases pieces with
        | nil => simpa [joinWith] using ih
        | cons p ps => simpa [joinWith] using ih

/-- A piece holds no element at which the list is cut. -/
theorem not_sep_of_mem_splitOn (sep : α → Bool) (l : List α) :
    ∀ piece ∈ splitOn sep l, ∀ a ∈ piece, sep a = false := by
  induction l with
  | nil => simp [splitOn]
  | cons b rest ih =>
    unfold splitOn
    by_cases h : sep b = true
    · simpa [h] using ih
    · cases hs : splitOn sep rest with
      | nil => exact absurd hs (splitOn_ne_nil _ _)
      | cons piece pieces =>
        rw [hs] at ih
        have hb : sep b = false := by simpa using h
        simp only [hb, Bool.false_eq_true, ↓reduceIte]
        intro q hq a ha
        rcases List.mem_cons.1 hq with rfl | hq
        · rcases List.mem_cons.1 ha with rfl | ha
          · exact hb
          · exact ih piece (by simp) a ha
        · exact ih q (by simp [hq]) a ha

/-- A line without a carriage return at its end. -/
def withoutReturn (line : List Char) : List Char :=
  if line.getLast? = some '\r' then line.dropLast else line

/-- The lines of a text.  A line feed ends a line, with a carriage return before it or without, and
nothing after the last line feed is no line. -/
def lines (s : List Char) : List (List Char) :=
  let pieces := splitOn (· = '\n') s
  pieces.dropLast.map withoutReturn ++ (pieces.getLast?.filter (· ≠ [])).toList

end PortableFiles.Text
