import PortableFiles.Path.Basic
set_option autoImplicit false

/-!
# The last element of a path

Bytes that are not all separators end in a name, with separators after it (`Path.Style.Ends`).  The
search from the end finds the positions of this name and no others
(`Path.Style.lastSpan?_eq_some_iff`), so that the slice between them can be taken, and it is the
last element of the path (`Path.slice?_of_lastSpan?`).  All of this holds in every style of writing
paths.
-/

namespace PortableFiles.Path

variable {style : Style} {path : Path} {bytes front name back : Bytes} {start stop : Nat}

namespace Style

/-- Whether some bytes end in a name with separators after it.  Before the name there is nothing or
a separator. -/
structure Ends (style : Style) (bytes front name back : Bytes) : Prop where
  bytes_eq : bytes = front ++ (name ++ back)
  before : front = [] ∨ ∃ dir b, style.separates b = true ∧ front = dir ++ [b]
  ne_nil : name ≠ []
  apart : ∀ b ∈ name, style.separates b = false
  after : ∀ b ∈ back, style.separates b = true

/-- What stands in front of a path is what it has of a drive. -/
theorem exists_eq_append_afterDrive (style : Style) (bytes : Bytes) :
    ∃ drive, bytes = drive ++ style.afterDrive bytes
      ∧ (drive = [] ∨ ∃ letter, ExtendedPath.isLetter letter = true
          ∧ drive = [letter, ExtendedPath.colon]) := by
  fun_cases style.afterDrive bytes with
  | case1 letter b rest h =>
    obtain ⟨hletter, hcolon⟩ := Bool.and_eq_true_iff.1 h
    exact ⟨[letter, b], rfl, .inr ⟨letter, hletter, by rw [of_decide_eq_true hcolon]⟩⟩
  | case2 letter b rest h => exact ⟨[], rfl, .inl rfl⟩
  | case3 => exact ⟨[], rfl, .inl rfl⟩

/-! ## The positions of the last name -/

/-- The last separator before a name is found right before it. -/
theorem Ends.lastIndex?_eq (h : style.Ends bytes front name back) {init : Bytes}
    (hinit : ∀ b ∈ init, style.separates b = false) :
    ((lastIndex? style.separates (front ++ init)).map (· + 1)).getD 0 = front.length := by
  rcases h.before with rfl | ⟨dir, b, hb, rfl⟩
  · rw [List.nil_append, lastIndex?_eq_none_iff.2 hinit]
    rfl
  · have hsome : lastIndex? style.separates (dir ++ [b] ++ init) = some dir.length :=
      lastIndex?_eq_some_iff.2 ⟨dir, b, init, by simp, rfl, hb, hinit⟩
    rw [hsome, List.length_append]
    rfl

/-- The name in which some bytes end is found where it stands. -/
theorem Ends.lastSpan?_eq (h : style.Ends bytes front name back) :
    style.lastSpan? bytes = some (front.length, front.length + name.length - 1) := by
  obtain ⟨init, last, rfl⟩ : ∃ init last, name = init ++ [last] :=
    ⟨_, _, (List.dropLast_concat_getLast h.ne_nil).symm⟩
  obtain ⟨hinit, hlast⟩ := List.forall_mem_append.1 h.apart
  have hbytes : bytes = (front ++ init) ++ last :: back := by simp [h.bytes_eq]
  have hstop : lastIndex? (fun b => !style.separates b) bytes = some (front ++ init).length := by
    refine lastIndex?_eq_some_iff.2 ⟨front ++ init, last, back, hbytes, rfl, ?_, ?_⟩
    · rw [hlast last (List.mem_singleton_self _)]
      rfl
    · intro b hb
      rw [h.after b hb]
      rfl
  rw [lastSpan?, hstop, Option.map_some, hbytes, List.take_left, h.lastIndex?_eq hinit]
  simp

/-- Bytes that are not all separators end in a name. -/
theorem exists_ends (h : ¬ ∀ b ∈ bytes, style.separates b = true) :
    ∃ front name back, style.Ends bytes front name back := by
  cases hstop : lastIndex? (fun b => !style.separates b) bytes with
  | none => exact absurd (by simpa using lastIndex?_eq_none_iff.1 hstop) h
  | some stop =>
    obtain ⟨body, last, back, rfl, -, hlast, hback⟩ := lastIndex?_eq_some_iff.1 hstop
    have hlast_apart : ∀ b ∈ [last], style.separates b = false := by simpa using hlast
    have hafter : ∀ b ∈ back, style.separates b = true := fun b hb => by simpa using hback b hb
    -- The name begins behind the last separator in what is left, if there is one.
    cases hstart : lastIndex? style.separates body with
    | none =>
      exact ⟨[], body ++ [last], back, by simp, .inl rfl, by simp,
        List.forall_mem_append.2 ⟨lastIndex?_eq_none_iff.1 hstart, hlast_apart⟩, hafter⟩
    | some i =>
      obtain ⟨dir, b, init, rfl, -, hb, hinit⟩ := lastIndex?_eq_some_iff.1 hstart
      exact ⟨dir ++ [b], init ++ [last], back, by simp, .inr ⟨dir, b, hb, rfl⟩, by simp,
        List.forall_mem_append.2 ⟨hinit, hlast_apart⟩, hafter⟩

/-- No name is found in bytes that are all separators, and only there. -/
theorem lastSpan?_eq_none_iff :
    style.lastSpan? bytes = none ↔ ∀ b ∈ bytes, style.separates b = true := by
  rw [lastSpan?, Option.map_eq_none_iff, lastIndex?_eq_none_iff]
  simp

/-- What is found is the name in which the bytes end. -/
theorem lastSpan?_eq_some_iff : style.lastSpan? bytes = some (start, stop) ↔
    ∃ front name back, style.Ends bytes front name back ∧ front.length = start
      ∧ front.length + name.length - 1 = stop := by
  constructor
  · intro h
    have hsome : ¬ ∀ b ∈ bytes, style.separates b = true := by
      intro hall
      rw [lastSpan?_eq_none_iff.2 hall] at h
      cases h
    obtain ⟨front, name, back, hends⟩ := exists_ends hsome
    rw [hends.lastSpan?_eq] at h
    cases h
    exact ⟨front, name, back, hends, rfl, rfl⟩
  · rintro ⟨front, name, back, h, rfl, rfl⟩
    exact h.lastSpan?_eq

/-- The slice from the first position of the name to its last is the name. -/
theorem Ends.slice_eq (h : style.Ends bytes front name back) :
    (bytes.drop front.length).take (front.length + name.length - 1 + 1 - front.length) = name := by
  have hpos : 0 < name.length := List.length_pos_iff.2 h.ne_nil
  have hlength : front.length + name.length - 1 + 1 - front.length = name.length := by omega
  rw [hlength, h.bytes_eq, List.drop_left, List.take_left]

end Style

/-! ## The last element as written -/

/-- The last element of a path as written is the name in which it ends. -/
theorem baseNameIn_of_ends (h : style.Ends (style.afterDrive path.bytes) front name back) :
    path.baseNameIn style = name := by
  have hne : style.afterDrive path.bytes ≠ [] := by
    rw [h.bytes_eq]
    simp [h.ne_nil]
  unfold baseNameIn
  rw [if_neg hne, h.lastSpan?_eq]
  exact h.slice_eq

/-- The positions that are found are those of the last element, and they are positions of what is
searched. -/
theorem slice?_of_lastSpan?
    (h : style.lastSpan? (style.afterDrive path.bytes) = some (start, stop)) :
    start ≤ stop ∧ stop < (style.afterDrive path.bytes).length
      ∧ (style.afterDrive path.bytes).slice? start (stop + 1 - start)
        = some (path.baseNameIn style) := by
  obtain ⟨front, name, back, hends, rfl, rfl⟩ := Style.lastSpan?_eq_some_iff.1 h
  have hpos : 0 < name.length := List.length_pos_iff.2 hends.ne_nil
  have hlength : (style.afterDrive path.bytes).length
      = front.length + (name.length + back.length) := by
    rw [hends.bytes_eq, List.length_append, List.length_append]
  refine ⟨by omega, by omega, ?_⟩
  rw [Bytes.slice?, if_pos (by omega), hends.slice_eq, baseNameIn_of_ends hends]

/-- The last element of a path of separators only is one separator. -/
theorem baseNameIn_of_forall_separates (hne : style.afterDrive path.bytes ≠ [])
    (h : ∀ b ∈ style.afterDrive path.bytes, style.separates b = true) :
    path.baseNameIn style = [style.mainSeparator] := by
  unfold baseNameIn
  rw [if_neg hne, Style.lastSpan?_eq_none_iff.2 h]

/-- What the last element of a path can be: a name in which the path ends, a separator if there is
nothing else, and `.` for the empty path. -/
theorem baseNameIn_cases (style : Style) (path : Path) :
    (style.afterDrive path.bytes = [] ∧ path.baseNameIn style = [dot])
      ∨ (style.afterDrive path.bytes ≠ []
        ∧ (∀ b ∈ style.afterDrive path.bytes, style.separates b = true)
        ∧ path.baseNameIn style = [style.mainSeparator])
      ∨ ∃ front name back, style.Ends (style.afterDrive path.bytes) front name back
        ∧ path.baseNameIn style = name := by
  by_cases hne : style.afterDrive path.bytes = []
  · exact .inl ⟨hne, if_pos hne⟩
  · by_cases hall : ∀ b ∈ style.afterDrive path.bytes, style.separates b = true
    · exact .inr (.inl ⟨hne, hall, baseNameIn_of_forall_separates hne hall⟩)
    · obtain ⟨front, name, back, h⟩ := Style.exists_ends hall
      exact .inr (.inr ⟨front, name, back, h, baseNameIn_of_ends h⟩)

theorem baseNameIn_ne_nil (style : Style) (path : Path) : path.baseNameIn style ≠ [] := by
  rcases baseNameIn_cases style path with ⟨-, h⟩ | ⟨-, -, h⟩ | ⟨front, name, back, hends, h⟩
  · rw [h]
    exact List.cons_ne_nil _ _
  · rw [h]
    exact List.cons_ne_nil _ _
  · rw [h]
    exact hends.ne_nil

end PortableFiles.Path
