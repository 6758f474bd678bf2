import PortableFiles.Proofs.Path.LastElement
import PortableFiles.Proofs.Path.Sibling
set_option autoImplicit false

/-!
# The last name of a path

A path that does not consist of `/` only ends in a name, with separators after it.  This name is the
last one on the way from the root (`Path.Style.Ends.names_eq`), so that the parent of the path leads
up to it: both together have the components of the path (`Path.components_join_baseName`).
-/

namespace PortableFiles.Path

variable {path : Path} {bytes front name back : Bytes}

/-! ## Names between slashes -/

namespace Style

theorem separates_posix_iff {b : UInt8} : Style.posix.separates b = true ↔ b = slash :=
  decide_eq_true_iff

theorem Ends.isPlain (h : Style.posix.Ends bytes front name back) : IsPlain name :=
  ⟨h.ne_nil, fun b hb => of_decide_eq_false (h.apart b hb)⟩

theorem Ends.front_cases (h : Style.posix.Ends bytes front name back) :
    front = [] ∨ ∃ dir, front = dir ++ [slash] := by
  rcases h.before with rfl | ⟨dir, b, hb, rfl⟩
  · exact .inl rfl
  · exact .inr ⟨dir, by rw [separates_posix_iff.1 hb]⟩

theorem Ends.eq_slash (h : Style.posix.Ends bytes front name back) : ∀ b ∈ back, b = slash :=
  fun b hb => separates_posix_iff.1 (h.after b hb)

end Style

/-- A name ends the bytes that it stands in where only slashes are behind it, and before it nothing
or a slash. -/
theorem IsPlain.ends (h : IsPlain name) (hfront : front = [] ∨ ∃ dir, front = dir ++ [slash])
    (hback : ∀ b ∈ back, b = slash) :
    Style.posix.Ends (front ++ (name ++ back)) front name back where
  bytes_eq := rfl
  before := hfront.imp_right fun ⟨dir, hdir⟩ => ⟨dir, slash, Style.separates_posix_iff.2 rfl, hdir⟩
  ne_nil := h.ne_nil
  apart b hb := decide_eq_false (h.noSlash b hb)
  after b hb := Style.separates_posix_iff.2 (hback b hb)

/-- Bytes that are not all slashes end in a name. -/
theorem exists_ends (h : ¬ ∀ b ∈ bytes, b = slash) :
    ∃ front name back, Style.posix.Ends bytes front name back :=
  Style.exists_ends fun hall => h fun b hb => Style.separates_posix_iff.1 (hall b hb)

/-! ## The last name as written -/

/-- The last element of a path as written is the name in which it ends. -/
theorem baseName_of_ends (h : Style.posix.Ends path.bytes front name back) : path.baseName = name :=
  baseNameIn_of_ends h

theorem baseName_of_forall_slash (hne : path.bytes ≠ []) (h : ∀ b ∈ path.bytes, b = slash) :
    path.baseName = [slash] :=
  baseNameIn_of_forall_separates hne fun b hb => Style.separates_posix_iff.2 (h b hb)

/-- What the last element of a path can be: a name in which the path ends, a separator if there is
nothing else, and `.` for the empty path. -/
theorem baseName_cases (path : Path) :
    (path.bytes = [] ∧ path.baseName = [dot])
      ∨ (path.bytes ≠ [] ∧ (∀ b ∈ path.bytes, b = slash) ∧ path.baseName = [slash])
      ∨ ∃ front name back, Style.posix.Ends path.bytes front name back ∧ path.baseName = name := by
  rcases baseNameIn_cases .posix path with h | ⟨hne, hall, h⟩ | h
  · exact .inl h
  · exact .inr (.inl ⟨hne, fun b hb => Style.separates_posix_iff.1 (hall b hb), h⟩)
  · exact .inr (.inr h)

theorem baseName_ne_nil (path : Path) : path.baseName ≠ [] := baseNameIn_ne_nil .posix path

/-- The last element is a separator for paths of separators only, and only for these. -/
theorem baseName_eq_slash_iff :
    path.baseName = [slash] ↔ path.bytes ≠ [] ∧ ∀ b ∈ path.bytes, b = slash := by
  refine ⟨fun h => ?_, fun h => baseName_of_forall_slash h.1 h.2⟩
  rcases baseName_cases path with ⟨-, hdot⟩ | ⟨hne, hall, -⟩ | ⟨front, name, back, hends, hname⟩
  · rw [h] at hdot
    cases hdot
  · exact ⟨hne, hall⟩
  · refine absurd rfl (hends.isPlain.noSlash slash ?_)
    rw [← hname, h]
    exact List.mem_singleton_self _

/-- The last element holds no separator unless it is one. -/
theorem slash_notMem_baseName (h : path.baseName ≠ [slash]) : slash ∉ path.baseName := by
  rcases baseName_cases path with ⟨-, hdot⟩ | ⟨-, -, hslash⟩ | ⟨front, name, back, hends, hname⟩
  · rw [hdot]
    decide
  · exact absurd hslash h
  · rw [hname]
    exact fun hmem => hends.isPlain.noSlash slash hmem rfl

/-- Separators at the end of a path that does not consist of separators make no difference. -/
theorem baseName_append_slashes (h : ¬ ∀ b ∈ bytes, b = slash) (count : Nat) :
    baseName ⟨bytes ++ List.replicate count slash⟩ = baseName ⟨bytes⟩ := by
  obtain ⟨front, name, back, hends⟩ := exists_ends h
  have hback : ∀ b ∈ back ++ List.replicate count slash, b = slash :=
    List.forall_mem_append.2 ⟨hends.eq_slash, fun _ hb => List.eq_of_mem_replicate hb⟩
  have hlonger := hends.isPlain.ends hends.front_cases hback
  rw [← List.append_assoc name, ← List.append_assoc front, ← hends.bytes_eq] at hlonger
  have hname : baseName ⟨bytes⟩ = name := baseName_of_ends hends
  rw [hname]
  exact baseName_of_ends hlonger

/-- A plain name in a directory is the last element of its path. -/
theorem baseName_append_name (dir : Bytes) (h : IsPlain name) :
    baseName ⟨dir ++ slash :: name⟩ = name := by
  have hends := h.ends (.inr ⟨dir, rfl⟩) (List.forall_mem_nil (· = slash))
  rw [List.append_nil, List.append_assoc, List.singleton_append] at hends
  exact baseName_of_ends hends

/-- The last element of a path is its own last element. -/
theorem baseName_baseName (path : Path) : baseName ⟨path.baseName⟩ = path.baseName := by
  rcases baseName_cases path with ⟨-, h⟩ | ⟨-, -, h⟩ | ⟨front, name, back, hends, h⟩
  · rw [h]
    rfl
  · rw [h]
    rfl
  · have hname := hends.isPlain.ends (.inl rfl) (List.forall_mem_nil (· = slash))
    rw [List.append_nil, List.nil_append] at hname
    rw [h]
    exact baseName_of_ends hname

/-! ## The names along a path that ends in a name -/

theorem names_of_forall_slash (h : ∀ b ∈ back, b = slash) : names back = [] := by
  induction back with
  | nil => rfl
  | cons b back ih =>
    obtain ⟨rfl, hback⟩ := List.forall_mem_cons.1 h
    rw [names_slash_cons, ih hback]

/-- The name in which a path ends is the last one along it. -/
theorem Style.Ends.names_eq (h : Style.posix.Ends bytes front name back) :
    names bytes = names front ++ [name] := by
  have hlast : names (name ++ back) = [name] := by
    cases back with
    | nil => rw [List.append_nil, h.isPlain.names_eq]
    | cons b back =>
      obtain ⟨rfl, hback⟩ := List.forall_mem_cons.1 h.eq_slash
      rw [names_append, h.isPlain.names_eq, names_of_forall_slash hback, List.append_nil]
  rw [h.bytes_eq]
  rcases h.front_cases with rfl | ⟨dir, rfl⟩
  · exact hlast
  · rw [List.append_assoc, List.singleton_append, names_append, names_append, hlast, names_nil,
      List.append_nil]

/-- A relative path begins with the first name along it. -/
theorem exists_names_eq (hne : path.bytes ≠ []) (hrelative : path.isAbsolute = false) :
    ∃ first more, names path.bytes = first :: more
      ∧ (path.bytes = first ∨ ∃ rest, path.bytes = first ++ slash :: rest) := by
  cases hsplit : Text.splitOn (· = slash) path.bytes with
  | nil => exact absurd hsplit (Text.splitOn_ne_nil _ _)
  | cons first pieces =>
    obtain ⟨-, hbytes⟩ := Text.splitOn_eq_cons_iff.1 hsplit
    have hbegins : path.bytes = first ∨ ∃ rest, path.bytes = first ++ slash :: rest := by
      rcases hbytes with ⟨hbytes, -⟩ | ⟨b, rest, hb, hbytes, -⟩
      · exact .inl hbytes
      · obtain rfl : b = slash := by simpa using hb
        exact .inr ⟨rest, hbytes⟩
    have hfirst : first ≠ [] := by
      rintro rfl
      rcases hbegins with hbytes | ⟨rest, hbytes⟩
      · exact hne hbytes
      · simp [isAbsolute, hbytes] at hrelative
    refine ⟨first, pieces.filter (· ≠ []), ?_, hbegins⟩
    rw [names, hsplit, List.filter_cons_of_pos (by simpa using hfirst)]

theorem startsAtDot_iff : path.startsAtDot = true ↔
    path.bytes = [dot] ∨ ∃ rest, path.bytes = dot :: slash :: rest := by
  unfold startsAtDot
  split <;> simp_all

/-- A relative path starts at `.` if that is the first name along it. -/
theorem startsAtDot_iff_head? (hrelative : path.isAbsolute = false) :
    path.startsAtDot = true ↔ (names path.bytes).head? = some [dot] := by
  rw [startsAtDot_iff]
  constructor
  · rintro (hbytes | ⟨rest, hbytes⟩)
    · rw [hbytes]
      rfl
    · have hnames : names (dot :: slash :: rest) = [[dot]] ++ names rest := names_append [dot] rest
      rw [hbytes, hnames]
      rfl
  · intro hhead
    have hne : path.bytes ≠ [] := by
      intro hnil
      rw [hnil] at hhead
      cases hhead
    obtain ⟨first, more, hnames, hbegins⟩ := exists_names_eq hne hrelative
    rw [hnames] at hhead
    cases hhead
    exact hbegins

/-- The components of a path are told by the names along it. -/
theorem components_eq (path : Path) : path.components
    = (if path.isAbsolute then [.root]
        else if (names path.bytes).head? = some [dot] then [.current] else [])
      ++ ((names path.bytes).filter (· ≠ [dot])).map componentOf := by
  have hanchor : (anchorNames path).filter (· ≠ [dot]) = [] := by
    unfold anchorNames
    split
    · rfl
    · split <;> rfl
  have hpieces : path.pieces.filter (fun piece => !isFiller piece)
      = (names path.bytes).filter (· ≠ [dot]) := by
    rw [names_eq, List.filter_append, hanchor, List.nil_append, List.filter_filter]
    congr
    funext piece
    simp [isFiller, Bool.and_comm]
  rw [components, hpieces]
  cases habsolute : path.isAbsolute with
  | true => rfl
  | false => simp only [startsAtDot_iff_head? habsolute]

/-! ## The directory and the last name -/

/-- The parent of a path and the name in which it ends have the components of the path, where `.`
may come to stand in front of them. -/
theorem Style.Ends.components_join (h : Style.posix.Ends path.bytes front name back)
    (hname : name ≠ [dot]) :
    (path.parentDir.join name).components = path.components
      ∨ (path.parentDir.join name).components = .current :: path.components := by
  obtain ⟨parent, count, hparent, hanchor, hprefix, hbefore⟩ :=
    parent?_of_names_eq hname h.names_eq
  have hparentDir : path.parentDir = if parent.isEmpty then current else parent := by
    rw [parentDir, hparent]
  have hjoined : (path.parentDir.join name).isAbsolute = path.parentDir.isAbsolute :=
    isAbsolute_join h.isPlain (parentDir_ne_nil path)
  have hdots : (names parent.bytes ++ List.replicate count [dot] ++ [name]).filter (· ≠ [dot])
      = (names parent.bytes ++ [name]).filter (· ≠ [dot]) := by simp
  rw [components_eq, components_eq path, hjoined,
    ← isAbsolute_parentDir hparent hanchor hprefix, names_join path.parentDir h.isPlain, h.names_eq,
    hbefore, hdots, hparentDir]
  cases hempty : parent.isEmpty with
  | true =>
    -- The path is a name with `.` before it as often as it pleases, and its directory is `.`.
    have hnone : names parent.bytes = [] := by
      rw [List.isEmpty_iff.1 hempty]
      rfl
    have hcurrent : current.isAbsolute = false := rfl
    have hdot : names current.bytes = [[dot]] := rfl
    cases count with
    | zero => exact .inr (by simp [hnone, hcurrent, hdot, hname])
    | succ count => exact .inl (by simp [hnone, hcurrent, hdot, List.replicate_succ])
  | false =>
    refine .inl ?_
    cases habsolute : parent.isAbsolute with
    | true => simp [habsolute]
    | false =>
      have hne : parent.bytes ≠ [] := by simpa [isEmpty] using hempty
      obtain ⟨first, more, hnames, -⟩ := exists_names_eq hne habsolute
      simp only [habsolute, hnames, Bool.false_eq_true, if_false, List.cons_append, List.head?_cons]

/-- The parent of a path and its last element have the components of the path, where `.` may come to
stand in front of them. -/
theorem components_join_baseName (hdot : path.baseName ≠ [dot]) (hslash : path.baseName ≠ [slash]) :
    (path.parentDir.join path.baseName).components = path.components
      ∨ (path.parentDir.join path.baseName).components = .current :: path.components := by
  rcases baseName_cases path with ⟨-, h⟩ | ⟨-, -, h⟩ | ⟨front, name, back, hends, h⟩
  · exact absurd h hdot
  · exact absurd h hslash
  · rw [h] at hdot ⊢
    exact hends.components_join hdot

end PortableFiles.Path
