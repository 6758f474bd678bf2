import PortableFiles.Path.Extended
import PortableFiles.Proofs.Text.Splitting
set_option autoImplicit false

/-!
# Roots of paths

The forms that a path may have, said by its first bytes, and the roots of the absolute ones: a drive,
or a server and a share.  Each is what the functions on paths find (`ExtendedPath.anchor_eq_iff`,
`ExtendedPath.root?_eq_some_iff`, `ExtendedPath.rootAndRest?_eq_some_iff`).
-/

namespace PortableFiles.ExtendedPath

variable {path root extended rest server share tail : Bytes} {first second b : UInt8} {a : Anchor}

/-! ## Forms of paths -/

/-- A path on a drive: a letter, a colon and a separator. -/
def OnDrive (path : Bytes) : Prop :=
  ∃ letter separator rest, path = letter :: colon :: separator :: rest
    ∧ isLetter letter = true ∧ isSeparator separator = true

/-- A path on a share of a server: two separators. -/
def OnShare (path : Bytes) : Prop :=
  ∃ first second rest, path = first :: second :: rest
    ∧ isSeparator first = true ∧ isSeparator second = true

/-- A path at the root of the current drive or share: one separator, and no second one. -/
def AtRoot (path : Bytes) : Prop :=
  (∃ separator rest, path = separator :: rest ∧ isSeparator separator = true) ∧ ¬ OnShare path

/-- Whether a path begins with a drive. -/
def NamesDrive (path : Bytes) : Prop :=
  ∃ letter rest, path = letter :: colon :: rest ∧ isLetter letter = true

/-- A relative path: it begins neither with a separator nor with a drive. -/
def IsRelative (path : Bytes) : Prop :=
  (∀ b ∈ path.head?, isSeparator b = false) ∧ ¬ NamesDrive path

/-- An absolute path: one on a drive or on a share. -/
def Absolute (path : Bytes) : Prop := OnDrive path ∨ OnShare path

/-- What an anchor says of a path. -/
def Anchor.Holds : Anchor → Bytes → Prop
  | .drive, path => OnDrive path
  | .driveRelative, path => NamesDrive path ∧ ¬ OnDrive path
  | .share, path => OnShare path
  | .rooted, path => AtRoot path
  | .relative, path => IsRelative path

/-- No letter separates components. -/
theorem not_isSeparator_of_isLetter (h : isLetter b = true) : isSeparator b = false := by
  cases hsep : isSeparator b with
  | false => rfl
  | true =>
    rcases Bool.or_eq_true_iff.1 hsep with hb | hb
    · rw [of_decide_eq_true hb] at h
      cases h
    · rw [of_decide_eq_true hb] at h
      cases h

theorem not_onShare_of_head (h : isSeparator first = false) : ¬ OnShare (first :: rest) := by
  rintro ⟨_, _, _, heq, hsep, -⟩
  cases heq
  rw [h] at hsep
  cases hsep

theorem OnDrive.not_onShare (h : OnDrive path) : ¬ OnShare path := by
  obtain ⟨letter, separator, rest, rfl, hletter, -⟩ := h
  exact not_onShare_of_head (not_isSeparator_of_isLetter hletter)

/-- Every path has a form. -/
theorem exists_holds (path : Bytes) : ∃ a : Anchor, a.Holds path := by
  by_cases hshare : OnShare path
  · exact ⟨.share, hshare⟩
  by_cases hroot : ∃ separator rest, path = separator :: rest ∧ isSeparator separator = true
  · exact ⟨.rooted, hroot, hshare⟩
  by_cases hdrive : OnDrive path
  · exact ⟨.drive, hdrive⟩
  by_cases hnames : NamesDrive path
  · exact ⟨.driveRelative, hnames, hdrive⟩
  refine ⟨.relative, ?_, hnames⟩
  intro b hb
  cases hsep : isSeparator b with
  | false => rfl
  | true =>
    obtain ⟨rest, rfl⟩ := List.head?_eq_some_iff.1 hb
    exact absurd ⟨b, rest, rfl, hsep⟩ hroot

theorem anchor_of_onShare (h : OnShare path) : anchor path = .share := by
  obtain ⟨first, second, rest, rfl, hfirst, hsecond⟩ := h
  simp [anchor, hfirst, hsecond]

theorem anchor_of_atRoot (h : AtRoot path) : anchor path = .rooted := by
  obtain ⟨⟨separator, rest, rfl, hsep⟩, hshare⟩ := h
  cases rest with
  | nil => simp [anchor, hsep]
  | cons second rest =>
    have hsecond : ¬ isSeparator second = true := fun h =>
      hshare ⟨separator, second, rest, rfl, hsep, h⟩
    simp [anchor, hsep, hsecond]

theorem anchor_of_onDrive (h : OnDrive path) : anchor path = .drive := by
  obtain ⟨letter, separator, rest, rfl, hletter, hsep⟩ := h
  simp [anchor, not_isSeparator_of_isLetter hletter, hletter, hsep]

theorem anchor_of_driveRelative (h : NamesDrive path) (hdrive : ¬ OnDrive path) :
    anchor path = .driveRelative := by
  obtain ⟨letter, rest, rfl, hletter⟩ := h
  cases rest with
  | nil => simp [anchor, not_isSeparator_of_isLetter hletter, hletter]
  | cons third rest =>
    have hthird : ¬ isSeparator third = true := fun h =>
      hdrive ⟨letter, third, rest, rfl, hletter, h⟩
    simp [anchor, not_isSeparator_of_isLetter hletter, hletter, hthird]

theorem anchor_of_isRelative (h : IsRelative path) : anchor path = .relative := by
  obtain ⟨hhead, hdrive⟩ := h
  match path with
  | [] => rfl
  | [first] => simp [anchor, hhead first rfl]
  | first :: second :: rest =>
    have hnames : ¬ (isLetter first = true ∧ second = colon) := by
      rintro ⟨hletter, rfl⟩
      exact hdrive ⟨first, rest, rfl, hletter⟩
    simp [anchor, hhead first rfl, hnames]

theorem anchor_of_holds (h : a.Holds path) : anchor path = a := by
  cases a with
  | drive => exact anchor_of_onDrive h
  | driveRelative => exact anchor_of_driveRelative h.1 h.2
  | share => exact anchor_of_onShare h
  | rooted => exact anchor_of_atRoot h
  | relative => exact anchor_of_isRelative h

/-- The anchor of a path is the one that holds of it. -/
theorem anchor_eq_iff : anchor path = a ↔ a.Holds path := by
  constructor
  · -- Some anchor holds of the path, and the one that does is found.
    rintro rfl
    obtain ⟨a, h⟩ := exists_holds path
    rwa [anchor_of_holds h]
  · exact anchor_of_holds

theorem isAbsolute_iff : isAbsolute path = true ↔ Absolute path := by
  simp only [isAbsolute, Bool.or_eq_true, decide_eq_true_eq, anchor_eq_iff, Anchor.Holds, Absolute]

/-- What follows an absolute path does not change what it is. -/
theorem Absolute.append (h : Absolute path) (rest : Bytes) : Absolute (path ++ rest) := by
  obtain ⟨letter, separator, tail, rfl, hletter, hsep⟩ |
    ⟨first, second, tail, rfl, hfirst, hsecond⟩ := h
  · exact .inl ⟨letter, separator, tail ++ rest, rfl, hletter, hsep⟩
  · exact .inr ⟨first, second, tail ++ rest, rfl, hfirst, hsecond⟩

/-! ## Servers and shares -/

/-- A name between separators: it is not empty and holds no separator. -/
def IsPiece (piece : Bytes) : Prop := piece ≠ [] ∧ ∀ b ∈ piece, isSeparator b = false

/-- What can follow a root: nothing, or a separator and anything. -/
def IsBelow (rest : Bytes) : Prop := ∀ b ∈ rest.head?, isSeparator b = true

/-- What does not begin with a separator begins with a piece. -/
theorem exists_piece_of_not_isBelow (h : ¬ IsBelow tail) :
    ∃ share rest, tail = share ++ rest ∧ IsPiece share ∧ IsBelow rest := by
  cases hsplit : Text.splitOn isSeparator tail with
  | nil => exact absurd hsplit (Text.splitOn_ne_nil isSeparator tail)
  | cons share more =>
    obtain ⟨hfree, hcases⟩ := Text.splitOn_eq_cons_iff.1 hsplit
    have hsome : share ≠ [] := by
      rintro rfl
      refine h ?_
      rcases hcases with ⟨rfl, -⟩ | ⟨b, rest, hb, rfl, -⟩
      · simp [IsBelow]
      · simpa [IsBelow] using hb
    rcases hcases with ⟨rfl, -⟩ | ⟨b, rest, hb, rfl, -⟩
    · exact ⟨tail, [], by rw [List.append_nil], ⟨hsome, hfree⟩, by simp [IsBelow]⟩
    · exact ⟨share, b :: rest, rfl, ⟨hsome, hfree⟩, by simpa [IsBelow] using hb⟩

theorem IsBelow.exists_splitOn_eq (h : IsBelow tail) :
    ∃ more, Text.splitOn isSeparator tail = [] :: more := by
  cases tail with
  | nil => exact ⟨[], rfl⟩
  | cons b rest => exact ⟨_, Text.splitOn_cons_of_pos (h b rfl) rest⟩

/-- Whether the first two pieces after the two separators are there and not empty. -/
def NamesShare (path : Bytes) : Prop :=
  ∃ server share more, Text.splitOn isSeparator (path.drop 2) = server :: share :: more
    ∧ server ≠ [] ∧ share ≠ []

theorem shareParts?_eq_some_iff : shareParts? path = some (server, share) ↔
    ∃ more, Text.splitOn isSeparator (path.drop 2) = server :: share :: more
      ∧ server ≠ [] ∧ share ≠ [] := by
  unfold shareParts?
  split
  · rename_i hsplit
    rw [hsplit]
    split <;> grind
  · rename_i hsplit
    constructor
    · intro h
      cases h
    · rintro ⟨more, h, -⟩
      exact absurd h (hsplit server share more)

/-- The server and the share are what the path begins with, behind its two separators. -/
theorem shareParts?_cons_cons :
    shareParts? (first :: second :: tail) = some (server, share) ↔
      IsPiece server ∧ IsPiece share ∧ ∃ between rest, isSeparator between = true ∧ IsBelow rest
        ∧ tail = server ++ between :: (share ++ rest) := by
  rw [shareParts?_eq_some_iff, List.drop_succ_cons, List.drop_succ_cons, List.drop_zero]
  simp only [Text.splitOn_eq_cons_iff]
  constructor
  · -- The server ends at a separator, since a second piece follows; the share may end with the path.
    rintro ⟨more, ⟨hserver, hnext⟩, hserver_ne, hshare_ne⟩
    obtain ⟨-, hnil⟩ | ⟨between, rest, hbetween, rfl, hshare, hmore⟩ := hnext
    · cases hnil
    obtain ⟨rfl, -⟩ | ⟨third, below, hthird, rfl, -⟩ := hmore
    · exact ⟨⟨hserver_ne, hserver⟩, ⟨hshare_ne, hshare⟩, between, [], hbetween, by simp [IsBelow],
        by rw [List.append_nil]⟩
    · exact ⟨⟨hserver_ne, hserver⟩, ⟨hshare_ne, hshare⟩, between, third :: below, hbetween,
        by simpa [IsBelow] using hthird, rfl⟩
  · rintro ⟨⟨hserver_ne, hserver⟩, ⟨hshare_ne, hshare⟩, between, rest, hbetween, hrest, rfl⟩
    cases rest with
    | nil =>
      exact ⟨[], ⟨hserver, .inr ⟨between, share, hbetween, by rw [List.append_nil], hshare,
        .inl ⟨rfl, rfl⟩⟩⟩, hserver_ne, hshare_ne⟩
    | cons third below =>
      exact ⟨Text.splitOn isSeparator below, ⟨hserver, .inr ⟨between, share ++ third :: below,
        hbetween, rfl, hshare, .inr ⟨third, below, hrest third rfl, rfl, rfl⟩⟩⟩, hserver_ne,
        hshare_ne⟩

/-! ## Roots -/

/-- The root of an absolute path, what becomes of it in the extended form, and what follows it. -/
inductive Divides : Bytes → Bytes → Bytes → Prop where
  | drive {letter separator : UInt8} (hletter : isLetter letter = true)
      (hsep : isSeparator separator = true) (rest : Bytes) :
      Divides [letter, colon] (mark ++ [letter, colon]) (separator :: rest)
  | share {first second between : UInt8} {server share rest : Bytes}
      (hfirst : isSeparator first = true) (hsecond : isSeparator second = true)
      (hbetween : isSeparator between = true) (hserver : IsPiece server) (hshare : IsPiece share)
      (hrest : IsBelow rest) :
      Divides (first :: second :: (server ++ between :: share))
        (shareMark ++ (server ++ backslash :: share)) rest

theorem onDrive_append {letter separator : UInt8} (hletter : isLetter letter = true)
    (hsep : isSeparator separator = true) (rest : Bytes) :
    OnDrive ([letter, colon] ++ separator :: rest) :=
  ⟨letter, separator, rest, rfl, hletter, hsep⟩

theorem onShare_append (hfirst : isSeparator first = true) (hsecond : isSeparator second = true)
    (tail rest : Bytes) : OnShare (first :: second :: tail ++ rest) :=
  ⟨first, second, tail ++ rest, rfl, hfirst, hsecond⟩

/-- Whether a path has a root: it is on a drive, or on a share that it names. -/
def HasRoot (path : Bytes) : Prop := OnDrive path ∨ OnShare path ∧ NamesShare path

theorem exists_divides (h : HasRoot path) :
    ∃ root extended rest, path = root ++ rest ∧ Divides root extended rest := by
  obtain ⟨letter, separator, rest, rfl, hletter, hsep⟩ | ⟨honShare, hnames⟩ := h
  · exact ⟨_, _, _, rfl, .drive hletter hsep rest⟩
  · obtain ⟨first, second, tail, rfl, hfirst, hsecond⟩ := honShare
    obtain ⟨server, share, more, hsplit, hnonempty⟩ := hnames
    obtain ⟨hserver, hshare, between, rest, hbetween, hrest, rfl⟩ :=
      shareParts?_cons_cons.1 (shareParts?_eq_some_iff.2 ⟨more, hsplit, hnonempty⟩)
    refine ⟨first :: second :: (server ++ between :: share), _, rest, ?_,
      .share hfirst hsecond hbetween hserver hshare hrest⟩
    simp only [List.cons_append, List.append_assoc]

/-- The server and the share of a root are found in what it begins. -/
theorem Divides.shareParts?_eq {between : UInt8} (hbetween : isSeparator between = true)
    (hserver : IsPiece server) (hshare : IsPiece share) (hrest : IsBelow rest) :
    shareParts? (first :: second :: (server ++ between :: share) ++ rest) = some (server, share) := by
  rw [List.cons_append, List.cons_append, List.append_assoc, List.cons_append]
  exact shareParts?_cons_cons.2 ⟨hserver, hshare, between, rest, hbetween, hrest, rfl⟩

theorem length_shareRoot (first second between : UInt8) (server share : Bytes) :
    (first :: second :: (server ++ between :: share)).length = shareRootLength server share := by
  simp only [List.length_cons, List.length_append, shareRootLength]
  omega

theorem Divides.isBelow (h : Divides root extended rest) : IsBelow rest := by
  cases h with
  | drive _ hsep _ =>
    intro b hb
    cases hb
    exact hsep
  | share _ _ _ _ _ hrest => exact hrest

theorem Divides.hasRoot (h : Divides root extended rest) : HasRoot (root ++ rest) := by
  cases h with
  | drive hletter hsep rest => exact .inl (onDrive_append hletter hsep rest)
  | share hfirst hsecond hbetween hserver hshare hrest =>
    obtain ⟨more, hsplit, hnonempty⟩ :=
      shareParts?_eq_some_iff.1 (Divides.shareParts?_eq hbetween hserver hshare hrest)
    exact .inr ⟨onShare_append hfirst hsecond _ _, _, _, more, hsplit, hnonempty⟩

theorem Divides.root?_eq (h : Divides root extended rest) : root? (root ++ rest) = some root := by
  cases h with
  | drive hletter hsep rest =>
    rw [root?, anchor_of_onDrive (onDrive_append hletter hsep rest)]
    rfl
  | @share first second between server share rest hfirst hsecond hbetween hserver hshare hrest =>
    rw [root?, anchor_of_onShare (onShare_append hfirst hsecond _ rest)]
    simp only [Divides.shareParts?_eq hbetween hserver hshare hrest, Option.map_some,
      List.take_left' (length_shareRoot first second between server share)]

theorem Divides.rootAndRest?_eq (h : Divides root extended rest) :
    rootAndRest? (root ++ rest) = some (extended, rest) := by
  cases h with
  | drive hletter hsep rest =>
    rw [rootAndRest?, anchor_of_onDrive (onDrive_append hletter hsep rest)]
    rfl
  | @share first second between server share rest hfirst hsecond hbetween hserver hshare hrest =>
    rw [rootAndRest?, anchor_of_onShare (onShare_append hfirst hsecond _ rest)]
    simp only [Divides.shareParts?_eq hbetween hserver hshare hrest, Option.map_some,
      List.drop_left' (length_shareRoot first second between server share), List.append_assoc]

/-- A path without a root has none to be found. -/
theorem root?_eq_none (h : ¬ HasRoot path) : root? path = none ∧ rootAndRest? path = none := by
  obtain ⟨hdrive, hshare⟩ := not_or.1 h
  unfold root? rootAndRest?
  cases hanchor : anchor path with
  | drive => exact absurd (anchor_eq_iff.1 hanchor) hdrive
  | share =>
    have hnames : shareParts? path = none := by
      apply Option.eq_none_iff_forall_not_mem.2
      rintro ⟨server, share⟩ hparts
      obtain ⟨more, hsplit, hnonempty⟩ := shareParts?_eq_some_iff.1 hparts
      exact hshare ⟨anchor_eq_iff.1 hanchor, server, share, more, hsplit, hnonempty⟩
    simp only [hnames, Option.map_none, and_self]
  | driveRelative | rooted | relative => exact ⟨rfl, rfl⟩

/-- The root of a path and what follows it are found together, or there is no root. -/
theorem root?_cases (path : Bytes) :
    (∃ root extended rest, path = root ++ rest ∧ Divides root extended rest
        ∧ root? path = some root ∧ rootAndRest? path = some (extended, rest))
      ∨ root? path = none ∧ rootAndRest? path = none := by
  by_cases h : HasRoot path
  · obtain ⟨root, extended, rest, rfl, hdivides⟩ := exists_divides h
    exact .inl ⟨root, extended, rest, rfl, hdivides, hdivides.root?_eq, hdivides.rootAndRest?_eq⟩
  · exact .inr (root?_eq_none h)

theorem root?_eq_some_iff : root? path = some root ↔
    ∃ extended rest, path = root ++ rest ∧ Divides root extended rest := by
  constructor
  · intro h
    obtain ⟨root', extended, rest, hpath, hdivides, hroot, -⟩ | ⟨hnone, -⟩ := root?_cases path
    · rw [hroot] at h
      cases h
      exact ⟨extended, rest, hpath, hdivides⟩
    · rw [hnone] at h
      cases h
  · rintro ⟨extended, rest, rfl, hdivides⟩
    exact hdivides.root?_eq

theorem rootAndRest?_eq_some_iff : rootAndRest? path = some (extended, rest) ↔
    ∃ root, path = root ++ rest ∧ Divides root extended rest := by
  constructor
  · intro h
    obtain ⟨root, extended', rest', hpath, hdivides, -, hparts⟩ | ⟨-, hnone⟩ := root?_cases path
    · rw [hparts] at h
      cases h
      exact ⟨root, hpath, hdivides⟩
    · rw [hnone] at h
      cases h
  · rintro ⟨root, rfl, hdivides⟩
    exact hdivides.rootAndRest?_eq

end PortableFiles.ExtendedPath
