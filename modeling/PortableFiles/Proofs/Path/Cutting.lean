import PortableFiles.Proofs.Path.LastName
import PortableFiles.Proofs.Path.Promotion
set_option autoImplicit false

/-!
# Paths that are texts

Paths are cut next to separators and drives only, and put together with nothing but ASCII bytes.
What is promoted of a text is a text therefore, and so is the last element of one
(`PortableFiles.texts_kept`).
-/

namespace PortableFiles

/-! ## Extended forms -/

namespace ExtendedPath

variable {path cwd full out root extended rest : Bytes} {b : UInt8}

theorem lt_of_isSeparator (h : isSeparator b = true) : b < 0x80 := by
  rcases Bool.or_eq_true_iff.1 h with h | h
  · rw [of_decide_eq_true h]
    decide
  · rw [of_decide_eq_true h]
    decide

theorem lt_of_isLetter (h : isLetter b = true) : b < 0x80 := by
  simp only [isLetter, Bool.or_eq_true, Bool.and_eq_true, decide_eq_true_eq,
    UInt8.le_iff_toNat_le] at h
  rw [UInt8.lt_iff_toNat_lt]
  have hlow : (90 : UInt8).toNat = 90 := rfl
  have hhigh : (122 : UInt8).toNat = 122 := rfl
  have hbound : (0x80 : UInt8).toNat = 128 := rfl
  omega

theorem isText_mark : mark.IsText :=
  Bytes.isText_of_forall_lt (by simp [mark, backslash, question])

theorem isText_shareMark : shareMark.IsText :=
  isText_mark.append (Bytes.isText_of_forall_lt (by simp [backslash]))

theorem isText_drive {letter : UInt8} (h : isLetter letter = true) :
    Bytes.IsText [letter, colon] := by
  rw [Bytes.isText_cons_iff (lt_of_isLetter h)]
  exact Bytes.isText_singleton (by decide)

/-- What comes before a root's end and what comes behind it are texts. -/
theorem IsBelow.isText (h : IsBelow rest) (hall : Bytes.IsText (root ++ rest)) :
    root.IsText ∧ rest.IsText := by
  cases rest with
  | nil => exact ⟨by simpa using hall, Bytes.isText_nil⟩
  | cons b rest =>
    have hb : b < 0x80 := lt_of_isSeparator (h b rfl)
    obtain ⟨hroot, hrest⟩ := hall.cut hb
    exact ⟨hroot, (Bytes.isText_cons_iff hb).2 hrest⟩

/-- The extended form of the root of a text is a text. -/
theorem Divides.isText (h : Divides root extended rest) (hroot : root.IsText) :
    extended.IsText := by
  cases h with
  | drive hletter => exact isText_mark.append (isText_drive hletter)
  | share hfirst hsecond hbetween =>
    rw [Bytes.isText_cons_iff (lt_of_isSeparator hfirst),
      Bytes.isText_cons_iff (lt_of_isSeparator hsecond),
      Bytes.isText_append_cons_iff (lt_of_isSeparator hbetween)] at hroot
    exact isText_shareMark.append ((Bytes.isText_append_cons_iff (by decide)).2 hroot)

/-- The full path of a text in a working directory that is a text is a text. -/
theorem Full.isText (h : Full cwd path full) (hpath : path.IsText) (hcwd : cwd.IsText) :
    full.IsText := by
  cases h with
  | absolute => exact hpath
  | rooted _ heq hroot =>
    rw [heq] at hcwd
    exact (hroot.isBelow.isText hcwd).1.append hpath
  | within => exact hcwd.append hpath
  | below => exact (Bytes.isText_append_cons_iff (by decide)).2 ⟨hcwd, hpath⟩

/-- The extended form of a text is a text. -/
theorem Extends.isText (h : Extends full out) (hfull : full.IsText) : out.IsText := by
  obtain ⟨root, extended, rest, names, rfl, hdivides, hresolves, rfl⟩ := h
  obtain ⟨hroot, hrest⟩ := hdivides.isBelow.isText hfull
  refine (Bytes.isText_append_cons_iff (by decide)).2 ⟨hdivides.isText hroot, ?_⟩
  refine Bytes.isText_joinWith (by decide) fun name hname => ?_
  rw [resolvesTo_iff.1 hresolves] at hname
  exact hrest.of_mem_splitOn (fun _ => lt_of_isSeparator) (mem_resolve hname).1

/-- What is promoted of texts is a text. -/
theorem isText_of_promote (hpath : path.IsText) (hcwd : cwd.IsText)
    (h : promote path cwd = some out) : out.IsText := by
  obtain ⟨-, full, hfull, -, hextends⟩ := promote_eq_some_iff.1 h
  exact hextends.isText (hfull.isText hpath hcwd)

end ExtendedPath

/-! ## Last elements -/

namespace Path

variable {style : Style} {bytes front name back : Bytes} {b : UInt8}

theorem Style.lt_of_separates (h : style.separates b = true) : b < 0x80 := by
  cases style with
  | posix =>
    rw [of_decide_eq_true h]
    decide
  | windows =>
    rcases Bool.or_eq_true_iff.1 h with h | h
    · rw [of_decide_eq_true h]
      decide
    · rw [of_decide_eq_true h]
      decide

/-- A text without the drive in front of it is a text. -/
theorem Style.isText_afterDrive (h : bytes.IsText) : (style.afterDrive bytes).IsText := by
  obtain ⟨drive, hbytes, rfl | ⟨letter, hletter, rfl⟩⟩ := style.exists_eq_append_afterDrive bytes
  · rwa [← List.nil_append (style.afterDrive bytes), ← hbytes]
  · rw [hbytes, List.cons_append, Bytes.isText_cons_iff (ExtendedPath.lt_of_isLetter hletter)] at h
    exact (Bytes.isText_cons_iff (by decide)).1 h

/-- The name in which a text ends is a text. -/
theorem Style.Ends.isText (h : style.Ends bytes front name back) (hbytes : bytes.IsText) :
    name.IsText := by
  rw [h.bytes_eq] at hbytes
  have hname : Bytes.IsText (name ++ back) := by
    rcases h.before with rfl | ⟨dir, b, hb, rfl⟩
    · exact hbytes
    · rw [List.append_assoc, List.singleton_append] at hbytes
      exact (hbytes.cut (lt_of_separates hb)).2
  cases back with
  | nil => rwa [List.append_nil] at hname
  | cons b back => exact (hname.cut (lt_of_separates (h.after b List.mem_cons_self))).1

/-- The last element of a text is a text. -/
theorem isText_baseNameIn (style : Style) {path : Path} (h : path.bytes.IsText) :
    (path.baseNameIn style).IsText := by
  rcases baseNameIn_cases style path with ⟨-, hdot⟩ | ⟨-, -, hseparator⟩ |
    ⟨front, name, back, hends, hname⟩
  · rw [hdot]
    exact Bytes.isText_singleton (by decide)
  · rw [hseparator]
    cases style with
    | posix => exact Bytes.isText_singleton (by decide)
    | windows => exact Bytes.isText_singleton (by decide)
  · rw [hname]
    exact hends.isText (Style.isText_afterDrive h)

end Path

/-- What is cut out of texts and put together again is a text.  The extended form of a path that is
a text, in a working directory that is one, is a text.  In each style of writing paths, what follows
the drive of a text has a last element unless it consists of separators; the positions of this
element are positions of what follows the drive, and the slice between them is not empty and is a
text.  On POSIX systems no drive is cut off, and the element is `Path.baseName`. -/
theorem texts_kept (path cwd : String) :
    (∀ out, ExtendedPath.promote (Bytes.ofString path) (Bytes.ofString cwd) = some out →
        ∃ s : String, Bytes.ofString s = out)
      ∧ ∀ style : Path.Style, ∃ drive rest : Bytes,
        style.afterDrive (Bytes.ofString path) = rest ∧ Bytes.ofString path = drive ++ rest
          ∧ (style.lastSpan? rest = none ↔ ∀ b ∈ rest, style.separates b = true)
          ∧ ∀ start stop, style.lastSpan? rest = some (start, stop) →
            start ≤ stop ∧ stop < rest.length
              ∧ rest.slice? start (stop + 1 - start)
                = some ((Path.ofString path).baseNameIn style)
              ∧ (Path.ofString path).baseNameIn style ≠ []
              ∧ ∃ s : String, Bytes.ofString s = (Path.ofString path).baseNameIn style := by
  have hpath := Bytes.isText_ofString path
  have hcwd := Bytes.isText_ofString cwd
  refine ⟨fun out => ExtendedPath.isText_of_promote hpath hcwd, fun style => ?_⟩
  obtain ⟨drive, hdrive, -⟩ := style.exists_eq_append_afterDrive (Bytes.ofString path)
  refine ⟨drive, _, rfl, hdrive, Path.Style.lastSpan?_eq_none_iff, ?_⟩
  intro start stop h
  obtain ⟨hle, hlt, hslice⟩ := Path.slice?_of_lastSpan? h
  exact ⟨hle, hlt, hslice, Path.baseNameIn_ne_nil style _, Path.isText_baseNameIn style hpath⟩

/-- A name of a hundred and thirty letters of two bytes each, in another one at the root. -/
def accented : List Char := ['/', 'ü', '/'] ++ List.replicate 130 'é' ++ ['/']

/-- A directory on a drive. -/
def umlaut : List Char := ['C', ':', '/', 'ö']

/-- In that directory the name is promoted to a text, and it is found where it stands.  On Windows
the name of the directory is found behind the drive. -/
theorem texts_kept_accented :
    (∃ s : String, ExtendedPath.promote (Bytes.ofString (String.ofList accented))
        (Bytes.ofString (String.ofList umlaut)) = some (Bytes.ofString s))
      ∧ Path.Style.posix.lastSpan? (Bytes.ofString (String.ofList accented)) = some (4, 263)
      ∧ (∃ s : String, Bytes.ofString s = (Path.ofString (String.ofList accented)).baseName)
      ∧ Path.Style.windows.lastSpan?
          (Path.Style.windows.afterDrive (Bytes.ofString (String.ofList umlaut))) = some (1, 2)
      ∧ ∃ s : String,
          Bytes.ofString s = (Path.ofString (String.ofList umlaut)).baseNameIn .windows := by
  have hspan : Path.Style.posix.lastSpan? (Bytes.ofString (String.ofList accented))
      = some (4, 263) := by
    rw [Bytes.ofString_ofList]
    decide +kernel
  have hdriven : Path.Style.windows.lastSpan?
      (Path.Style.windows.afterDrive (Bytes.ofString (String.ofList umlaut))) = some (1, 2) := by
    rw [Bytes.ofString_ofList]
    decide +kernel
  have hpromoted : (ExtendedPath.promote (Bytes.ofString (String.ofList accented))
      (Bytes.ofString (String.ofList umlaut))).isSome = true := by
    rw [Bytes.ofString_ofList, Bytes.ofString_ofList]
    decide +kernel
  obtain ⟨out, hout⟩ := Option.isSome_iff_exists.1 hpromoted
  obtain ⟨htext, hstyles⟩ := texts_kept (String.ofList accented) (String.ofList umlaut)
  obtain ⟨s, rfl⟩ := htext out hout
  obtain ⟨-, -, rfl, -, -, hslices⟩ := hstyles .posix
  obtain ⟨-, hbehind⟩ := texts_kept (String.ofList umlaut) ""
  obtain ⟨-, -, rfl, -, -, hnames⟩ := hbehind .windows
  exact ⟨⟨s, hout⟩, hspan, (hslices 4 263 hspan).2.2.2.2, hdriven,
    (hnames 1 2 hdriven).2.2.2.2⟩

end PortableFiles
