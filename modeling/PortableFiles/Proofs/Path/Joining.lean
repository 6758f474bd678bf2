import PortableFiles.Proofs.Path.Promotion
set_option autoImplicit false

/-!
# Promotion and joining

Whether it matters how a path was given: against a working directory, or as the full path that it
stands for there.  `ExtendedPath.promotion_joined` says that it does not, if the full path is one
that Windows normalises, but that a path at the root which is left alone stays so although its full
path is an ordinary one.
-/

namespace PortableFiles.ExtendedPath

variable {path cwd full : Bytes}

/-! ## Full paths on drives -/

/-- A path on a drive begins with a letter, and so with none of the prefixes. -/
theorem OnDrive.not_isVerbatim (h : OnDrive path) : ∀ p ∈ verbatimPrefixes, ¬ p <+: path := by
  obtain ⟨letter, separator, rest, rfl, hletter, -⟩ := h
  have hhead : ∀ p ∈ verbatimPrefixes, p.head? = some backslash := by decide
  intro p hp hprefix
  obtain ⟨tail, rfl⟩ := List.head?_eq_some_iff.1 (hhead p hp)
  obtain ⟨rfl, -⟩ := List.cons_prefix_cons.1 hprefix
  cases hletter

theorem AtRoot.not_absolute (h : AtRoot path) : ¬ Absolute path := by
  rintro (hdrive | hshare)
  · obtain ⟨letter, _, _, rfl, hletter, -⟩ := hdrive
    obtain ⟨⟨separator, tail, heq, hsep⟩, -⟩ := h
    cases heq
    rw [not_isSeparator_of_isLetter hletter] at hsep
    cases hsep
  · exact h.2 hshare

theorem IsRelative.not_absolute (h : IsRelative path) : ¬ Absolute path := by
  rintro (hdrive | hshare)
  · obtain ⟨letter, separator, rest, rfl, hletter, -⟩ := hdrive
    exact h.2 ⟨letter, _, rfl, hletter⟩
  · obtain ⟨first, second, rest, rfl, hfirst, -⟩ := hshare
    rw [h.1 first rfl] at hfirst
    cases hfirst

/-- What is given against a working directory on a drive is on that drive. -/
theorem Full.onDrive (h : Full cwd path full) (hpath : ¬ Absolute path) (hcwd : OnDrive cwd) :
    OnDrive full := by
  cases h with
  | absolute h => exact absurd h hpath
  | rooted h heq hroot =>
    obtain ⟨⟨separator, tail, rfl, hsep⟩, -⟩ := h
    cases hroot with
    | drive hletter _ _ => exact onDrive_append hletter hsep tail
    | share hfirst hsecond =>
      rw [heq] at hcwd
      exact absurd (onShare_append hfirst hsecond _ _) hcwd.not_onShare
  | within h habs hsep =>
    obtain ⟨letter, separator, rest, rfl, hletter, hsep⟩ := hcwd
    exact ⟨letter, separator, rest ++ path, rfl, hletter, hsep⟩
  | below h habs hsep =>
    obtain ⟨letter, separator, rest, rfl, hletter, hsep⟩ := hcwd
    exact ⟨letter, separator, rest ++ backslash :: path, rfl, hletter, hsep⟩

/-! ## The two ways to give a path -/

/-- A path at the root or a relative one, and the full path that it stands for in a working
directory.  Against a working directory on a drive, the full path begins with none of the prefixes
of paths that are left alone.  Wherever it begins with none, the path is left alone if it begins
with one itself, and is otherwise promoted as its full path is from any other working directory. -/
theorem promotion_joined (hpath : AtRoot path ∨ IsRelative path) (hfull : Full cwd path full) :
    (OnDrive cwd → ∀ p ∈ verbatimPrefixes, ¬ p <+: full)
      ∧ ((∀ p ∈ verbatimPrefixes, ¬ p <+: full) →
        ((∃ p ∈ verbatimPrefixes, p <+: path) → promote path cwd = none)
          ∧ ((∀ p ∈ verbatimPrefixes, ¬ p <+: path) →
            ∀ other, promote path cwd = promote full other)) := by
  have habs : ¬ Absolute path := hpath.elim AtRoot.not_absolute IsRelative.not_absolute
  refine ⟨fun hcwd => (hfull.onDrive habs hcwd).not_isVerbatim, fun hplain => ⟨?_, ?_⟩⟩
  · intro hverbatim
    rw [hfull.promote_eq, if_pos (isVerbatim_iff.2 hverbatim)]
  · -- The full path stands for itself, so both sides come down to its extended form.
    intro hverbatim other
    rw [hfull.promote_eq, (Full.absolute hfull.isAbsolute).promote_eq,
      if_neg (not_isVerbatim_iff.2 hverbatim), if_neg (not_isVerbatim_iff.2 hplain)]

/-- The root directory of a drive. -/
def driveRoot : Bytes := [67, colon, backslash]

/-- A long name. -/
def longName : Bytes := List.replicate 250 97

theorem isRelative_longName : IsRelative longName := by
  refine ⟨by decide +kernel, ?_⟩
  rintro ⟨letter, rest, heq, -⟩
  have hsecond : longName.tail.head? = some 97 := rfl
  rw [heq] at hsecond
  cases hsecond

theorem onDrive_driveRoot : OnDrive driveRoot := ⟨67, backslash, [], rfl, rfl, rfl⟩

/-- A long name in the root directory of a drive is promoted as the full path is. -/
theorem promotion_joined_longName :
    OnDrive driveRoot ∧ promote longName driveRoot = promote (driveRoot ++ longName) []
      ∧ promote longName driveRoot = some (mark ++ driveRoot ++ longName) := by
  have hfull : Full driveRoot longName (driveRoot ++ longName) :=
    .within isRelative_longName (.inl onDrive_driveRoot) ⟨backslash, rfl, rfl⟩
  have h := promotion_joined (.inr isRelative_longName) hfull
  have hname : ∀ p ∈ verbatimPrefixes, ¬ p <+: longName := by decide +kernel
  exact ⟨onDrive_driveRoot, (h.2 (h.1 onDrive_driveRoot)).2 hname [], by decide +kernel⟩

/-- The same name behind one of the prefixes that are left alone, a backslash and two question
marks: a path at the root. -/
def objectName : Bytes := [backslash, question, question, backslash] ++ longName

theorem atRoot_objectName : AtRoot objectName := by
  refine ⟨⟨backslash, _, rfl, rfl⟩, ?_⟩
  rintro ⟨first, second, rest, heq, -, hsecond⟩
  cases heq
  cases hsecond

theorem full_objectName : Full driveRoot objectName ([67, colon] ++ objectName) :=
  .rooted atRoot_objectName rfl (.drive rfl rfl [])

/-- A directory on a drive, in the extended form. -/
def extendedDirectory : Bytes := mark ++ driveRoot ++ [100]

theorem full_extendedDirectory :
    Full extendedDirectory longName (extendedDirectory ++ backslash :: longName) := by
  refine .below isRelative_longName (.inr ⟨backslash, backslash, _, rfl, rfl, rfl⟩) ?_
  rintro ⟨b, hlast, hsep⟩
  cases hlast
  cases hsep

/-- Neither condition can be left out.  A path at the root that is left alone has a full path that
is promoted; and a long name is promoted against a directory in the extended form, though its full
path is left alone. -/
theorem promotion_apart :
    (AtRoot objectName ∧ Full driveRoot objectName ([67, colon] ++ objectName)
        ∧ promote objectName driveRoot ≠ promote ([67, colon] ++ objectName) driveRoot)
      ∧ IsRelative longName
        ∧ Full extendedDirectory longName (extendedDirectory ++ backslash :: longName)
        ∧ promote longName extendedDirectory
          ≠ promote (extendedDirectory ++ backslash :: longName) driveRoot :=
  ⟨⟨atRoot_objectName, full_objectName, by decide +kernel⟩, isRelative_longName,
    full_extendedDirectory, by decide +kernel⟩

end PortableFiles.ExtendedPath
