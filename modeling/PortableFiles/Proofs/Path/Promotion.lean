import PortableFiles.Proofs.Path.Resolution
import PortableFiles.Proofs.Path.Roots
set_option autoImplicit false

/-!
# Promotion of long paths

Which paths have an extended form, and what it is, against a resolver that is said by the forms of
paths alone: the full path (`ExtendedPath.Full`), its root, and the names to which the components
below the root come down (`ExtendedPath.Extends`).  `ExtendedPath.promotion` says that promotion is
this resolver for the long paths, and that a promoted path is left as it is.
-/

namespace PortableFiles.ExtendedPath

variable {path cwd full out root extended rest : Bytes} {names : List Bytes}

/-! ## Full paths -/

/-- Whether a path ends in a separator. -/
def EndsInSeparator (path : Bytes) : Prop := ∃ b ∈ path.getLast?, isSeparator b = true

/-- The absolute path that a path stands for in a working directory. -/
inductive Full (cwd : Bytes) : Bytes → Bytes → Prop where
  /-- An absolute path stands for itself. -/
  | absolute {path : Bytes} (h : Absolute path) : Full cwd path path
  /-- A path at the root is put behind the root of the working directory. -/
  | rooted {path root extended rest : Bytes} (h : AtRoot path) (hcwd : cwd = root ++ rest)
      (hroot : Divides root extended rest) : Full cwd path (root ++ path)
  /-- A relative path is put behind a working directory that ends in a separator. -/
  | within {path : Bytes} (h : IsRelative path) (hcwd : Absolute cwd)
      (hsep : EndsInSeparator cwd) : Full cwd path (cwd ++ path)
  /-- Behind any other working directory, a backslash comes first. -/
  | below {path : Bytes} (h : IsRelative path) (hcwd : Absolute cwd)
      (hsep : ¬ EndsInSeparator cwd) : Full cwd path (cwd ++ backslash :: path)

theorem join_of_endsInSeparator (h : EndsInSeparator cwd) : join cwd path = cwd ++ path := by
  obtain ⟨b, hlast, hsep⟩ := h
  rw [join, Option.mem_def.1 hlast]
  exact if_pos hsep

theorem join_of_not_endsInSeparator (h : ¬ EndsInSeparator cwd) :
    join cwd path = cwd ++ backslash :: path := by
  unfold join
  split
  · rename_i b hlast
    exact if_neg fun hsep => h ⟨b, hlast, hsep⟩
  · rename_i hlast
    rw [List.getLast?_eq_none_iff.1 hlast, List.nil_append]

theorem Full.full?_eq (h : Full cwd path full) : full? path cwd = some full := by
  cases h with
  | absolute h =>
    rcases h with h | h
    · rw [full?, anchor_of_onDrive h]
    · rw [full?, anchor_of_onShare h]
  | rooted h hcwd hroot =>
    rw [full?, anchor_of_atRoot h, hcwd]
    simp only [hroot.root?_eq, Option.map_some]
  | within h hcwd hsep =>
    rw [full?, anchor_of_isRelative h]
    simp only [isAbsolute_iff.2 hcwd, if_true, join_of_endsInSeparator hsep]
  | below h hcwd hsep =>
    rw [full?, anchor_of_isRelative h]
    simp only [isAbsolute_iff.2 hcwd, if_true, join_of_not_endsInSeparator hsep]

theorem full?_eq_some_iff : full? path cwd = some full ↔ Full cwd path full := by
  constructor
  · intro h
    unfold full? at h
    cases hanchor : anchor path with
    | drive =>
      rw [hanchor] at h
      cases h
      exact .absolute (.inl (anchor_eq_iff.1 hanchor))
    | share =>
      rw [hanchor] at h
      cases h
      exact .absolute (.inr (anchor_eq_iff.1 hanchor))
    | driveRelative =>
      rw [hanchor] at h
      cases h
    | rooted =>
      rw [hanchor] at h
      obtain ⟨root, hroot, rfl⟩ := Option.map_eq_some_iff.1 h
      obtain ⟨extended, rest, hcwd, hdivides⟩ := root?_eq_some_iff.1 hroot
      exact .rooted (anchor_eq_iff.1 hanchor) hcwd hdivides
    | relative =>
      rw [hanchor] at h
      obtain ⟨hcwd, h⟩ := Option.ite_none_right_eq_some.1 h
      cases h
      have hrelative : IsRelative path := anchor_eq_iff.1 hanchor
      by_cases hsep : EndsInSeparator cwd
      · rw [join_of_endsInSeparator hsep]
        exact .within hrelative (isAbsolute_iff.1 hcwd) hsep
      · rw [join_of_not_endsInSeparator hsep]
        exact .below hrelative (isAbsolute_iff.1 hcwd) hsep
  · exact Full.full?_eq

/-- Full paths are absolute. -/
theorem Full.isAbsolute (h : Full cwd path full) : Absolute full := by
  cases h with
  | absolute h => exact h
  | rooted h hcwd hroot =>
    obtain ⟨⟨separator, tail, rfl, hsep⟩, -⟩ := h
    cases hroot with
    | drive hletter _ _ => exact .inl (onDrive_append hletter hsep tail)
    | share hfirst hsecond => exact .inr (onShare_append hfirst hsecond _ _)
  | within h hcwd hsep => exact hcwd.append path
  | below h hcwd hsep => exact hcwd.append (backslash :: path)

/-! ## Extended forms -/

/-- The extended form of an absolute path: its root behind the mark, and behind a backslash the
names to which the components below the root come down, with backslashes between them. -/
def Extends (full out : Bytes) : Prop :=
  ∃ root extended rest names, full = root ++ rest ∧ Divides root extended rest
    ∧ ResolvesTo (Text.splitOn isSeparator rest) names
    ∧ out = extended ++ backslash :: Text.joinWith backslash names

theorem render_eq (names : List Bytes) :
    render names = backslash :: Text.joinWith backslash names := by
  cases names with
  | nil => rfl
  | cons name names =>
    rw [render, if_neg (List.cons_ne_nil _ _)]
    induction names generalizing name with
    | nil => rw [List.flatMap_singleton, Text.joinWith]
    | cons next names ih =>
      rw [List.flatMap_cons, ih next, Text.joinWith_cons_cons, List.cons_append]

theorem extend?_eq_some_iff : extend? full = some out ↔ Extends full out := by
  rw [extend?, Option.map_eq_some_iff]
  simp only [render_eq]
  constructor
  · rintro ⟨⟨extended, rest⟩, hdivides, rfl⟩
    obtain ⟨root, hfull, hdivides⟩ := rootAndRest?_eq_some_iff.1 hdivides
    exact ⟨root, extended, rest, _, hfull, hdivides, resolvesTo_iff.2 rfl, rfl⟩
  · rintro ⟨root, extended, rest, names, hfull, hdivides, hresolves, rfl⟩
    refine ⟨(extended, rest), rootAndRest?_eq_some_iff.2 ⟨root, hfull, hdivides⟩, ?_⟩
    rw [resolvesTo_iff.1 hresolves]

/-- Exactly the paths that have a root have an extended form. -/
theorem exists_extends_iff : (∃ out, Extends full out) ↔ HasRoot full := by
  constructor
  · rintro ⟨out, root, extended, rest, names, rfl, hdivides, -⟩
    exact hdivides.hasRoot
  · intro h
    obtain ⟨root, extended, rest, rfl, hdivides⟩ := exists_divides h
    exact ⟨_, root, extended, rest, _, rfl, hdivides, resolvesTo_iff.2 rfl, rfl⟩

/-- An extended form begins with the mark. -/
theorem Divides.mark_prefix (h : Divides root extended rest) : mark <+: extended := by
  cases h with
  | drive => exact List.prefix_append _ _
  | share => exact ⟨_, (List.append_assoc mark [85, 78, 67, backslash] _).symm⟩

theorem isVerbatim_iff : isVerbatim path = true ↔ ∃ p ∈ verbatimPrefixes, p <+: path := by
  simp only [isVerbatim, List.any_eq_true, List.isPrefixOf_iff_prefix]

theorem not_isVerbatim_iff :
    ¬ isVerbatim path = true ↔ ∀ p ∈ verbatimPrefixes, ¬ p <+: path := by
  simp only [isVerbatim_iff, not_exists, not_and]

theorem IsPiece.slash_notMem {piece : Bytes} (h : IsPiece piece) : slash ∉ piece := by
  intro hmem
  have hsep := h.2 slash hmem
  cases hsep

theorem Divides.slash_notMem (h : Divides root extended rest) : slash ∉ extended := by
  cases h with
  | @drive letter _ hletter =>
    have hletter_ne : slash ≠ letter := by
      rintro rfl
      cases hletter
    have hmark : slash ∉ mark := by decide
    have hcolon : slash ≠ colon := by decide
    simp only [List.mem_append, List.mem_cons, List.not_mem_nil, hmark, hletter_ne, hcolon, or_self,
      not_false_eq_true]
  | share _ _ _ hserver hshare =>
    have hmark : slash ∉ shareMark := by decide
    have hbackslash : slash ≠ backslash := by decide
    simp only [List.mem_append, List.mem_cons, hmark, hbackslash, hserver.slash_notMem,
      hshare.slash_notMem, or_self, not_false_eq_true]

/-- No forward slash is left in an extended form. -/
theorem Extends.slash_notMem (h : Extends full out) : slash ∉ out := by
  obtain ⟨root, extended, rest, names, -, hdivides, hresolves, rfl⟩ := h
  have hbackslash : slash ≠ backslash := by decide
  have hnames : slash ∉ Text.joinWith backslash names := by
    intro hmem
    obtain heq | ⟨name, hname, hmem⟩ := Text.eq_or_mem_of_mem_joinWith hmem
    · exact hbackslash heq
    · rw [resolvesTo_iff.1 hresolves] at hname
      have hsep := Text.not_sep_of_mem_splitOn isSeparator rest name (mem_resolve hname).1 slash hmem
      cases hsep
  simp only [List.mem_append, List.mem_cons, hdivides.slash_notMem, hbackslash, hnames, or_self,
    not_false_eq_true]

/-- An extended form is left as it is. -/
theorem Extends.isVerbatim (h : Extends full out) : isVerbatim out = true := by
  obtain ⟨root, extended, rest, names, -, hdivides, -, rfl⟩ := h
  have hmark : mark ∈ verbatimPrefixes := by decide
  exact isVerbatim_iff.2 ⟨mark, hmark, hdivides.mark_prefix.trans (List.prefix_append _ _)⟩

/-! ## Promotion -/

theorem promote_eq_some_iff : promote path cwd = some out ↔
    (∀ p ∈ verbatimPrefixes, ¬ p <+: path)
      ∧ ∃ full, Full cwd path full ∧ maxShort < full.length ∧ Extends full out := by
  rw [promote, Option.ite_none_left_eq_some, Option.bind_eq_some_iff, not_isVerbatim_iff]
  simp only [full?_eq_some_iff, Option.ite_none_left_eq_some, Nat.not_le, extend?_eq_some_iff]

/-- A path that is not left alone is promoted by its full path alone. -/
theorem Full.promote_eq (h : Full cwd path full) :
    promote path cwd = if isVerbatim path then none
      else if full.length ≤ maxShort then none else extend? full := by
  rw [promote, h.full?_eq, Option.bind_some]

/-- An absolute path that has a root is promoted in any working directory as its extended form. -/
theorem Divides.promote_eq (h : Divides root extended rest) (cwd : Bytes) :
    promote (root ++ rest) cwd = if isVerbatim (root ++ rest) then none
      else if (root ++ rest).length ≤ maxShort then none
      else some (extended ++ backslash
        :: Text.joinWith backslash (resolve (Text.splitOn isSeparator rest))) := by
  have habsolute : Absolute (root ++ rest) := h.hasRoot.imp_right And.left
  have hextends : extend? (root ++ rest) = some _ :=
    extend?_eq_some_iff.2 ⟨root, extended, rest, _, rfl, h, resolvesTo_iff.2 rfl, rfl⟩
  rw [(Full.absolute habsolute).promote_eq, hextends]

/-- An absolute path without a root is left alone. -/
theorem promote_eq_none (habsolute : Absolute path) (hroot : ¬ HasRoot path) (cwd : Bytes) :
    promote path cwd = none := by
  have hextend : extend? path = none := by rw [extend?, (root?_eq_none hroot).2, Option.map_none]
  rw [(Full.absolute habsolute).promote_eq, hextend, ite_self, ite_self]

/-- Promotion is the resolver of long paths.  A path is promoted exactly if it has none of the three
prefixes of paths that are left alone, its full path is known and has more than 247 bytes, and the
full path names its server and its share if it is on one.  What comes out is the extended form of
the full path, in which no forward slash is left, and which is not promoted again. -/
theorem promotion (path cwd : Bytes) :
    (∀ out, promote path cwd = some out ↔
        (∀ p ∈ verbatimPrefixes, ¬ p <+: path)
          ∧ ∃ full, Full cwd path full ∧ 247 < full.length ∧ Extends full out)
      ∧ ((∃ out, promote path cwd = some out) ↔
        (∀ p ∈ verbatimPrefixes, ¬ p <+: path)
          ∧ ∃ full, Full cwd path full ∧ 247 < full.length ∧ (OnShare full → NamesShare full))
      ∧ ∀ out, promote path cwd = some out →
        slash ∉ out ∧ ∀ other, promote out other = none := by
  refine ⟨fun out => promote_eq_some_iff, ⟨?_, ?_⟩, ?_⟩
  · rintro ⟨out, h⟩
    obtain ⟨hplain, full, hfull, hlong, hextends⟩ := promote_eq_some_iff.1 h
    refine ⟨hplain, full, hfull, hlong, fun hshare => ?_⟩
    obtain hdrive | ⟨-, hnames⟩ := exists_extends_iff.1 ⟨out, hextends⟩
    · exact absurd hshare hdrive.not_onShare
    · exact hnames
  · rintro ⟨hplain, full, hfull, hlong, hnames⟩
    have hroot : HasRoot full := hfull.isAbsolute.imp_right fun h => ⟨h, hnames h⟩
    obtain ⟨out, hextends⟩ := exists_extends_iff.2 hroot
    exact ⟨out, promote_eq_some_iff.2 ⟨hplain, full, hfull, hlong, hextends⟩⟩
  · intro out h
    obtain ⟨-, full, -, -, hextends⟩ := promote_eq_some_iff.1 h
    exact ⟨hextends.slash_notMem, fun other => if_pos hextends.isVerbatim⟩

/-- A relative path that climbs out of a directory on a share, and tries to climb on. -/
def climbingPath : Bytes :=
  [dot, dot, slash, dot, dot, backslash, 120, slash] ++ List.replicate 250 98

/-- The extended form of that path: it stays on the share. -/
def climbedPath : Bytes :=
  shareMark ++ [115, backslash, 100, backslash, 120, backslash] ++ List.replicate 250 98

theorem promotion_climbing :
    promote climbingPath [backslash, slash, 115, slash, 100, backslash, 97] = some climbedPath
      ∧ slash ∉ climbedPath ∧ ∀ other, promote climbedPath other = none := by
  have h : promote climbingPath [backslash, slash, 115, slash, 100, backslash, 97]
      = some climbedPath := by
    decide +kernel
  exact ⟨h, (promotion climbingPath _).2.2 climbedPath h⟩

end PortableFiles.ExtendedPath
