import PortableFiles.Proofs.Path.Promotion
set_option autoImplicit false

/-!
# Paths to devices

A path to a device looks like one on a share: behind two separators stands `?` or `.` in the place
of the server, and a separator after it.  Such a path is left alone if all three separators are
backslashes.  Spelled with a slash among them it is promoted as a path on a server of that name
would be (`ExtendedPath.promotion_device`).
-/

namespace PortableFiles.ExtendedPath

variable {first second server third : UInt8} {tail share rest path cwd out : Bytes}

/-- Whether a byte stands in the place of the server in a path to a device. -/
def IsDevice (server : UInt8) : Prop := server = question ∨ server = dot

theorem IsDevice.not_isSeparator (h : IsDevice server) : isSeparator server = false := by
  rcases h with rfl | rfl <;> rfl

/-- Of the spellings of a path to a device, the one with backslashes is left alone. -/
theorem IsDevice.isVerbatim_iff (h : IsDevice server) (hsecond : isSeparator second = true) :
    isVerbatim (first :: second :: server :: third :: tail) = true
      ↔ first = backslash ∧ second = backslash ∧ third = backslash := by
  have hquestion : ¬ second = question := by
    rintro rfl
    cases hsecond
  simp only [ExtendedPath.isVerbatim_iff, verbatimPrefixes, mark, List.mem_cons, List.not_mem_nil,
    or_false, exists_eq_or_imp, exists_eq_left, List.cons_prefix_cons, List.nil_prefix, and_true]
  rcases h with rfl | rfl <;> grind

/-- The root of a path to a device is that of a path on a share of a server with this name. -/
theorem IsDevice.divides (h : IsDevice server) (hfirst : isSeparator first = true)
    (hsecond : isSeparator second = true) (hthird : isSeparator third = true)
    (hshare : IsPiece share) (hrest : IsBelow rest) :
    Divides (first :: second :: server :: third :: share)
      (shareMark ++ server :: backslash :: share) rest := by
  have hserver : IsPiece [server] := by
    refine ⟨List.cons_ne_nil _ _, ?_⟩
    intro b hb
    rw [List.mem_singleton.1 hb]
    exact h.not_isSeparator
  exact .share hfirst hsecond hthird hserver hshare hrest

/-- A path to a device without a name behind it has no root. -/
theorem IsDevice.not_hasRoot (h : IsDevice server) (hfirst : isSeparator first = true)
    (hsecond : isSeparator second = true) (hthird : isSeparator third = true)
    (htail : IsBelow tail) : ¬ HasRoot (first :: second :: server :: third :: tail) := by
  have hsplit : ∃ more,
      Text.splitOn isSeparator (server :: third :: tail) = [server] :: [] :: more := by
    obtain ⟨more, hmore⟩ := htail.exists_splitOn_eq
    have hserver : Text.splitOn isSeparator [server] = [[server]] :=
      Text.splitOn_of_forall_not fun b hb => by
        rw [List.mem_singleton.1 hb]
        exact h.not_isSeparator
    refine ⟨more, (Text.splitOn_append hthird [server] tail).trans ?_⟩
    rw [hserver, hmore, List.singleton_append]
  rintro (hdrive | ⟨-, server', share, more, hnames, -, hshare⟩)
  · exact hdrive.not_onShare ⟨first, second, _, rfl, hfirst, hsecond⟩
  · obtain ⟨more', hmore'⟩ := hsplit
    rw [List.drop_succ_cons, List.drop_succ_cons, List.drop_zero, hmore'] at hnames
    cases hnames
    exact hshare rfl

/-- A path that is spelled like one to a device, with any separators.  It is left alone in every
working directory if the separators are backslashes, if it is short, and if no name follows.
Otherwise it is promoted, and what comes out begins with the mark of a path on a share and with the
device as the name of the server. -/
theorem promotion_device (hpath : path = first :: second :: server :: third :: tail)
    (hfirst : isSeparator first = true) (hsecond : isSeparator second = true)
    (hserver : IsDevice server) (hthird : isSeparator third = true) (cwd : Bytes) :
    (promote path cwd = none ↔
        (first = backslash ∧ second = backslash ∧ third = backslash)
          ∨ path.length ≤ 247 ∨ IsBelow tail)
      ∧ ∀ out, promote path cwd = some out →
        ∃ share rest names, tail = share ++ rest ∧ IsPiece share ∧ IsBelow rest
          ∧ ResolvesTo (Text.splitOn isSeparator rest) names
          ∧ out = shareMark ++ server :: backslash
              :: (share ++ backslash :: Text.joinWith backslash names) := by
  by_cases htail : IsBelow tail
  · have hnone : promote path cwd = none := by
      rw [hpath]
      exact promote_eq_none (.inr ⟨first, second, _, rfl, hfirst, hsecond⟩)
        (hserver.not_hasRoot hfirst hsecond hthird htail) cwd
    simp [hnone, htail]
  · obtain ⟨share, rest, rfl, hshare, hrest⟩ := exists_piece_of_not_isBelow htail
    have hpromote := (hserver.divides hfirst hsecond hthird hshare hrest).promote_eq cwd
    rw [List.cons_append, List.cons_append, List.cons_append, List.cons_append, ← hpath] at hpromote
    have hverbatim : isVerbatim path = true
        ↔ first = backslash ∧ second = backslash ∧ third = backslash := by
      rw [hpath]
      exact hserver.isVerbatim_iff hsecond
    rw [hpromote]
    constructor
    · rw [← hverbatim]
      by_cases hleft : isVerbatim path = true
      · simp [hleft]
      · simp [hleft, htail, maxShort]
    · intro out hout
      obtain ⟨-, hout⟩ := Option.ite_none_left_eq_some.1 hout
      obtain ⟨-, hout⟩ := Option.ite_none_left_eq_some.1 hout
      cases hout
      refine ⟨share, rest, _, rfl, hshare, hrest, resolvesTo_iff.2 rfl, ?_⟩
      simp only [List.append_assoc, List.cons_append]

/-- A path on a drive behind the prefix of the extended form, spelled with slashes. -/
def slashedPath : Bytes :=
  [slash, slash, question, slash, 67, colon, slash] ++ List.replicate 250 97

/-- It is promoted as a path on the share `C:` of a server `?`. -/
theorem promotion_device_slashed :
    promote slashedPath [67, colon, backslash] ≠ none
      ∧ promote slashedPath [67, colon, backslash]
        = some (shareMark ++ [question, backslash, 67, colon, backslash] ++ List.replicate 250 97) := by
  have hpath : slashedPath = slash :: slash :: question :: slash :: slashedPath.drop 4 := rfl
  have h := promotion_device hpath rfl rfl (.inl rfl) rfl [67, colon, backslash]
  refine ⟨fun hnone => ?_, by decide +kernel⟩
  rcases h.1.1 hnone with ⟨hfirst, -⟩ | hshort | hbelow
  · exact absurd hfirst (by decide)
  · exact absurd hshort (by decide +kernel)
  · exact absurd (hbelow 67 rfl) (by decide)

end PortableFiles.ExtendedPath
