import Mathlib.Logic.Relation
import PortableFiles.Proofs.Path.Promotion
set_option autoImplicit false

/-!
# Spellings of a path

One path can be written in many ways: with other separators, more of them, with `.`, with a name
that `..` takes back, with `..` at the root (`ExtendedPath.Respells`).  Two ways to write what
follows a root are spellings of each other if such changes, made and undone, lead from the one to
the other.  That is so exactly if both come down to the same names (`ExtendedPath.respelled_iff`),
and exactly then are long paths promoted alike (`ExtendedPath.promotion_respelled`).
-/

namespace PortableFiles.ExtendedPath

variable {rest rest' root root' : Bytes} {components shorter : List Bytes}

/-- One change to how the part of a path below its root is written. -/
inductive Respells : Bytes → Bytes → Prop where
  /-- A separator is another one. -/
  | separator (before after : Bytes) {s t : UInt8} (hs : isSeparator s = true)
      (ht : isSeparator t = true) : Respells (before ++ s :: after) (before ++ t :: after)
  /-- A separator is doubled. -/
  | doubled (before after : Bytes) {s t : UInt8} (hs : isSeparator s = true)
      (ht : isSeparator t = true) : Respells (before ++ s :: after) (before ++ s :: t :: after)
  /-- A separator comes last. -/
  | trailing (before : Bytes) {s : UInt8} (hs : isSeparator s = true) :
      Respells before (before ++ [s])
  /-- A component `.` is inserted. -/
  | stay (before after : Bytes) {s t : UInt8} (hs : isSeparator s = true)
      (ht : isSeparator t = true) :
      Respells (before ++ s :: after) (before ++ s :: dot :: t :: after)
  /-- A name is inserted with `..` after it. -/
  | back (before after : Bytes) {s t u : UInt8} {name : Bytes} (hs : isSeparator s = true)
      (ht : isSeparator t = true) (hu : isSeparator u = true) (hname : IsName name)
      (hpiece : IsPiece name) :
      Respells (before ++ s :: after)
        (before ++ s :: (name ++ t :: dot :: dot :: u :: after))
  /-- A component `..` is inserted at the root. -/
  | root (after : Bytes) {s t : UInt8} (hs : isSeparator s = true) (ht : isSeparator t = true) :
      Respells (s :: after) (s :: dot :: dot :: t :: after)

/-- Whether two ways to write the part of a path below its root are spellings of each other. -/
def Respelled (rest rest' : Bytes) : Prop := Relation.EqvGen Respells rest rest'

/-- The names to which the part of a path below its root comes down. -/
def namesBelow (rest : Bytes) : List Bytes := resolve (Text.splitOn isSeparator rest)

/-! ## Spellings come down to the same names -/

theorem splitOn_dot : Text.splitOn isSeparator [dot] = [[dot]] := rfl

theorem splitOn_dots : Text.splitOn isSeparator [dot, dot] = [[dot, dot]] := rfl

/-- No change in the spelling changes the names. -/
theorem Respells.namesBelow_eq (h : Respells rest rest') : namesBelow rest = namesBelow rest' := by
  unfold namesBelow
  cases h with
  | separator before after hs ht => rw [Text.splitOn_append hs, Text.splitOn_append ht]
  | doubled before after hs ht =>
    rw [Text.splitOn_append hs, Text.splitOn_append hs, Text.splitOn_cons_of_pos ht]
    exact (Shortens.stay _ _ (.inl rfl)).resolve_eq.symm
  | trailing before hs =>
    rw [Text.splitOn_append hs]
    have h := (Shortens.stay (Text.splitOn isSeparator rest) [] (.inl rfl)).resolve_eq
    rw [List.append_nil] at h
    exact h.symm
  | stay before after hs ht =>
    have hdot : Text.splitOn isSeparator (dot :: _ :: after) = _ := Text.splitOn_append ht [dot] after
    rw [Text.splitOn_append hs, Text.splitOn_append hs, hdot, splitOn_dot]
    exact (Shortens.stay _ _ (.inr rfl)).resolve_eq.symm
  | back before after hs ht hu hname hpiece =>
    have hdots : Text.splitOn isSeparator (dot :: dot :: _ :: after) = _ :=
      Text.splitOn_append hu [dot, dot] after
    rw [Text.splitOn_append hs, Text.splitOn_append hs, Text.splitOn_append ht, hdots,
      splitOn_dots, Text.splitOn_of_forall_not hpiece.2]
    exact (Shortens.back _ _ hname).resolve_eq.symm
  | root after hs ht =>
    have hdots : Text.splitOn isSeparator (dot :: dot :: _ :: after) = _ :=
      Text.splitOn_append ht [dot, dot] after
    rw [Text.splitOn_cons_of_pos hs, Text.splitOn_cons_of_pos hs, hdots, splitOn_dots]
    have hstay := fun after => (Shortens.stay [] after (.inl (rfl : ([] : Bytes) = []))).resolve_eq
    simp only [List.nil_append] at hstay
    rw [hstay, hstay]
    exact (Shortens.root _).resolve_eq.symm

theorem Respelled.namesBelow_eq (h : Respelled rest rest') :
    namesBelow rest = namesBelow rest' := by
  induction h with
  | rel _ _ hstep => exact hstep.namesBelow_eq
  | refl _ => rfl
  | symm _ _ _ ih => exact ih.symm
  | trans _ _ _ _ _ ih ih' => exact ih.trans ih'

/-! ## Every spelling can be changed into the plainest one -/

theorem Respells.respelled (h : Respells rest rest') : Respelled rest rest' := .rel _ _ h

theorem Respelled.symm (h : Respelled rest rest') : Respelled rest' rest :=
  Relation.EqvGen.symm _ _ h

theorem Respelled.trans {rest'' : Bytes} (h : Respelled rest rest') (h' : Respelled rest' rest'') :
    Respelled rest rest'' := Relation.EqvGen.trans _ _ _ h h'

instance : Trans Respelled Respelled Respelled := ⟨Respelled.trans⟩

/-- Components with a backslash before the first one and after each of them. -/
def written (components : List Bytes) : Bytes :=
  backslash :: components.flatMap fun component => component ++ [backslash]

/-- Wherever components are written behind others, a backslash comes before them. -/
theorem exists_written_append (before : List Bytes) :
    ∃ front, ∀ after, written (before ++ after)
      = front ++ backslash :: after.flatMap fun component => component ++ [backslash] := by
  rcases List.eq_nil_or_concat before with rfl | ⟨before, last, rfl⟩
  · exact ⟨[], fun after => rfl⟩
  · refine ⟨written before ++ last, fun after => ?_⟩
    simp [written]

/-- Leaving something out leaves the other components in their order. -/
theorem Shortens.sublist (h : Shortens components shorter) : List.Sublist shorter components := by
  cases h with
  | stay before after _ => exact (List.sublist_cons_self _ after).append_left before
  | back before after _ =>
    have hback := List.sublist_cons_self [dot, dot] after
    exact (hback.trans (List.sublist_cons_self _ _)).append_left before
  | root after => exact List.sublist_cons_self _ _

/-- Leaving something out of the components changes the spelling only. -/
theorem Shortens.respelled (h : Shortens components shorter)
    (hfree : ∀ component ∈ components, ∀ b ∈ component, isSeparator b = false) :
    Respelled (written components) (written shorter) := by
  have hbackslash : isSeparator backslash = true := rfl
  cases h with
  | stay before after hstay =>
    obtain ⟨front, hfront⟩ := exists_written_append before
    rw [hfront, hfront, List.flatMap_cons]
    rcases hstay with rfl | rfl
    · exact (Respells.doubled front _ hbackslash hbackslash).respelled.symm
    · exact (Respells.stay front _ hbackslash hbackslash).respelled.symm
  | @back before after name hname =>
    obtain ⟨front, hfront⟩ := exists_written_append before
    have hpiece : IsPiece name := ⟨hname.1, hfree name (by simp)⟩
    rw [hfront, hfront, List.flatMap_cons, List.flatMap_cons, List.append_assoc]
    exact (Respells.back front _ hbackslash hbackslash hbackslash hname hpiece).respelled.symm
  | root after => exact (Respells.root _ hbackslash hbackslash).respelled.symm

theorem respelled_of_shortens (h : Relation.ReflTransGen Shortens components shorter)
    (hfree : ∀ component ∈ components, ∀ b ∈ component, isSeparator b = false) :
    Respelled (written components) (written shorter)
      ∧ ∀ component ∈ shorter, ∀ b ∈ component, isSeparator b = false := by
  induction h with
  | refl => exact ⟨.refl _, hfree⟩
  | tail _ hstep ih =>
    obtain ⟨hrespelled, hbetween⟩ := ih
    exact ⟨hrespelled.trans (hstep.respelled hbetween),
      fun component hmem => hbetween component (hstep.sublist.subset hmem)⟩

/-- A path with a separator at its end may be written with backslashes. -/
theorem respelled_backslashes (before tail : Bytes) :
    Respelled (before ++ (tail ++ [backslash])) (before
      ++ (Text.splitOn isSeparator tail).flatMap fun component => component ++ [backslash]) := by
  induction tail generalizing before with
  | nil => exact .refl _
  | cons b tail ih =>
    by_cases hb : isSeparator b = true
    · rw [Text.splitOn_cons_of_pos hb, List.flatMap_cons]
      have hfirst := (Respells.separator before (tail ++ [backslash]) hb
        (rfl : isSeparator backslash = true)).respelled
      have hrest := ih (before ++ [backslash])
      rw [List.append_assoc, List.append_assoc] at hrest
      exact hfirst.trans hrest
    · have hrest := ih (before ++ [b])
      rw [Text.splitOn, if_neg hb]
      cases hsplit : Text.splitOn isSeparator tail with
      | nil => exact absurd hsplit (Text.splitOn_ne_nil isSeparator tail)
      | cons piece pieces =>
        rw [hsplit, List.append_assoc, List.append_assoc] at hrest
        exact hrest

/-- What follows a root may be written with its components. -/
theorem respelled_written_splitOn (h : IsBelow rest) :
    Respelled rest (written (Text.splitOn isSeparator rest)) := by
  have hbackslash : isSeparator backslash = true := rfl
  cases rest with
  | nil =>
    exact (Respells.trailing [] hbackslash).respelled.trans
      (Respells.doubled [] [] hbackslash hbackslash).respelled
  | cons b tail =>
    have hb : isSeparator b = true := h b rfl
    rw [Text.splitOn_cons_of_pos hb]
    calc
      Respelled (b :: tail) (backslash :: tail) :=
        (Respells.separator [] tail hb hbackslash).respelled
      Respelled _ (backslash :: backslash :: tail) :=
        (Respells.doubled [] tail hbackslash hbackslash).respelled
      Respelled _ (backslash :: backslash :: tail ++ [backslash]) :=
        (Respells.trailing _ hbackslash).respelled
      Respelled _ (written ([] :: Text.splitOn isSeparator tail)) :=
        respelled_backslashes [backslash, backslash] tail

/-- What follows a root may be written with the names to which it comes down. -/
theorem respelled_written_namesBelow (h : IsBelow rest) :
    Respelled rest (written (namesBelow rest)) := by
  have hshortens : Relation.ReflTransGen Shortens (Text.splitOn isSeparator rest)
      (namesBelow rest) := shortens_resolveFrom (fun _ h => absurd h List.not_mem_nil) _
  have hfree := Text.not_sep_of_mem_splitOn isSeparator rest
  exact (respelled_written_splitOn h).trans (respelled_of_shortens hshortens hfree).1

/-- Two ways to write what follows a root are spellings of each other exactly if they come down to
the same names. -/
theorem respelled_iff (h : IsBelow rest) (h' : IsBelow rest') :
    Respelled rest rest' ↔ namesBelow rest = namesBelow rest' := by
  constructor
  · exact Respelled.namesBelow_eq
  · intro hnames
    have hplain := respelled_written_namesBelow h
    rw [hnames] at hplain
    exact hplain.trans (respelled_written_namesBelow h').symm

/-! ## Promotion of spellings -/

/-- Names that look the same when they are written with backslashes between them are the same. -/
theorem eq_of_joinWith_namesBelow
    (h : Text.joinWith backslash (namesBelow rest) = Text.joinWith backslash (namesBelow rest')) :
    namesBelow rest = namesBelow rest' := by
  have hnames : ∀ rest, (Text.splitOn (· = backslash)
      (Text.joinWith backslash (namesBelow rest))).filter (· ≠ []) = namesBelow rest := by
    intro rest
    have hmem : ∀ name ∈ namesBelow rest, backslash ∉ name ∧ name ≠ [] := by
      intro name hname
      obtain ⟨hpiece, hisName⟩ := mem_resolve hname
      refine ⟨fun hbackslash => ?_, hisName.1⟩
      cases Text.not_sep_of_mem_splitOn isSeparator rest name hpiece backslash hbackslash
    rw [Text.filter_splitOn_joinWith fun name hname => (hmem name hname).1]
    exact List.filter_eq_self.2 fun name hname => decide_eq_true (hmem name hname).2
  rw [← hnames rest, h, hnames]

/-- Two ways to write one root: the same drive, or the same server and share behind and between any
separators. -/
inductive SameRoot : Bytes → Bytes → Prop where
  | drive {letter : UInt8} (hletter : isLetter letter = true) :
      SameRoot [letter, colon] [letter, colon]
  | share {first second between first' second' between' : UInt8} {server share : Bytes}
      (hfirst : isSeparator first = true) (hsecond : isSeparator second = true)
      (hbetween : isSeparator between = true) (hfirst' : isSeparator first' = true)
      (hsecond' : isSeparator second' = true) (hbetween' : isSeparator between' = true)
      (hserver : IsPiece server) (hshare : IsPiece share) :
      SameRoot (first :: second :: (server ++ between :: share))
        (first' :: second' :: (server ++ between' :: share))

/-- An absolute path on a drive is divided behind the drive. -/
theorem divides_drive {letter : UInt8} (hletter : isLetter letter = true) (hrest : IsBelow rest)
    (habsolute : Absolute ([letter, colon] ++ rest)) :
    Divides [letter, colon] (mark ++ [letter, colon]) rest := by
  cases rest with
  | nil =>
    obtain ⟨_, _, _, h, -⟩ | ⟨_, _, _, h, hfirst, -⟩ := habsolute
    · cases h
    · cases h
      rw [not_isSeparator_of_isLetter hletter] at hfirst
      cases hfirst
  | cons b tail => exact .drive hletter (hrest b rfl) tail

/-- A long absolute path is promoted to its root in the extended form and the names below it. -/
theorem Divides.promote_eq_some {extended : Bytes} (h : Divides root extended rest)
    (hplain : ∀ p ∈ verbatimPrefixes, ¬ p <+: root ++ rest) (hlong : 247 < (root ++ rest).length)
    (cwd : Bytes) : promote (root ++ rest) cwd
      = some (extended ++ backslash :: Text.joinWith backslash (namesBelow rest)) := by
  have hlimit : ¬ (root ++ rest).length ≤ maxShort := Nat.not_le.2 hlong
  rw [h.promote_eq, if_neg (not_isVerbatim_iff.2 hplain), if_neg hlimit, namesBelow]

/-- Roots that are the same become the same in the extended form. -/
theorem SameRoot.exists_divides (h : SameRoot root root') (hrest : IsBelow rest)
    (hrest' : IsBelow rest') (habsolute : Absolute (root ++ rest))
    (habsolute' : Absolute (root' ++ rest')) :
    ∃ extended, Divides root extended rest ∧ Divides root' extended rest' := by
  cases h with
  | drive hletter =>
    exact ⟨_, divides_drive hletter hrest habsolute, divides_drive hletter hrest' habsolute'⟩
  | share hfirst hsecond hbetween hfirst' hsecond' hbetween' hserver hshare =>
    exact ⟨_, .share hfirst hsecond hbetween hserver hshare hrest,
      .share hfirst' hsecond' hbetween' hserver hshare hrest'⟩

/-- Two long absolute paths with the same root, neither of which is left alone for its prefix.  Both
are promoted, whatever the working directories are, and to the same path exactly if what follows
their roots are spellings of each other. -/
theorem promotion_respelled (hroot : SameRoot root root') (hrest : IsBelow rest)
    (hrest' : IsBelow rest') (habsolute : Absolute (root ++ rest))
    (habsolute' : Absolute (root' ++ rest'))
    (hplain : ∀ p ∈ verbatimPrefixes, ¬ p <+: root ++ rest)
    (hplain' : ∀ p ∈ verbatimPrefixes, ¬ p <+: root' ++ rest')
    (hlong : 247 < (root ++ rest).length) (hlong' : 247 < (root' ++ rest').length)
    (cwd cwd' : Bytes) :
    (∃ out, promote (root ++ rest) cwd = some out)
      ∧ (promote (root ++ rest) cwd = promote (root' ++ rest') cwd' ↔ Respelled rest rest') := by
  obtain ⟨extended, hdivides, hdivides'⟩ := hroot.exists_divides hrest hrest' habsolute habsolute'
  have hpromote := hdivides.promote_eq_some hplain hlong cwd
  refine ⟨⟨_, hpromote⟩, ?_⟩
  rw [hpromote, hdivides'.promote_eq_some hplain' hlong' cwd', respelled_iff hrest hrest']
  constructor
  · intro h
    have hjoined := List.append_cancel_left (Option.some.inj h)
    exact eq_of_joinWith_namesBelow (List.cons.inj hjoined).2
  · intro h
    rw [h]

/-- A long name below a root. -/
def plainRest : Bytes := backslash :: List.replicate 250 97

/-- The same name behind `..` at the root, a name and another one in it that are both taken back,
and `.`, with a separator at its end. -/
def windingRest : Bytes :=
  [slash, dot, dot, backslash, backslash, 98, slash, 99, slash, dot, dot, backslash, dot, dot, slash,
    dot, backslash] ++ List.replicate 250 97 ++ [slash]

/-- On a drive, both are promoted to the same path. -/
theorem promotion_respelled_winding :
    Respelled plainRest windingRest
      ∧ promote ([67, colon] ++ plainRest) [] = promote ([67, colon] ++ windingRest) [slash] := by
  have hrest : IsBelow plainRest := by
    intro b hb
    cases hb
    rfl
  have hrest' : IsBelow windingRest := by
    intro b hb
    cases hb
    rfl
  have hnames : namesBelow plainRest = namesBelow windingRest := by decide +kernel
  have hrespelled : Respelled plainRest windingRest := (respelled_iff hrest hrest').2 hnames
  have h := promotion_respelled (.drive (rfl : isLetter 67 = true)) hrest hrest'
    (.inl ⟨67, backslash, _, rfl, rfl, rfl⟩) (.inl ⟨67, slash, _, rfl, rfl, rfl⟩)
    (by decide +kernel) (by decide +kernel) (by decide +kernel) (by decide +kernel) [] [slash]
  exact ⟨hrespelled, h.2.2 hrespelled⟩

end PortableFiles.ExtendedPath
