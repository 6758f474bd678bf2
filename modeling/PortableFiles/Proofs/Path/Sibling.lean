import PortableFiles.Proofs.Kernel.Stage
import PortableFiles.Proofs.Path.Names
set_option autoImplicit false

/-!
# Files beside a path

`Path.parentDir` drops the last component of a path by its text, and a walk knows nothing of that.
Where a path leads to a name, a plain name joined with its parent leads to that name in the same
directory, whatever separators and dots the path is written with (`Machine.eq_of_sibling`).
-/

namespace PortableFiles.Path

variable {path : Path}

/-! ## Trimming -/

theorem trimEnd_append_filler {α : Type} (p : α → Bool) (l : List α) :
    ∃ dropped, l = trimEnd p l ++ dropped ∧ ∀ a ∈ dropped, p a = true := by
  refine ⟨(l.reverse.takeWhile p).reverse, ?_, ?_⟩
  · have hsplit := List.takeWhile_append_dropWhile (p := p) (l := l.reverse)
    have hreverse := congrArg List.reverse hsplit
    rw [List.reverse_append, List.reverse_reverse] at hreverse
    exact hreverse.symm
  · intro a ha
    rw [List.mem_reverse] at ha
    exact List.all_eq_true.1 List.all_takeWhile a ha

/-- What is left after trimming does not end in something to trim. -/
theorem getLast?_trimEnd {α : Type} {p : α → Bool} {l : List α} {a : α}
    (h : (trimEnd p l).getLast? = some a) : p a = false := by
  rw [← List.head?_reverse] at h
  exact head?_reverse_trimEnd p l a h

/-- Pieces that do not count are no names, or they are `.`. -/
theorem filter_of_forall_isFiller {pieces : List Bytes}
    (h : ∀ piece ∈ pieces, isFiller piece = true) :
    pieces.filter (· ≠ []) = List.replicate (pieces.filter (· ≠ [])).length [dot] := by
  refine List.eq_replicate_of_mem ?_
  intro piece hpiece
  obtain ⟨hmem, hne⟩ := List.mem_filter.1 hpiece
  have hfiller := h piece hmem
  simp only [isFiller, Bool.or_eq_true, decide_eq_true_eq] at hfiller
  exact hfiller.resolve_left (by simpa using hne)

/-! ## The anchor and the pieces -/

/-- The name that the anchor of a path is. -/
def anchorNames (path : Path) : List Bytes :=
  if path.isAbsolute then [] else if path.startsAtDot then [[dot]] else []

theorem noSlash_of_mem_pieces {piece : Bytes} (h : piece ∈ path.pieces) :
    ∀ b ∈ piece, b ≠ slash := by
  intro b hb
  have := Text.not_sep_of_mem_splitOn (· = slash) _ piece h b hb
  simpa using this

/-- How a path starts: at the root, at `.`, or with a name. -/
theorem anchor_cases (path : Path) :
    (path.isAbsolute = true ∧ ∃ rest, path.bytes = slash :: rest ∧ path.anchor = [slash]
        ∧ anchorNames path = [] ∧ path.pieces = Text.splitOn (· = slash) rest)
      ∨ (path.isAbsolute = false ∧ path.bytes = [dot] ∧ path.anchor = [dot]
        ∧ anchorNames path = [[dot]] ∧ path.pieces = [[]])
      ∨ (path.isAbsolute = false ∧ ∃ rest, path.bytes = dot :: slash :: rest ∧ path.anchor = [dot]
        ∧ anchorNames path = [[dot]] ∧ path.pieces = [] :: Text.splitOn (· = slash) rest)
      ∨ (path.isAbsolute = false ∧ path.anchor = [] ∧ anchorNames path = []
        ∧ path.pieces = Text.splitOn (· = slash) path.bytes) := by
  obtain ⟨bytes⟩ := path
  have hdot : ¬ dot = slash := by decide
  cases bytes with
  | nil => exact Or.inr (Or.inr (Or.inr ⟨rfl, rfl, rfl, rfl⟩))
  | cons b rest =>
    by_cases hb : b = slash
    · subst hb
      exact Or.inl ⟨rfl, rest, rfl, rfl, rfl, rfl⟩
    · have hrelative : isAbsolute ⟨b :: rest⟩ = false := by simp [isAbsolute, hb]
      by_cases hcurrent : b = dot
      · subst hcurrent
        cases rest with
        | nil => exact Or.inr (Or.inl ⟨rfl, rfl, rfl, rfl, rfl⟩)
        | cons c rest =>
          by_cases hc : c = slash
          · subst hc
            exact Or.inr (Or.inr (Or.inl ⟨rfl, rest, rfl, rfl, rfl, rfl⟩))
          · have hname : startsAtDot ⟨dot :: c :: rest⟩ = false := by simp [startsAtDot, hc]
            refine Or.inr (Or.inr (Or.inr ⟨hrelative, ?_, ?_, ?_⟩)) <;>
              simp [anchor, anchorNames, pieces, hrelative, hname]
      · have hname : startsAtDot ⟨b :: rest⟩ = false := by
          cases rest <;> simp [startsAtDot, hcurrent]
        refine Or.inr (Or.inr (Or.inr ⟨hrelative, ?_, ?_, ?_⟩)) <;>
          simp [anchor, anchorNames, pieces, hrelative, hname]

/-- The names along a path are that of its anchor and the pieces after it. -/
theorem names_eq (path : Path) :
    names path.bytes = anchorNames path ++ path.pieces.filter (· ≠ []) := by
  rcases anchor_cases path with ⟨-, rest, hbytes, -, hnames, hpieces⟩ |
    ⟨-, hbytes, -, hnames, hpieces⟩ | ⟨-, rest, hbytes, -, hnames, hpieces⟩ |
    ⟨-, -, hnames, hpieces⟩
  · rw [hbytes, hnames, hpieces, names_slash_cons]
    rfl
  · rw [hbytes, hnames, hpieces]
    decide
  · rw [hbytes, hnames, hpieces]
    exact names_append [dot] rest
  · rw [hnames, hpieces]
    rfl

/-! ## The parent of a path -/

theorem joinWith_isPrefix_append (a : UInt8) (l r : List Bytes) :
    Text.joinWith a l <+: Text.joinWith a (l ++ r) := by
  induction l with
  | nil => exact List.nil_prefix
  | cons piece rest ih =>
    cases rest with
    | nil =>
      cases r with
      | nil => exact List.prefix_rfl
      | cons next r => exact List.prefix_append _ _
    | cons next rest =>
      rw [List.cons_append, List.cons_append, Text.joinWith_cons_cons, Text.joinWith_cons_cons]
      exact (List.prefix_append_right_inj _).2 ((List.prefix_cons_inj a).2 ih)

/-- A path is its anchor and its pieces. -/
theorem anchor_append_joinWith (path : Path) :
    path.anchor ++ Text.joinWith slash path.pieces = path.bytes := by
  have hjoin : Text.joinWith slash path.pieces = path.bytes.drop path.anchor.length :=
    Text.joinWith_splitOn slash _
  rw [hjoin]
  rcases anchor_cases path with ⟨-, rest, hbytes, hanchor, -⟩ | ⟨-, hbytes, hanchor, -⟩ |
    ⟨-, rest, hbytes, hanchor, -⟩ | ⟨-, hanchor, -⟩
  · rw [hbytes, hanchor]
    rfl
  · rw [hbytes, hanchor]
    rfl
  · rw [hbytes, hanchor]
    rfl
  · rw [hanchor]
    rfl

/-- The names along the anchor and the first pieces of a path, where the last of these counts. -/
theorem names_anchor_append {kept others : List Bytes} (hpieces : path.pieces = kept ++ others)
    (hlast : ∀ piece, kept.getLast? = some piece → isFiller piece = false) :
    names (path.anchor ++ Text.joinWith slash kept)
      = anchorNames path ++ kept.filter (· ≠ []) := by
  have hnames : names (Text.joinWith slash kept) = kept.filter (· ≠ []) :=
    names_joinWith fun piece hpiece => by
      refine noSlash_of_mem_pieces (?_ : piece ∈ path.pieces)
      rw [hpieces]
      exact List.mem_append_left _ hpiece
  -- After a leading `.` the first piece is empty, and a separator stands before all others.
  have hdotted : path.pieces.head? = some [] →
      names ([dot] ++ Text.joinWith slash kept) = [[dot]] ++ kept.filter (· ≠ []) := by
    intro hfirst
    cases kept with
    | nil => decide
    | cons first rest =>
      obtain rfl : first = [] := by simpa [hpieces] using hfirst
      cases rest with
      | nil => exact absurd (hlast [] rfl) (by decide)
      | cons next rest =>
        rw [Text.joinWith_cons_cons, List.nil_append, names_slash_cons] at hnames
        rw [Text.joinWith_cons_cons, List.nil_append, names_append, hnames]
        rfl
  rcases anchor_cases path with ⟨-, rest, -, hanchor, hanchorNames, -⟩ |
    ⟨-, -, hanchor, hanchorNames, hall⟩ | ⟨-, rest, -, hanchor, hanchorNames, hall⟩ |
    ⟨-, hanchor, hanchorNames, -⟩
  · rw [hanchor, hanchorNames]
    exact (names_slash_cons _).trans hnames
  · rw [hanchor, hanchorNames]
    exact hdotted (by rw [hall]; rfl)
  · rw [hanchor, hanchorNames]
    exact hdotted (by rw [hall]; rfl)
  · rw [hanchor, hanchorNames]
    exact hnames

/-- The names along a path that ends in a name are those along its parent, after which there may be
`.`, and the last name. -/
theorem parent?_of_names_eq {before : List Bytes} {x : Bytes} (hx : x ≠ [dot])
    (hnames : names path.bytes = before ++ [x]) :
    ∃ parent count, path.parent? = some parent ∧ path.anchor <+: parent.bytes
      ∧ parent.bytes <+: path.bytes
      ∧ before = names parent.bytes ++ List.replicate count [dot] := by
  obtain ⟨fillers, hfillers, hfiller⟩ := trimEnd_append_filler isFiller path.pieces
  rw [names_eq, hfillers, List.filter_append, filter_of_forall_isFiller hfiller,
    ← List.append_assoc] at hnames
  -- No `.` stands at the end, because the last name is another one.
  have hnone : (fillers.filter (· ≠ [])).length = 0 := by
    cases hlength : (fillers.filter (· ≠ [])).length with
    | zero => rfl
    | succ count =>
      rw [hlength, List.replicate_succ', ← List.append_assoc] at hnames
      obtain ⟨-, hlast⟩ := List.append_inj' hnames rfl
      exact absurd (List.singleton_inj.1 hlast).symm hx
  rw [hnone, List.replicate_zero, List.append_nil] at hnames
  cases hreverse : (trimEnd isFiller path.pieces).reverse with
  | nil =>
    rw [List.reverse_eq_nil_iff.1 hreverse] at hnames
    have hanchor : anchorNames path = [] ∨ anchorNames path = [[dot]] := by
      unfold anchorNames
      split
      · exact Or.inl rfl
      · split
        · exact Or.inr rfl
        · exact Or.inl rfl
    rcases hanchor with hanchor | hanchor
    · simp [hanchor] at hnames
    · rw [hanchor, List.filter_nil, List.append_nil] at hnames
      have hlast := congrArg List.getLast? hnames
      rw [List.getLast?_concat] at hlast
      exact absurd (Option.some.inj hlast).symm hx
  | cons last rest =>
    have htrimmed : trimEnd isFiller path.pieces = rest.reverse ++ [last] := by
      rw [← List.reverse_reverse (trimEnd isFiller path.pieces), hreverse, List.reverse_cons]
    have hcounts : isFiller last = false :=
      getLast?_trimEnd (l := path.pieces) (by rw [htrimmed]; simp)
    have hlast : last ≠ [] := by
      rintro rfl
      cases hcounts
    obtain ⟨skipped, hskipped, hskips⟩ := trimEnd_append_filler isFiller rest.reverse
    have hpieces : path.pieces
        = trimEnd isFiller rest.reverse ++ (skipped ++ ([last] ++ fillers)) := by
      rw [← List.append_assoc, ← hskipped, ← List.append_assoc, ← htrimmed]
      exact hfillers
    have hparent := names_anchor_append hpieces fun piece hpiece => getLast?_trimEnd hpiece
    rw [htrimmed, List.filter_append, List.filter_cons_of_pos (by simpa using hlast),
      List.filter_nil, ← List.append_assoc] at hnames
    obtain ⟨hbefore, -⟩ := List.append_inj' hnames rfl
    refine ⟨⟨path.anchor ++ Text.joinWith slash (trimEnd isFiller rest.reverse)⟩,
      (skipped.filter (· ≠ [])).length, ?_, List.prefix_append _ _, ?_, ?_⟩
    · rw [parent?, hreverse]
    · rw [← anchor_append_joinWith path, hpieces]
      exact (List.prefix_append_right_inj _).2 (joinWith_isPrefix_append slash _ _)
    · rw [← hbefore, hparent, ← filter_of_forall_isFiller hskips, List.append_assoc,
        ← List.filter_append, ← hskipped]

/-- Whether a path is absolute is seen at its parent. -/
theorem isAbsolute_parentDir {parent : Path} (hparent : path.parent? = some parent)
    (hanchor : path.anchor <+: parent.bytes) (hbytes : parent.bytes <+: path.bytes) :
    path.parentDir.isAbsolute = path.isAbsolute := by
  obtain ⟨rest, hrest⟩ := hbytes
  unfold parentDir
  rw [hparent]
  cases hbytes : parent.bytes with
  | nil =>
    have hempty : parent.isEmpty = true := by rw [isEmpty, hbytes]; rfl
    simp only [hempty, if_true]
    rcases anchor_cases path with ⟨-, _, -, hslash, -⟩ | ⟨h, -⟩ | ⟨h, -⟩ | ⟨h, -⟩
    · rw [hslash, hbytes] at hanchor
      exact absurd hanchor (by decide)
    · rw [h]
      rfl
    · rw [h]
      rfl
    · rw [h]
      rfl
  | cons b front =>
    have hfull : parent.isEmpty = false := by rw [isEmpty, hbytes]; rfl
    rw [hbytes] at hrest
    simp [hfull, isAbsolute, hbytes, ← hrest]

/-- Joining a plain name does not change whether a path is absolute. -/
theorem isAbsolute_join {dir : Path} {name : Name} (h : IsPlain name) (hdir : dir.bytes ≠ []) :
    (dir.join name).isAbsolute = dir.isAbsolute := by
  have hhead : ¬ name.head? = some slash := by
    intro hslash
    exact h.noSlash slash (List.mem_of_head? hslash) rfl
  obtain ⟨b, front, hbytes⟩ := List.exists_cons_of_ne_nil hdir
  unfold join
  rw [if_neg hhead]
  split
  · simp [isAbsolute, hbytes]
  · simp [isAbsolute, hbytes]

/-- The parent of a path is the empty path, or the anchor and the first pieces of the path, the last
of which counts. -/
theorem parent?_eq_some {parent : Path} (h : path.parent? = some parent) :
    parent.bytes = [] ∨ ∃ kept others, path.pieces = kept ++ others
      ∧ (∀ piece, kept.getLast? = some piece → isFiller piece = false)
      ∧ parent.bytes = path.anchor ++ Text.joinWith slash kept := by
  unfold parent? at h
  split at h
  · split at h
    · cases h
      exact Or.inl rfl
    · cases h
  · rename_i last before hreverse
    cases h
    obtain ⟨fillers, hfillers, -⟩ := trimEnd_append_filler isFiller path.pieces
    obtain ⟨skipped, hskipped, -⟩ := trimEnd_append_filler isFiller before.reverse
    have htrimmed : trimEnd isFiller path.pieces = before.reverse ++ [last] := by
      rw [← List.reverse_reverse (trimEnd isFiller path.pieces), hreverse, List.reverse_cons]
    refine Or.inr ⟨_, skipped ++ ([last] ++ fillers), ?_, fun _ hpiece => getLast?_trimEnd hpiece,
      rfl⟩
    rw [← List.append_assoc, ← hskipped, ← List.append_assoc, ← htrimmed]
    exact hfillers

/-- The directory of a path is written with bytes of the path, or it is `.`. -/
theorem mem_bytes_of_mem_parentDir {b : UInt8} (hb : b ∈ path.parentDir.bytes) :
    b ∈ path.bytes ∨ b = dot := by
  unfold parentDir at hb
  split at hb
  · rename_i parent hparent
    split at hb
    · exact Or.inr (List.mem_singleton.1 hb)
    · rcases parent?_eq_some hparent with hnil | ⟨kept, others, hpieces, -, hbytes⟩
      · rw [hnil] at hb
        cases hb
      · have hinitial : parent.bytes <+: path.bytes := by
          rw [← anchor_append_joinWith path, hpieces, hbytes]
          exact (List.prefix_append_right_inj _).2 (joinWith_isPrefix_append slash _ _)
        exact Or.inl (hinitial.subset hb)
  · exact Or.inr (List.mem_singleton.1 hb)

theorem parentDir_ne_nil (path : Path) : path.parentDir.bytes ≠ [] := by
  unfold parentDir
  split
  · split
    · simp [current]
    · rename_i hempty
      simpa [isEmpty] using hempty
  · simp [current]

end PortableFiles.Path

namespace PortableFiles

open PortableFiles.Path

/-! ## Walks to siblings -/

theorem Route.stepOf_eq_descend {component x : Bytes} (h : Route.stepOf component = .descend x) :
    component = x ∧ component ≠ [dot] := by
  unfold Route.stepOf at h
  split at h
  · cases h
  · rename_i hdot
    split at h
    · cases h
    · cases h
      exact ⟨rfl, hdot⟩

/-- The steps along some `.` are no steps. -/
theorem Tree.Walks.drop_stays {t : Tree} {who : Credentials} {follow : Bool → Bool} {budget : Nat}
    {d : InodeId} {before after : List Step} {slash : Bool} {place : Place} (hafter : after ≠ [])
    (count : Nat)
    (h : Tree.Walks t who follow budget d (before ++ (List.replicate count .stay ++ after)) slash
      place) :
    Tree.Walks t who follow budget d (before ++ after) slash place := by
  induction count with
  | zero => exact h
  | succ count ih => exact ih (h.drop_stay (by simp [hafter]))

variable {m : Machine} {path : Path} {dir d : InodeId} {name n x : Name} {slash slash' : Bool}

/-- A plain name that a walk goes down to, joined with a directory, leads to that name. -/
theorem Machine.name_eq_of_locate_join {directory : Path} (hplain : IsPlain n)
    (hstep : Route.stepOf n = .descend n)
    (h : m.locate (fun _ => false) (directory.join n) = .ok (.entry d x slash)) : x = n := by
  obtain ⟨-, before, hsteps⟩ := (walks_of_locate h).last_step fun _ => rfl
  rw [steps_ofBytes, names_join directory hplain, List.map_append, List.map_singleton,
    hstep] at hsteps
  obtain ⟨-, hlast⟩ := List.append_inj' hsteps rfl
  have hname : Step.descend n = Step.descend x := List.singleton_inj.1 hlast
  cases hname
  rfl

/-- A path that ends in a plain name ends without a separator. -/
theorem Route.slash_ofBytes_join (directory : Path) (h : IsPlain n) :
    (Route.ofBytes (directory.join n).bytes).slash = false := by
  have hlast : (directory.join n).bytes.getLast? = n.getLast? := by
    obtain ⟨front, last, rfl⟩ := List.eq_nil_or_concat n |>.resolve_left h.ne_nil
    unfold join
    split
    · rfl
    · split
      · simp
      · rw [List.concat_eq_append, ← List.cons_append, ← List.append_assoc,
          List.getLast?_concat, List.getLast?_concat]
  have hplain : n.getLast? ≠ some Path.slash := by
    intro hslash
    exact h.noSlash Path.slash (List.mem_of_getLast? hslash) rfl
  simp only [ofBytes, hlast, hplain, decide_false, Bool.and_false]

/-- A plain name joined with the parent of a path leads to that name in the directory in which the
path ends. -/
theorem Machine.locate_sibling (hplain : IsPlain n) (hstep : Route.stepOf n = .descend n)
    (hshort : (path.parentDir.join n).bytes.length < Tree.maxPath)
    (hpath : m.locate (fun _ => false) path = .ok (.entry dir name slash)) :
    m.locate (fun _ => false) (path.parentDir.join n) = .ok (.entry dir n false) := by
  have hwalks := walks_of_locate hpath
  rw [steps_ofBytes] at hwalks
  obtain ⟨rfl, before, hsteps⟩ := hwalks.last_step fun _ => rfl
  obtain ⟨front, last, hnames, hfront, hlast⟩ := List.map_eq_append_iff.1 hsteps
  obtain ⟨component, rfl, hcomponent⟩ := List.map_eq_singleton_iff.1 hlast
  obtain ⟨rfl, hdot⟩ := Route.stepOf_eq_descend hcomponent
  obtain ⟨parent, count, hparent, hanchor, hbytes, rfl⟩ := parent?_of_names_eq hdot hnames
  -- Both walks start at one directory.
  have habsolute : (path.parentDir.join n).isAbsolute = path.isAbsolute :=
    (isAbsolute_join hplain (parentDir_ne_nil path)).trans
      (isAbsolute_parentDir hparent hanchor hbytes)
  have hstart : m.tree.start m.cwd (.ofBytes (path.parentDir.join n).bytes)
      = m.tree.start m.cwd (.ofBytes path.bytes) := by
    change (if (path.parentDir.join n).isAbsolute then _ else _) = if path.isAbsolute then _ else _
    rw [habsolute]
  -- The walk to the sibling along the steps of the path.
  have hmap : (names path.bytes).map Route.stepOf
      = (names parent.bytes).map Route.stepOf
        ++ (List.replicate count .stay ++ [.descend component]) := by
    rw [hnames, List.map_append, List.map_append, List.map_replicate, List.map_singleton,
      hcomponent, List.append_assoc]
    rfl
  rw [hmap] at hwalks
  have hbeside := (hwalks.drop_stays (by simp) count).retarget (fun _ => rfl) n false
  -- The steps of the sibling's own path are these, after `.` if the path has no directory.
  have hsibling : Tree.Walks m.tree m.who (fun _ => false) Tree.maxLinks
      (m.tree.start m.cwd (.ofBytes path.bytes))
      ((names path.parentDir.bytes).map Route.stepOf ++ [.descend n]) false
      (.entry dir n false) := by
    have hparentDir : path.parentDir = if parent.isEmpty then current else parent := by
      rw [parentDir, hparent]
    rw [hparentDir]
    cases hempty : parent.isEmpty with
    | true =>
      have hnone : parent.bytes = [] := List.isEmpty_iff.1 hempty
      rw [hnone] at hbeside
      exact .stay hbeside.pass_start (by simp) hbeside
    | false => exact hbeside
  have hroute : (Route.ofBytes (path.parentDir.join n).bytes).steps
      = (names path.parentDir.bytes).map Route.stepOf ++ [.descend n] := by
    rw [steps_ofBytes, names_join path.parentDir hplain, List.map_append, List.map_singleton, hstep]
  have hne : (path.parentDir.join n).bytes ≠ [] := by
    intro hnil
    have hnames := names_join path.parentDir hplain
    rw [hnil] at hnames
    simp [names_nil] at hnames
  unfold locate Tree.locate
  rw [if_neg hne, if_neg (Nat.not_le.2 hshort), Tree.walk_eq_ok_iff, hstart, hroute,
    Route.slash_ofBytes_join path.parentDir hplain]
  exact hsibling

/-- A plain name joined with the parent of a path leads into the directory in which the path
ends. -/
theorem Machine.eq_of_sibling (hplain : IsPlain n) (hstep : Route.stepOf n = .descend n)
    (hpath : m.locate (fun _ => false) path = .ok (.entry dir name slash))
    (hsibling : m.locate (fun _ => false) (path.parentDir.join n) = .ok (.entry d x slash')) :
    d = dir := by
  rw [locate_sibling hplain hstep (bounds_of_locate hsibling).2 hpath] at hsibling
  cases hsibling
  rfl

end PortableFiles
