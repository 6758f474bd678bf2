import PortableFiles.Proofs.Kernel.Calls
set_option autoImplicit false

/-!
# What opening a file comes to

Opening finds a file, or makes one under a free name, or makes one without a name
(`Machine.opened_of_openFile`); where it must be new, only the second can be
(`Machine.openFile_making_eq_ok`).  Only what is made has permissions that depend on the mask
(`Machine.perm_of_openFile`).  A file that is found is opened as it is, or its bytes are dropped
(`Machine.openExisting_eq_ok`), unless it had to be missing (`Machine.openFile_eq_entryExists`).
That a new file exists already is said exactly where something is in its way
(`Machine.Taken.openFile_eq`, `Machine.taken_of_openFile`).
-/

namespace PortableFiles

/-- A walk that stops at no link which it could have followed is also a walk on which all links are
followed. -/
theorem Tree.Walks.followed {t : Tree} {who : Credentials} {follow : Bool → Bool} {budget : Nat}
    {d : InodeId} {steps : List Step} {slash : Bool} {place : Place}
    (hplace : ∀ dir name slash, place = .entry dir name slash →
      follow slash = true ∨ isLink ((t.child? dir name).bind t.content?) = false)
    (h : Walks t who follow budget d steps slash place) :
    Walks t who (fun _ => true) budget d steps slash place := by
  induction h with
  | reached => exact .reached
  | dot hpass => exact .dot hpass
  | dotdot hpass => exact .dotdot hpass
  | stay hpass hrest _ ih => exact .stay hpass hrest (ih hplace)
  | ascend hpass hrest _ ih => exact .ascend hpass hrest (ih hplace)
  | @last _ d n slash hpass hname =>
    refine .last hpass (Or.inr (hname.elim (fun hstop => ?_) id))
    rcases hplace d n slash rfl with hgo | hlink
    · rw [hstop] at hgo
      cases hgo
    · exact hlink
  | descend hpass hrest hlink hfind hdirectory _ ih =>
    exact .descend hpass hrest hlink hfind hdirectory (ih hplace)
  | symlink hpass _ hlink _ ih => exact .symlink hpass (Or.inr rfl) hlink (ih hplace)
  | jump hpass _ hlink _ ih => exact .jump hpass (Or.inr rfl) hlink (ih hplace)

namespace Machine

variable {m m' : Machine} {path : Path} {how : OpenHow} {perm : UInt32} {id : InodeId}
  {location : Location} {file : Descriptor} {node : Inode}

/-- A path that leads to a place, and to no link which it could have followed there, leads to it
when every link is followed. -/
theorem locate_followed {follow : Bool → Bool} {place : Place}
    (hplace : ∀ dir name slash, place = .entry dir name slash →
      follow slash = true ∨ Tree.isLink ((m.tree.child? dir name).bind m.tree.content?) = false)
    (h : m.locate follow path = .ok place) : m.locate (fun _ => true) path = .ok place := by
  have hwalks := (walks_of_locate h).followed hplace
  unfold locate Tree.locate at h ⊢
  obtain ⟨hempty, h⟩ := ite_error_eq_ok_iff.1 h
  obtain ⟨hlong, -⟩ := ite_error_eq_ok_iff.1 h
  rw [if_neg hempty, if_neg hlong]
  exact (Tree.walk_eq_ok_iff _ _ _).2 hwalks

/-- A path to a free name leads to it when every link is followed. -/
theorem locate_followed_of_vacant {follow : Bool → Bool} {dir : InodeId} {name : Name}
    {slash : Bool} (hvacant : m.tree.Vacant dir name)
    (h : m.locate follow path = .ok (.entry dir name slash)) :
    m.locate (fun _ => true) path = .ok (.entry dir name slash) := by
  refine locate_followed ?_ h
  rintro _ _ _ ⟨⟩
  exact Or.inr (by rw [hvacant.child?]; rfl)

/-! ## A file that is there -/

/-- The machine in which the bytes of a file are dropped. -/
def emptied (m : Machine) (id : InodeId) : Machine :=
  (m.withTree (m.tree.updateInode id (m.changed (.file [])))).stampModify id

/-- A file that is there is opened as it is, unless it holds bytes that shall be dropped. -/
theorem openExisting_eq_ok {opened : Descriptor × Machine}
    (h : m.openExisting how id location = .ok opened) :
    ∃ node, m.tree.inode? id = some node
      ∧ (how.reference = false → m.mayOpenInode how node = .ok ())
      ∧ opened = (if !how.reference && how.truncate && node.content.data?.isSome then m.emptied id
          else m).openAs (how.file id location) := by
  unfold openExisting at h
  cases hnode : m.tree.inode? id with
  | none => simp [hnode] at h
  | some node =>
    simp only [hnode] at h
    obtain ⟨-, h⟩ := ite_error_eq_ok_iff.1 h
    cases hreference : how.reference with
    | true =>
      rw [if_pos hreference] at h
      obtain ⟨-, h⟩ := ite_error_eq_ok_iff.1 h
      exact ⟨node, rfl, nofun, (Except.ok.inj h).symm⟩
    | false =>
      rw [if_neg (by simp [hreference])] at h
      obtain ⟨_, hmay, h⟩ := bind_eq_ok_iff.1 h
      refine ⟨node, rfl, fun _ => hmay, ?_⟩
      rw [Bool.not_false, Bool.true_and]
      split at h
      · rename_i hdrop
        rw [if_pos hdrop]
        exact (Except.ok.inj h).symm
      · rename_i hdrop
        rw [if_neg hdrop]
        exact (Except.ok.inj h).symm

/-- Opening a file that is there makes no inode. -/
theorem isSome_inode?_of_openExisting (h : m.openExisting how id location = .ok (file, m'))
    (i : InodeId) : (m'.tree.inode? i).isSome = (m.tree.inode? i).isSome := by
  obtain ⟨node, -, -, hopened⟩ := openExisting_eq_ok h
  cases hopened
  change ((ite _ _ _ : Machine).tree.inode? i).isSome = _
  split
  · change ((m.tree.updateInode id _).inode? i).isSome = _
    rw [Tree.inode?_updateInode]
    split
    · rename_i hi
      rw [Option.isSome_map, hi]
    · rfl
  · rfl

/-! ## Every way to open -/

/-- How a file comes to be open. -/
inductive Opened (m : Machine) (path : Path) (how : OpenHow) (perm : UInt32) :
    Descriptor × Machine → Prop where
  /-- It was there. -/
  | found {id : InodeId} {location : Location} {opened : Descriptor × Machine}
      (hplace : m.resolve how.follows path = .ok id)
      (hallowed : (how.create && how.exclusive) = false)
      (h : m.openExisting how id location = .ok opened) : Opened m path how perm opened
  /-- It is made under a free name. -/
  | made {dir : InodeId} {name : Name} (hcreate : how.create = true)
      (hplace : m.locate how.follows path = .ok (.entry dir name false))
      (hvacant : m.tree.Vacant dir name) (hallowed : m.mayChangeEntries dir = .ok ()) :
      Opened m path how perm ((m.create dir name (.file []) (m.masked perm)).openAs
        (how.file m.tree.nextId (.entry dir name)))
  /-- It is made without a name. -/
  | unnamed {dir : InodeId} {location : Location} (hunnamed : how.unnamed = true) :
      Opened m path how perm
        (((m.withTree (m.tree.addInode (m.newInode dir (.file []) (m.masked perm)))).stampBirth
          m.tree.nextId).openAs (how.file m.tree.nextId location))

theorem opened_of_openFile {opened : Descriptor × Machine}
    (h : m.openFile path how perm = .ok opened) : m.Opened path how perm opened := by
  unfold openFile at h
  obtain ⟨-, h⟩ := ite_error_eq_ok_iff.1 h
  obtain ⟨-, h⟩ := ite_error_eq_ok_iff.1 h
  obtain ⟨-, h⟩ := ite_error_eq_ok_iff.1 h
  obtain ⟨-, h⟩ := ite_error_eq_ok_iff.1 h
  split at h
  · rename_i hunnamed
    obtain ⟨dir, -, h⟩ := bind_eq_ok_iff.1 h
    obtain ⟨-, h⟩ := ite_error_eq_ok_iff.1 h
    obtain ⟨-, h⟩ := ite_error_eq_ok_iff.1 h
    obtain ⟨-, h⟩ := ite_error_eq_ok_iff.1 h
    cases h
    exact .unnamed hunnamed
  · obtain ⟨place, hplace, h⟩ := bind_eq_ok_iff.1 h
    cases place with
    | reached dir =>
      obtain ⟨id, hid, h⟩ := bind_eq_ok_iff.1 h
      obtain ⟨hallowed, h⟩ := ite_error_eq_ok_iff.1 h
      exact .found (bind_eq_ok_iff.2 ⟨_, hplace, hid⟩) (by simpa using hallowed) h
    | dots dir up =>
      obtain ⟨id, hid, h⟩ := bind_eq_ok_iff.1 h
      obtain ⟨hallowed, h⟩ := ite_error_eq_ok_iff.1 h
      exact .found (bind_eq_ok_iff.2 ⟨_, hplace, hid⟩) (by simpa using hallowed) h
    | entry dir name slash =>
      obtain ⟨hslash, h⟩ := ite_error_eq_ok_iff.1 h
      obtain ⟨found, hfound, h⟩ := bind_eq_ok_iff.1 h
      cases found with
      | some id =>
        obtain ⟨hallowed, h⟩ := ite_error_eq_ok_iff.1 h
        obtain ⟨hkind, h⟩ := ite_error_eq_ok_iff.1 h
        refine .found (bind_eq_ok_iff.2 ⟨_, hplace, bind_eq_ok_iff.2 ⟨_, hfound, ?_⟩⟩)
          (by simpa using hallowed) h
        exact if_neg hkind
      | none =>
        obtain ⟨hcreate, h⟩ := ite_error_eq_ok_iff.1 h
        obtain ⟨_, hallowed, h⟩ := bind_eq_ok_iff.1 h
        have hcreate : how.create = true := by simpa using hcreate
        have hslash : slash = false := by simpa [hcreate] using hslash
        rw [hslash] at hplace
        obtain rfl := Except.ok.inj h
        exact .made hcreate hplace ⟨isDirectory_of_locate hplace, hfound⟩ hallowed

theorem follows_making : OpenHow.making.follows = fun _ => false := by
  funext slash
  cases slash <;> rfl

/-- Opening for a new file, where it succeeds, makes an entry that was free. -/
theorem openFile_making_eq_ok (h : m.openFile path .making perm = .ok (file, m')) :
    ∃ dir name, m.locate (fun _ => false) path = .ok (.entry dir name false)
      ∧ m.tree.Vacant dir name ∧ m.mayChangeEntries dir = .ok ()
      ∧ (file, m') = (m.create dir name (.file []) (m.masked perm)).openAs
          (OpenHow.making.file m.tree.nextId (.entry dir name)) := by
  generalize hopened : (file, m') = opened at h
  cases opened_of_openFile h with
  | found _ hinclusive _ => cases hinclusive
  | @made dir name _ hplace hvacant hallowed =>
    rw [follows_making] at hplace
    exact ⟨dir, name, hplace, hvacant, hallowed, rfl⟩
  | unnamed hunnamed => cases hunnamed

/-- Where no link is followed at its end, a path without a separator there leads to no name with a
separator after it. -/
theorem ne_entry_of_unslashed {place : Place} (hpath : path.bytes.getLast? ≠ some Path.slash)
    (h : m.locate (fun _ => false) path = .ok place) (dir : InodeId) (name : Name) :
    place ≠ .entry dir name true := by
  rintro rfl
  obtain ⟨hslash, -⟩ := (walks_of_locate h).last_step fun _ => rfl
  simp [Route.ofBytes, hpath] at hslash

/-- What must be missing is not opened where something is, be it a link that leads nowhere. -/
theorem openFile_eq_entryExists {place : Place} (hsound : how.isSound = true)
    (hcreate : how.create = true) (hexclusive : how.exclusive = true)
    (hnamed : how.unnamed = false) (hopen : m.mayOpen = true)
    (hplace : m.locate (fun _ => false) path = .ok place)
    (hslash : ∀ dir name, place ≠ .entry dir name true) (hid : m.tree.inodeAt place = .ok id) :
    m.openFile path how perm = .error .entryExists := by
  obtain ⟨hne, hshort⟩ := bounds_of_locate hplace
  have hfollows : how.follows = fun _ => false := by
    funext slash
    simp [OpenHow.follows, hcreate, hexclusive]
  unfold openFile
  rw [hsound, hopen, hnamed, if_neg (by decide), if_neg hne, if_neg (Nat.not_le.2 hshort),
    if_neg (by decide), if_neg (by decide), hfollows, hplace, hcreate, hexclusive]
  cases place with
  | reached dir => rfl
  | dots dir up => rfl
  | entry dir name slash =>
    have hslash : slash = false := by
      cases slash with
      | false => rfl
      | true => exact absurd rfl (hslash dir name)
    obtain ⟨found, hfound, hid⟩ := bind_eq_ok_iff.1 hid
    subst hslash
    change (m.tree.find dir name >>= _) = _
    rw [hfound]
    cases found with
    | none => cases hid
    | some _ => rfl

/-- Whether something is in the way of a new file at a path: a file, a directory or a link, be it
one that leads nowhere.  Where a separator ends the path, no file is asked for. -/
def Taken (m : Machine) (path : Path) : Prop :=
  ∃ place id, m.locate (fun _ => false) path = .ok place ∧ m.tree.inodeAt place = .ok id
    ∧ ∀ dir name, place ≠ .entry dir name true

/-- Whether a path leads to a name that is free. -/
def Unused (m : Machine) (path : Path) : Prop :=
  ∃ dir name, m.locate (fun _ => false) path = .ok (.entry dir name false)
    ∧ m.tree.Vacant dir name

/-- What a directory holds is in the way. -/
theorem taken_of_child? (dir : InodeId) (name : Name)
    (hplace : m.locate (fun _ => false) path = .ok (.entry dir name false))
    (hentry : m.tree.child? dir name = some id) : m.Taken path := by
  refine ⟨_, id, hplace, bind_eq_ok_iff.2 ⟨some id, ?_, rfl⟩, nofun⟩
  rw [Tree.find, hentry]

/-- Nothing is in the way at a free name. -/
theorem Unused.not_taken (h : m.Unused path) : ¬ m.Taken path := by
  rintro ⟨place, id, hplace, hid, -⟩
  obtain ⟨dir, name, hplace', hvacant⟩ := h
  obtain rfl := Except.ok.inj (hplace'.symm.trans hplace)
  obtain ⟨found, hfound, hid⟩ := bind_eq_ok_iff.1 hid
  obtain rfl := Except.ok.inj (hvacant.find.symm.trans hfound)
  cases hid

/-- Where something is in the way, a new file is not made. -/
theorem Taken.openFile_eq (h : m.Taken path) (hopen : m.mayOpen = true) (perm : UInt32) :
    m.openFile path .making perm = .error .entryExists := by
  obtain ⟨place, id, hplace, hid, hslash⟩ := h
  exact openFile_eq_entryExists rfl rfl rfl rfl hopen hplace hslash hid

/-- That something is in the way is said only where something is. -/
theorem taken_of_openFile (h : m.openFile path .making perm = .error .entryExists) :
    m.Taken path := by
  unfold openFile at h
  obtain ⟨-, h⟩ := eq_error_of_ite (by decide) h
  obtain ⟨-, h⟩ := eq_error_of_ite (by decide) h
  obtain ⟨-, h⟩ := eq_error_of_ite (by decide) h
  obtain ⟨-, h⟩ := eq_error_of_ite (by decide) h
  rw [if_neg (by decide), follows_making] at h
  rcases bind_eq_error_iff.1 h with hlost | ⟨place, hplace, h⟩
  · exact absurd hlost ((Tree.locate_failsWith m.cwd path).ne (by decide))
  cases place with
  | reached dir => exact ⟨_, _, hplace, rfl, nofun⟩
  | dots dir up => exact ⟨_, _, hplace, rfl, nofun⟩
  | entry dir name slash =>
    obtain ⟨hslash, h⟩ := eq_error_of_ite (by decide) h
    obtain rfl : slash = false := by simpa [OpenHow.making] using hslash
    rcases bind_eq_error_iff.1 h with hfind | ⟨found, hfound, h⟩
    · exact absurd hfind ((Tree.find_failsWith dir name).ne (by decide))
    cases found with
    | some id => exact ⟨_, id, hplace, bind_eq_ok_iff.2 ⟨_, hfound, rfl⟩, nofun⟩
    | none =>
      obtain ⟨-, h⟩ := eq_error_of_ite (by decide) h
      rcases bind_eq_error_iff.1 h with hallowed | ⟨_, -, h⟩
      · exact absurd hallowed ((mayChangeEntries_failsWith dir).ne (by decide))
      · cases h

theorem newInode_file_perm (m : Machine) (dir : InodeId) (data : Bytes) (perm : UInt32) :
    (m.newInode dir (.file data) perm).perm = perm := by
  simp [newInode, Content.isDirectory, Content.entries?]

/-- A file that opening makes has the permissions that were asked for, without the bits of the
mask. -/
theorem perm_of_openFile (h : m.openFile path how perm = .ok (file, m'))
    (hbefore : m.tree.inode? id = none) (hafter : m'.tree.inode? id = some node) :
    node.perm = m.masked perm := by
  have hnew : ∀ dir, (m.newInode dir (.file []) (m.masked perm)).perm = m.masked perm := fun dir =>
    m.newInode_file_perm dir [] _
  generalize hopened : (file, m') = opened at h
  cases opened_of_openFile h with
  | found _ _ hexisting =>
    rw [← hopened] at hexisting
    have hsome := isSome_inode?_of_openExisting hexisting id
    rw [hbefore, hafter] at hsome
    cases hsome
  | @made dir name _ hplace hvacant _ =>
    cases hopened
    change (m.tree.addEntry dir name _).inode? id = some node at hafter
    rw [Tree.inode?_addEntry hvacant.isDirectory] at hafter
    split at hafter
    · cases hafter
      exact hnew dir
    · split at hafter
      · rename_i hid
        rw [← hid, hbefore] at hafter
        cases hafter
      · rw [hbefore] at hafter
        cases hafter
  | @unnamed dir _ _ =>
    cases hopened
    change (m.tree.addInode _).inode? id = some node at hafter
    rw [Tree.inode?_addInode] at hafter
    split at hafter
    · cases hafter
      exact hnew dir
    · rw [hbefore] at hafter
      cases hafter

end Machine

end PortableFiles
