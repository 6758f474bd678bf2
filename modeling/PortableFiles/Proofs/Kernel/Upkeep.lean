import PortableFiles.Proofs.Kernel.WellFormed
import PortableFiles.Session.Run
set_option autoImplicit false

/-!
# Trees stay well-formed

No call lets an entry, a link or a step up lead nowhere, and none makes a directory its own entry.
Each change of a tree is a step (`Tree.Upholds`), and a call makes a few of them
(`Call.wellFormed_perform`).  So every machine that a program reaches from a well-formed one is
well-formed (`Program.Runs.wellFormed`), and a session never has any other
(`Session.wellFormed_foldl_stepUnder`).
-/

namespace PortableFiles

namespace Tree

variable {t t' t'' : Tree} {dir id : InodeId} {name : Name}

/-! ## Steps -/

/-- Whether a tree is well-formed and has every inode of another one. -/
structure Upholds (t t' : Tree) : Prop where
  inodes : ∀ id, (t.inode? id).isSome = true → (t'.inode? id).isSome = true
  wellFormed : t'.WellFormed

theorem Upholds.refl (hw : t.WellFormed) : t.Upholds t := ⟨fun _ h => h, hw⟩

theorem Upholds.trans (h : t.Upholds t') (h' : t'.Upholds t'') : t.Upholds t'' :=
  ⟨fun id hid => h'.inodes id (h.inodes id hid), h'.wellFormed⟩

/-- A change keeps a tree well-formed if what is new in it is. -/
theorem Upholds.of_new (hw : t.WellFormed) (hroot : t'.root = t.root)
    (hinodes : ∀ id, (t.inode? id).isSome = true → (t'.inode? id).isSome = true)
    (hentries : ∀ d n i, t'.child? d n = some i →
      t.child? d n = some i ∨ ((t'.inode? i).isSome = true ∧ i ≠ d))
    (hparents : ∀ d, (t'.inode? d).isSome = true →
      ((t.inode? d).isSome = true ∧ t'.parent d = t.parent d)
        ∨ (t'.inode? (t'.parent d)).isSome = true)
    (hjumps : ∀ i d, t'.content? i = some (.jump d) → t.content? i = some (.jump d)) :
    t.Upholds t' := by
  refine ⟨hinodes, ?_, ?_, ?_, ?_, ?_⟩
  · rw [hroot]
    exact hinodes _ hw.root
  · intro d n i h
    rcases hentries d n i h with hold | ⟨hnew, -⟩
    · exact hinodes i (hw.entries d n i hold)
    · exact hnew
  · intro d hd
    rcases hparents d hd with ⟨hold, hparent⟩ | hnew
    · rw [hparent]
      exact hinodes _ (hw.parents d hold)
    · exact hnew
  · intro i d h
    exact hinodes d (hw.jumps i d (hjumps i d h))
  · intro d n h
    rcases hentries d n d h with hold | ⟨-, hne⟩
    · exact hw.apart d n hold
    · exact hne rfl

theorem isSome_inode?_updateInode (t : Tree) (id i : InodeId) (f : Inode → Inode) :
    ((t.updateInode id f).inode? i).isSome = (t.inode? i).isSome := by
  rw [inode?_updateInode]
  split
  · rename_i hi
    rw [hi, Option.isSome_map]
  · rfl

/-- Whether the inode `id` may get a content in place of another one: another file, or a directory
that leads to nothing which is not there and holds itself under no new name. -/
inductive Admits (t : Tree) (id : InodeId) : Content → Content → Prop
  | same {content : Content} : Admits t id content content
  | file {old new : Bytes} : Admits t id (.file old) (.file new)
  | directory {above above' : InodeId} {entries entries' : FinMap Name InodeId}
      (habove : above' = above ∨ (t.inode? above').isSome = true)
      (hentries : ∀ n i, entries'.get? n = some i →
        entries.get? n = some i ∨ ((t.inode? i).isSome = true ∧ i ≠ id)) :
      Admits t id (.directory above entries) (.directory above' entries')

/-- Contents before and after the change of an inode. -/
theorem content?_updateInode_cases (t : Tree) (id i : InodeId) (f : Inode → Inode) :
    (t.updateInode id f).content? i = t.content? i
      ∨ ∃ node, i = id ∧ t.inode? id = some node ∧ t.content? i = some node.content
          ∧ (t.updateInode id f).content? i = some (f node).content := by
  by_cases hi : i = id
  · cases hnode : t.inode? id with
    | none => exact Or.inl (by simp [content?, inode?_updateInode, hi, hnode])
    | some node =>
      refine Or.inr ⟨node, hi, rfl, ?_, ?_⟩
      · simp [content?, hi, hnode]
      · simp [content?, inode?_updateInode, hi, hnode]
  · exact Or.inl (by simp [content?, inode?_updateInode, hi])

/-- Changing an inode keeps a tree well-formed if the tree admits the new content. -/
theorem Upholds.updateInode (hw : t.WellFormed) {f : Inode → Inode}
    (hf : ∀ node, t.inode? id = some node → t.Admits id node.content (f node).content) :
    t.Upholds (t.updateInode id f) := by
  have hcontent : ∀ i, (t.updateInode id f).content? i = t.content? i
      ∨ ∃ old new, i = id ∧ t.content? i = some old
          ∧ (t.updateInode id f).content? i = some new ∧ t.Admits id old new := by
    intro i
    rcases content?_updateInode_cases t id i f with hsame | ⟨node, hi, hnode, hold, hnew⟩
    · exact Or.inl hsame
    · exact Or.inr ⟨_, _, hi, hold, hnew, hf node hnode⟩
  refine .of_new hw rfl ?_ ?_ ?_ ?_
  · intro i hi
    rwa [isSome_inode?_updateInode]
  · intro d n i h
    rw [child?, entries?] at h
    rw [child?, entries?, isSome_inode?_updateInode]
    rcases hcontent d with hsame | ⟨old, new, hd, hold, hnew, hadmits⟩
    · rw [hsame] at h
      exact Or.inl h
    · rw [hnew] at h
      rw [hold, hd]
      cases hadmits with
      | same => exact Or.inl h
      | file => cases h
      | directory _ hentries => exact hentries n i h
  · intro d hd
    rw [isSome_inode?_updateInode] at hd
    rw [isSome_inode?_updateInode, parent, parent]
    rcases hcontent d with hsame | ⟨old, new, -, hold, hnew, hadmits⟩
    · rw [hsame]
      exact Or.inl ⟨hd, rfl⟩
    · rw [hold, hnew]
      cases hadmits with
      | same => exact Or.inl ⟨hd, rfl⟩
      | file => exact Or.inl ⟨hd, rfl⟩
      | directory habove _ =>
        rcases habove with hkept | habove
        · exact Or.inl ⟨hd, hkept⟩
        · exact Or.inr habove
  · intro i d h
    rcases hcontent i with hsame | ⟨old, new, -, hold, hnew, hadmits⟩
    · rwa [hsame] at h
    · rw [hnew] at h
      cases hadmits with
      | same => rwa [hold]
      | file => cases h
      | directory _ _ => cases h

/-! ## Directories -/

theorem Upholds.updateEntries (hw : t.WellFormed)
    {f : FinMap Name InodeId → FinMap Name InodeId}
    (hf : ∀ entries n i, (f entries).get? n = some i →
      entries.get? n = some i ∨ ((t.inode? i).isSome = true ∧ i ≠ dir)) :
    t.Upholds (t.updateEntries dir f) := by
  rw [updateEntries_eq]
  refine updateInode hw ?_
  intro node _
  unfold Inode.mapEntries
  split
  · rename_i above entries hcontent
    rw [hcontent]
    exact .directory (Or.inl rfl) (hf entries)
  · exact .same

/-- An inode gets another name. -/
theorem Upholds.setEntry (hw : t.WellFormed) (hid : (t.inode? id).isSome = true)
    (hne : id ≠ dir) : t.Upholds (t.setEntry dir name id) := by
  refine updateEntries hw ?_
  intro entries n i h
  rw [FinMap.get?_insert] at h
  split at h
  · cases h
    exact Or.inr ⟨hid, hne⟩
  · exact Or.inl h

/-- A name is removed. -/
theorem Upholds.removeEntry (hw : t.WellFormed) : t.Upholds (t.removeEntry dir name) := by
  refine updateEntries hw ?_
  intro entries n i h
  rw [FinMap.get?_erase] at h
  split at h
  · cases h
  · exact Or.inl h

/-- A directory is moved below another one. -/
theorem Upholds.setParent (hw : t.WellFormed) {above : InodeId}
    (habove : (t.inode? above).isSome = true) : t.Upholds (t.setParent dir above) := by
  refine updateInode hw ?_
  intro node _
  split
  · rename_i entries hcontent
    rw [hcontent]
    exact .directory (Or.inr habove) fun _ _ h => Or.inl h
  · exact .same

/-! ## New inodes -/

/-- A new inode that leads nowhere, or is an empty directory below one that is there. -/
theorem Upholds.addInode (hw : t.WellFormed) {node : Inode}
    (hjump : ∀ d, node.content ≠ .jump d)
    (hdirectory : ∀ above entries, node.content = .directory above entries →
      entries = .empty ∧ (t.inode? above).isSome = true) : t.Upholds (t.addInode node) := by
  have hinodes : ∀ i, (t.inode? i).isSome = true → ((t.addInode node).inode? i).isSome = true := by
    intro i hi
    rwa [inode?_addInode, if_neg (ne_nextId_of_isSome hi)]
  have hnew : (t.addInode node).content? t.nextId = some node.content := by
    rw [content?, inode?_addInode, if_pos rfl]
    rfl
  have hold : ∀ i, i ≠ t.nextId → (t.addInode node).content? i = t.content? i := by
    intro i hi
    rw [content?, inode?_addInode, if_neg hi, content?]
  refine .of_new hw rfl hinodes ?_ ?_ ?_
  · intro d n i h
    by_cases hd : d = t.nextId
    · rw [child?, entries?, hd, hnew] at h
      cases hc : node.content with
      | directory above entries =>
        obtain ⟨rfl, -⟩ := hdirectory above entries hc
        rw [hc] at h
        cases h
      | _ =>
        rw [hc] at h
        cases h
    · refine Or.inl ?_
      rw [child?, entries?, hold d hd] at h
      exact h
  · intro d hd
    by_cases hd' : d = t.nextId
    · refine Or.inr ?_
      rw [parent, hd', hnew]
      cases hc : node.content with
      | directory above entries => exact hinodes above (hdirectory above entries hc).2
      | _ =>
        rw [inode?_addInode, if_pos rfl]
        rfl
    · refine Or.inl ⟨?_, ?_⟩
      · rwa [inode?_addInode, if_neg hd'] at hd
      · rw [parent, hold d hd', parent]
  · intro i d h
    by_cases hi : i = t.nextId
    · rw [hi, hnew] at h
      exact absurd (Option.some.inj h) (hjump d)
    · rwa [hold i hi] at h

/-- A new inode under a name. -/
theorem Upholds.addEntry (hw : t.WellFormed) (hdir : t.isDirectory dir = true) {node : Inode}
    (hjump : ∀ d, node.content ≠ .jump d)
    (hdirectory : ∀ above entries, node.content = .directory above entries →
      entries = .empty ∧ (t.inode? above).isSome = true) :
    t.Upholds (t.addEntry dir name node) := by
  have hadded := Upholds.addInode hw hjump hdirectory
  refine hadded.trans (.setEntry hadded.wellFormed ?_ (ne_nextId_of_isDirectory hdir).symm)
  rw [inode?_addInode, if_pos rfl]
  rfl

end Tree

/-! ## Calls -/

namespace Machine

variable {m m' : Machine} {dir id : InodeId} {name : Name} {path : Path}

/-- What a directory holds under a name is an inode. -/
theorem isSome_of_find (hm : m.WellFormed) (h : m.tree.find dir name = .ok (some id)) :
    (m.tree.inode? id).isSome = true :=
  hm.tree.entries dir name id (Tree.child?_eq_of_find h)

/-- What a path leads to is an inode. -/
theorem isSome_of_resolve (hm : m.WellFormed) {follow : Bool → Bool}
    (h : m.resolve follow path = .ok id) : (m.tree.inode? id).isSome = true := by
  obtain ⟨place, hplace, hid⟩ := bind_eq_ok_iff.1 h
  exact Tree.isSome_of_inodeAt hm.tree (isSome_origin_of_locate hm hplace) hid

theorem isDirectory_of_vacancy {directory : Bool}
    (h : m.vacancy path directory = .ok (dir, name)) : m.tree.isDirectory dir = true := by
  obtain ⟨place, hplace, h⟩ := bind_eq_ok_iff.1 h
  cases place with
  | reached dir => cases h
  | dots dir up => cases h
  | entry dir' name' slash =>
    obtain ⟨found, -, h⟩ := bind_eq_ok_iff.1 h
    cases found with
    | some id => cases h
    | none =>
      obtain ⟨-, h⟩ := ite_error_eq_ok_iff.1 h
      cases h
      exact isDirectory_of_locate hplace

/-- A new inode is made under a new name. -/
theorem upholds_create (hm : m.WellFormed) (hdir : m.tree.isDirectory dir = true)
    {content : Content} {perm : UInt32} (hjump : ∀ d, content ≠ .jump d)
    (hdirectory : ∀ above entries, content = .directory above entries →
      entries = .empty ∧ above = dir) :
    m.tree.Upholds (m.create dir name content perm).tree := by
  refine Tree.Upholds.addEntry hm.tree hdir hjump ?_
  intro above entries hcontent
  obtain ⟨hempty, rfl⟩ := hdirectory above entries hcontent
  exact ⟨hempty, Tree.isSome_inode?_of_isDirectory hdir⟩

theorem upholds_openExisting (hm : m.WellFormed) {how : OpenHow} {location : Location}
    {file : Descriptor} (h : m.openExisting how id location = .ok (file, m')) :
    m.tree.Upholds m'.tree := by
  obtain ⟨node, hnode, -, hopened⟩ := openExisting_eq_ok h
  cases hopened
  change m.tree.Upholds (ite _ _ _ : Machine).tree
  split
  · rename_i hdrop
    refine Tree.Upholds.updateInode hm.tree ?_
    intro node' hnode'
    obtain rfl : node = node' := Option.some.inj (hnode.symm.trans hnode')
    cases hcontent : node.content with
    | file old => exact .file
    | _ => simp [hcontent, Content.data?] at hdrop
  · exact .refl hm.tree

theorem upholds_openFile (hm : m.WellFormed) {how : OpenHow} {perm : UInt32} {file : Descriptor}
    (h : m.openFile path how perm = .ok (file, m')) : m.tree.Upholds m'.tree := by
  generalize hopened : (file, m') = opened at h
  cases opened_of_openFile h with
  | found _ _ h =>
    rw [← hopened] at h
    exact upholds_openExisting hm h
  | made _ _ hvacant _ =>
    cases hopened
    exact upholds_create hm hvacant.isDirectory (fun _ h => by cases h) fun _ _ h => by cases h
  | unnamed _ =>
    cases hopened
    exact Tree.Upholds.addInode hm.tree (fun _ h => by cases h) fun _ _ h => by cases h

theorem upholds_write (hm : m.WellFormed) {file : Descriptor} {data : Bytes} {count : Nat}
    (h : m.write file data = .ok (count, m')) : m.tree.Upholds m'.tree := by
  obtain ⟨-, f, -, ⟨rfl, -⟩ | ⟨old, -, hold, htree, -⟩⟩ := write_cases h
  · exact .refl hm.tree
  · rw [htree]
    refine Tree.Upholds.updateInode hm.tree ?_
    intro node hnode
    rw [Tree.content?, hnode] at hold
    rw [show node.content = .file old from Option.some.inj hold]
    exact .file

theorem upholds_chmod (hm : m.WellFormed) {perm : UInt32}
    (h : m.chmod path perm = .ok ((), m')) : m.tree.Upholds m'.tree := by
  obtain ⟨⟨id, node⟩, -, h⟩ := bind_eq_ok_iff.1 h
  obtain ⟨-, h⟩ := ite_error_eq_ok_iff.1 h
  obtain ⟨_, -, h⟩ := bind_eq_ok_iff.1 h
  cases h
  exact Tree.Upholds.updateInode hm.tree fun _ _ => .same

theorem upholds_chown (hm : m.WellFormed) {uid gid : Nat}
    (h : m.chown path uid gid = .ok ((), m')) : m.tree.Upholds m'.tree := by
  obtain ⟨⟨id, node⟩, -, h⟩ := bind_eq_ok_iff.1 h
  have hchanged : ∀ f : Inode → Inode, (∀ node, (f node).content = node.content) →
      m.tree.Upholds ((m.withTree (m.tree.updateInode id f)).stampChange id).tree := by
    intro f hf
    refine Tree.Upholds.updateInode hm.tree ?_
    intro node _
    rw [hf]
    exact .same
  simp only at h
  split at h
  · obtain ⟨_, -, h⟩ := bind_eq_ok_iff.1 h
    obtain ⟨-, h⟩ := ite_error_eq_ok_iff.1 h
    cases h
    exact hchanged _ fun _ => rfl
  · obtain ⟨-, h⟩ := ite_error_eq_ok_iff.1 h
    cases h
    exact hchanged _ fun _ => rfl

theorem tree_setTimes {access modify : GivenTime}
    (h : m.setTimes path access modify = .ok ((), m')) : m'.tree = m.tree := by
  unfold setTimes at h
  split at h
  · cases h
    rfl
  · obtain ⟨⟨id, node⟩, -, h⟩ := bind_eq_ok_iff.1 h
    simp only at h
    split at h
    · split at h
      · obtain ⟨_, -, h⟩ := bind_eq_ok_iff.1 h
        cases h
        rfl
      · obtain ⟨_, -, h⟩ := bind_eq_ok_iff.1 h
        cases h
        rfl
    · cases h

theorem upholds_symlink (hm : m.WellFormed) {target : Bytes}
    (h : m.symlink target path = .ok ((), m')) : m.tree.Upholds m'.tree := by
  unfold symlink at h
  obtain ⟨-, h⟩ := ite_error_eq_ok_iff.1 h
  obtain ⟨-, h⟩ := ite_error_eq_ok_iff.1 h
  obtain ⟨⟨dir, name⟩, hvacancy, h⟩ := bind_eq_ok_iff.1 h
  obtain ⟨_, -, h⟩ := bind_eq_ok_iff.1 h
  cases h
  exact upholds_create hm (isDirectory_of_vacancy hvacancy) (fun _ h => by cases h)
    fun _ _ h => by cases h

theorem upholds_makeDirectory (hm : m.WellFormed) {perm : UInt32}
    (h : m.makeDirectory path perm = .ok ((), m')) : m.tree.Upholds m'.tree := by
  obtain ⟨⟨dir, name⟩, hvacancy, h⟩ := bind_eq_ok_iff.1 h
  obtain ⟨_, -, h⟩ := bind_eq_ok_iff.1 h
  cases h
  refine upholds_create hm (isDirectory_of_vacancy hvacancy) (fun _ h => by cases h) ?_
  intro above entries h
  cases h
  exact ⟨rfl, rfl⟩

theorem upholds_makeSpecial (hm : m.WellFormed) {which : SpecialFile} {perm : UInt32}
    (h : m.makeSpecial path which perm = .ok ((), m')) : m.tree.Upholds m'.tree := by
  obtain ⟨⟨dir, name⟩, hvacancy, h⟩ := bind_eq_ok_iff.1 h
  obtain ⟨_, -, h⟩ := bind_eq_ok_iff.1 h
  have hdir := isDirectory_of_vacancy hvacancy
  split at h
  · cases h
    exact upholds_create hm hdir (fun _ h => by cases h) fun _ _ h => by cases h
  · cases h
    exact upholds_create hm hdir (fun _ h => by cases h) fun _ _ h => by cases h
  · cases h
    exact upholds_create hm hdir (fun _ h => by cases h) fun _ _ h => by cases h
  · cases h

theorem upholds_link (hm : m.WellFormed) {destination : Path}
    (h : m.link path destination = .ok ((), m')) : m.tree.Upholds m'.tree := by
  obtain ⟨id, hid, h⟩ := bind_eq_ok_iff.1 h
  obtain ⟨⟨dir, name⟩, hvacancy, h⟩ := bind_eq_ok_iff.1 h
  obtain ⟨-, h⟩ := ite_error_eq_ok_iff.1 h
  obtain ⟨_, -, h⟩ := bind_eq_ok_iff.1 h
  obtain ⟨hfile, h⟩ := ite_error_eq_ok_iff.1 h
  cases h
  refine Tree.Upholds.setEntry hm.tree (isSome_of_resolve hm hid) ?_
  rintro rfl
  exact hfile (isDirectory_of_vacancy hvacancy)

theorem upholds_dropEntry (hm : m.WellFormed) (dir : InodeId) (name : Name) (id : InodeId) :
    m.tree.Upholds (m.dropEntry dir name id).tree :=
  Tree.Upholds.removeEntry hm.tree

theorem upholds_unlink (hm : m.WellFormed) (h : m.unlink path = .ok ((), m')) :
    m.tree.Upholds m'.tree := by
  obtain ⟨dir, name, id, -, -, -, rfl⟩ := unlink_cases h
  exact upholds_dropEntry hm dir name id

theorem upholds_removeDirectory (hm : m.WellFormed) (h : m.removeDirectory path = .ok ((), m')) :
    m.tree.Upholds m'.tree := by
  obtain ⟨place, -, h⟩ := bind_eq_ok_iff.1 h
  cases place with
  | reached dir => cases h
  | dots dir up => cases h
  | entry dir name slash =>
    obtain ⟨found, -, h⟩ := bind_eq_ok_iff.1 h
    cases found with
    | none => cases h
    | some id =>
      obtain ⟨_, -, h⟩ := bind_eq_ok_iff.1 h
      obtain ⟨-, h⟩ := ite_error_eq_ok_iff.1 h
      obtain ⟨_, -, h⟩ := bind_eq_ok_iff.1 h
      cases h
      exact upholds_dropEntry hm dir name id

/-- A directory lies within itself. -/
theorem isWithin_self (m : Machine) (dir : InodeId) : m.tree.isWithin dir dir = true := by
  simp [Tree.isWithin, Tree.lineage]

variable (dir name) in
theorem upholds_moveEntry (hm : m.WellFormed) {above : InodeId} (called : Name)
    (hid : (m.tree.inode? id).isSome = true) (habove : (m.tree.inode? above).isSome = true)
    (hne : id ≠ above) : m.tree.Upholds (m.moveEntry dir name above called id).tree := by
  have hremoved : m.tree.Upholds (m.tree.removeEntry dir name) := .removeEntry hm.tree
  have hset : m.tree.Upholds ((m.tree.removeEntry dir name).setEntry above called id) :=
    hremoved.trans (.setEntry hremoved.wellFormed (hremoved.inodes id hid) hne)
  change m.tree.Upholds (if m.tree.isDirectory id then _ else _)
  split
  · exact hset.trans (.setParent hset.wellFormed (hset.inodes above habove))
  · exact hset

theorem upholds_rename (hm : m.WellFormed) {destination : Path}
    (h : m.rename path destination = .ok ((), m')) : m.tree.Upholds m'.tree := by
  obtain ⟨origin, -, h⟩ := bind_eq_ok_iff.1 h
  obtain ⟨goal, hgoal, h⟩ := bind_eq_ok_iff.1 h
  obtain ⟨-, h⟩ := ite_error_eq_ok_iff.1 h
  cases origin with
  | reached dir => cases h
  | dots dir up => cases h
  | entry dir name slash =>
    cases goal with
    | reached dir => cases h
    | dots dir up => cases h
    | entry above called slash' =>
      obtain ⟨found, hfound, h⟩ := bind_eq_ok_iff.1 h
      cases found with
      | none => cases h
      | some id =>
        obtain ⟨target, -, h⟩ := bind_eq_ok_iff.1 h
        obtain ⟨-, h⟩ := ite_error_eq_ok_iff.1 h
        obtain ⟨hwithin, h⟩ := ite_error_eq_ok_iff.1 h
        obtain ⟨-, h⟩ := ite_error_eq_ok_iff.1 h
        have habove := isDirectory_of_locate hgoal
        -- A directory that went into itself would be within where it goes.
        have hne : id ≠ above := by
          rintro rfl
          rw [habove, isWithin_self] at hwithin
          exact hwithin rfl
        have hmoved := upholds_moveEntry dir name hm called (isSome_of_find hm hfound)
          (Tree.isSome_inode?_of_isDirectory habove) hne
        split at h
        · cases h
          exact .refl hm.tree
        · obtain ⟨_, -, h⟩ := bind_eq_ok_iff.1 h
          cases target with
          | none =>
            obtain ⟨_, -, h⟩ := bind_eq_ok_iff.1 h
            obtain ⟨-, h⟩ := ite_error_eq_ok_iff.1 h
            obtain ⟨-, h⟩ := ite_error_eq_ok_iff.1 h
            cases h
            exact hmoved
          | some replaced =>
            obtain ⟨_, -, h⟩ := bind_eq_ok_iff.1 h
            obtain ⟨-, h⟩ := ite_error_eq_ok_iff.1 h
            obtain ⟨-, h⟩ := ite_error_eq_ok_iff.1 h
            dsimp only at h
            split at h
            · obtain ⟨_, -, h⟩ := bind_eq_ok_iff.1 h
              cases h
              exact hmoved
            · cases h
              exact hmoved

end Machine

/-! ## Runs -/

/-- No call makes a tree lead nowhere, or takes an inode from it. -/
theorem Call.upholds_perform {m m' : Machine} {c : Call} {value : c.Value} (hm : m.WellFormed)
    (h : c.perform m = .ok (value, m')) : m.tree.Upholds m'.tree := by
  cases c with
  | openFile path how perm => exact Machine.upholds_openFile hm h
  | write file data => exact Machine.upholds_write hm h
  | chmod path perm => exact Machine.upholds_chmod hm h
  | chown path uid gid => exact Machine.upholds_chown hm h
  | rename source destination => exact Machine.upholds_rename hm h
  | unlink path => exact Machine.upholds_unlink hm h
  | symlink target path => exact Machine.upholds_symlink hm h
  | makeDirectory path perm => exact Machine.upholds_makeDirectory hm h
  | removeDirectory path => exact Machine.upholds_removeDirectory hm h
  | makeSpecial path which perm => exact Machine.upholds_makeSpecial hm h
  | link source destination => exact Machine.upholds_link hm h
  | setTimes path access modify =>
    rw [Machine.tree_setTimes h]
    exact .refl hm.tree
  | close file =>
    simp only [perform, Machine.close] at h
    split at h
    · cases h
    · cases h
      exact .refl hm.tree
  | openSocket =>
    simp only [perform] at h
    split at h
    · cases h
      exact .refl hm.tree
    · cases h
  | _ =>
    rw [machine_perform_of_looks (by trivial) h]
    exact .refl hm.tree

/-- A call leaves a well-formed machine well-formed. -/
theorem Call.wellFormed_perform {m m' : Machine} {c : Call} {value : c.Value} (hm : m.WellFormed)
    (h : c.perform m = .ok (value, m')) : m'.WellFormed := by
  have hupholds := upholds_perform hm h
  refine ⟨hupholds.wellFormed, ?_⟩
  have hcwd : m'.cwd = m.cwd := congrArg Process.cwd (process_perform h)
  rw [hcwd]
  exact hupholds.inodes m.cwd hm.cwd

/-- Whatever comes of a call, a well-formed machine stays well-formed. -/
theorem Call.Outcome.wellFormed {fails : Call → Errno → Prop} {m m' : Machine} {c : Call}
    {reply : Except Errno c.Value} (h : c.Outcome fails m reply m') (hm : m.WellFormed) :
    m'.WellFormed := by
  cases h with
  | done h => exact wellFormed_perform hm h
  | refused _ => exact hm
  | failed _ => exact hm
  | @short file data count _ _ h =>
    exact wellFormed_perform (c := .write file (data.take count)) hm h

/-- A question leaves a well-formed machine well-formed. -/
theorem Query.wellFormed_answer {m : Machine} (hm : m.WellFormed) (q : Query) :
    (q.answer m).2.WellFormed := by
  refine ⟨?_, ?_⟩
  · rw [tree_answer]
    exact hm.tree
  · rw [tree_answer, cwd_answer]
    exact hm.cwd

/-- At every moment of the runs of a program from a well-formed machine, and after them, the
machine is well-formed. -/
theorem Program.Runs.wellFormed {α : Type} {fails : Call → Errno → Prop} {p : Program α}
    {m m' : Machine} {events : List Event} {value : α} (hrun : Runs fails p m events value m')
    (hm : m.WellFormed) :
    m'.WellFormed ∧ ∀ e ∈ events, e.before.WellFormed ∧ e.after.WellFormed := by
  obtain ⟨hend, hevents⟩ := hrun.invariant (C := fun _ => True) (I := Machine.WellFormed)
    (fun _ _ _ _ _ houtcome hm => houtcome.wellFormed hm)
    (fun q _ hm => q.wellFormed_answer hm) p.uses_true hm
  exact ⟨hend, fun e he => (hevents e he).2⟩

/-! ## Sessions -/

namespace Session

variable {s : Session}

theorem wellFormed_after {α : Type} (hs : s.machine.WellFormed) (p : Program α) :
    (s.after p).2.machine.WellFormed :=
  ((Program.runs_run (fun _ _ => True) p s.machine).wellFormed hs).1

theorem wellFormed_foundOr (hs : s.machine.WellFormed) (keepAs : Option String)
    (found : Except Error FileInfo) : (s.foundOr keepAs found).2.machine.WellFormed := by
  cases found with
  | error e => exact hs
  | ok info => cases keepAs <;> exact hs

/-- An action leaves a well-formed machine well-formed. -/
theorem wellFormed_step (hs : s.machine.WellFormed) (a : Action) :
    (s.step a).2.machine.WellFormed := by
  cases a with
  | stat path keepAs => exact wellFormed_foundOr (wellFormed_after hs _) keepAs _
  | lstat path keepAs => exact wellFormed_foundOr (wellFormed_after hs _) keepAs _
  | fstat handle keepAs =>
    simp only [step]
    split
    · exact hs
    · exact wellFormed_foundOr (wellFormed_after hs _) keepAs _
  | fstatNumber number => exact wellFormed_foundOr (wellFormed_after hs _) none _
  | setUmask mask => exact wellFormed_after (wellFormed_after hs _) _
  | same a b =>
    simp only [step]
    split <;> exact hs
  | inquire name inquiry =>
    simp only [step]
    split
    · split <;> exact wellFormed_after hs _
    · exact hs
    · exact wellFormed_after hs _
  | deed d =>
    simp only [step]
    split <;> exact wellFormed_after hs _
  | openFile path keepAs =>
    simp only [step]
    split
    · exact hs
    · have hopened := wellFormed_after hs (Program.perform (.openFile path .reading 0))
      split <;> exact hopened
  | close handle =>
    simp only [step]
    split
    · exact hs
    · rename_i file _
      exact wellFormed_after hs (Program.perform (.close file))
  | _ => exact wellFormed_after hs _

theorem wellFormed_stepUnder (hs : s.machine.WellFormed) (mayOpen : Bool) (a : Action) :
    (s.stepUnder mayOpen a).2.machine.WellFormed := by
  have hstep := wellFormed_step
    (s := { s with machine := { s.machine with mayOpen := mayOpen } }) ⟨hs.tree, hs.cwd⟩ a
  exact ⟨hstep.tree, hstep.cwd⟩

/-- Whatever was done on the small system, its machine is well-formed. -/
theorem wellFormed_foldl_stepUnder (platform : Platform) (draws : Nat → UInt32) (mask : UInt32)
    (actions : List (Bool × Action)) :
    (actions.foldl (fun s a => (s.stepUnder a.1 a.2).2)
      (start platform draws mask)).machine.WellFormed := by
  have hrun := Program.runs_run (fun _ _ => True) (platform.setUmask mask) (Machine.small draws)
  have hstart : (start platform draws mask).machine.WellFormed :=
    (hrun.wellFormed (Machine.wellFormed_small draws)).1
  revert hstart
  generalize start platform draws mask = s
  intro hs
  induction actions generalizing s with
  | nil => exact hs
  | cons a rest ih => exact ih _ (wellFormed_stepUnder hs a.1 a.2)

end Session

end PortableFiles
