import PortableFiles.Kernel.Walk
set_option autoImplicit false

/-!
# Trees through their inodes

A tree is looked at through `inode?`, its root, and nothing else: two trees that agree there are
the same tree for every walk (`Tree.Same`).  All changes are described through that view.  One
change stands for most of what a process does when it makes a file: `Tree.addEntry`, a new inode
under a name.  What it leaves as it was is said here, look by look.
-/

namespace PortableFiles

/-- The inode with changed entries, if it is a directory. -/
def Inode.mapEntries (f : FinMap Name InodeId → FinMap Name InodeId) (node : Inode) : Inode :=
  match node.content with
  | .directory parent entries => { node with content := .directory parent (f entries) }
  | _ => node

namespace Inode

variable (f : FinMap Name InodeId → FinMap Name InodeId) (node : Inode)

@[simp] theorem mapEntries_perm : (node.mapEntries f).perm = node.perm := by
  unfold mapEntries
  split <;> rfl

@[simp] theorem mapEntries_uid : (node.mapEntries f).uid = node.uid := by
  unfold mapEntries
  split <;> rfl

@[simp] theorem mapEntries_gid : (node.mapEntries f).gid = node.gid := by
  unfold mapEntries
  split <;> rfl

@[simp] theorem mapEntries_volume : (node.mapEntries f).volume = node.volume := by
  unfold mapEntries
  split <;> rfl

@[simp] theorem mapEntries_fixed : (node.mapEntries f).fixed = node.fixed := by
  unfold mapEntries
  split <;> rfl

@[simp] theorem mapEntries_entries? :
    (node.mapEntries f).content.entries? = node.content.entries?.map f := by
  unfold mapEntries
  cases hc : node.content <;> simp [Content.entries?, hc]

@[simp] theorem mapEntries_isDirectory :
    (node.mapEntries f).content.isDirectory = node.content.isDirectory := by
  simp [Content.isDirectory]

end Inode

namespace Tree

variable {t t' t'' : Tree}

/-! ## The same inodes -/

/-- Two trees that show the same inodes under the same numbers. -/
structure Same (t t' : Tree) : Prop where
  root : t.root = t'.root
  inode? : t.inode? = t'.inode?

namespace Same

theorem refl (t : Tree) : Same t t := ⟨rfl, rfl⟩

theorem trans (h : Same t t') (h' : Same t' t'') : Same t t'' :=
  ⟨h.root.trans h'.root, h.inode?.trans h'.inode?⟩

theorem content? (h : Same t t') : t.content? = t'.content? := by
  funext id
  rw [Tree.content?, h.inode?, Tree.content?]

theorem entries? (h : Same t t') : t.entries? = t'.entries? := by
  funext id
  rw [Tree.entries?, h.content?, Tree.entries?]

theorem child? (h : Same t t') : t.child? = t'.child? := by
  funext dir name
  rw [Tree.child?, h.entries?, Tree.child?]

theorem isDirectory (h : Same t t') : t.isDirectory = t'.isDirectory := by
  funext id
  rw [Tree.isDirectory, h.entries?, Tree.isDirectory]

theorem parent (h : Same t t') : t.parent = t'.parent := by
  funext dir
  rw [Tree.parent, h.content?, Tree.parent]

theorem isLinked (h : Same t t') : t.isLinked = t'.isLinked := by
  funext dir
  rw [Tree.isLinked, Tree.nameOf?, h.root, h.parent, h.entries?, Tree.isLinked, Tree.nameOf?]

theorem volume (h : Same t t') : t.volume = t'.volume := by
  funext id
  rw [Tree.volume, h.inode?, Tree.volume]

theorem find (h : Same t t') : t.find = t'.find := by
  funext dir name
  rw [Tree.find, takesNames, h.child?, h.isLinked, h.volume, Tree.find, takesNames]

theorem pass (h : Same t t') : t.pass = t'.pass := by
  funext who dir
  rw [Tree.pass, h.inode?, Tree.pass]

theorem walkWith (h : Same t t') (who : Credentials) (follow : Bool → Bool)
    (again : InodeId → Route → Except Errno Place) (slash : Bool) (dir : InodeId)
    (steps : List Step) :
    t.walkWith who follow again slash dir steps = t'.walkWith who follow again slash dir steps := by
  induction steps generalizing dir with
  | nil => rfl
  | cons step rest ih =>
    cases step with
    | stay => simp only [Tree.walkWith, h.pass, ih]
    | ascend => simp only [Tree.walkWith, h.pass, h.parent, ih]
    | descend name =>
      simp only [Tree.walkWith, h.pass, h.child?, h.content?, h.find, h.isDirectory, ih]

theorem walk (h : Same t t') (who : Credentials) (follow : Bool → Bool) (budget : Nat) :
    t.walk who follow budget = t'.walk who follow budget := by
  induction budget with
  | zero =>
    funext dir route
    rw [Tree.walk, h.root, h.walkWith, Tree.walk]
  | succ budget ih =>
    funext dir route
    rw [Tree.walk, h.root, h.walkWith, ih, Tree.walk]

/-- A path leads to the same place. -/
theorem locate (h : Same t t') (who : Credentials) (cwd : InodeId) (follow : Bool → Bool)
    (path : Path) : t.locate who cwd follow path = t'.locate who cwd follow path := by
  rw [Tree.locate, h.walk, Tree.locate]

theorem inodeAt (h : Same t t') : t.inodeAt = t'.inodeAt := by
  funext place
  cases place <;> simp only [Tree.inodeAt, h.parent, h.find, h.isDirectory]

/-- A path leads to the same inode. -/
theorem resolve (h : Same t t') (who : Credentials) (cwd : InodeId) (follow : Bool → Bool)
    (path : Path) : t.resolve who cwd follow path = t'.resolve who cwd follow path := by
  rw [Tree.resolve, h.locate, h.inodeAt, Tree.resolve]

end Same

/-! ## Changed inodes -/

theorem inode?_updateInode (t : Tree) (id i : InodeId) (f : Inode → Inode) :
    (t.updateInode id f).inode? i = if i = id then (t.inode? id).map f else t.inode? i :=
  t.inodes.get?_modify id i f

theorem updateEntries_eq (t : Tree) (dir : InodeId)
    (f : FinMap Name InodeId → FinMap Name InodeId) :
    t.updateEntries dir f = t.updateInode dir (Inode.mapEntries f) := rfl

theorem inode?_nextId (t : Tree) : t.inode? t.nextId = none := t.inodes.get?_fresh

theorem inode?_addInode (t : Tree) (node : Inode) (i : InodeId) :
    (t.addInode node).inode? i = if i = t.nextId then some node else t.inode? i :=
  t.inodes.get?_insert t.nextId i node

theorem Same.updateInode (h : Same t t') (id : InodeId) (f : Inode → Inode) :
    Same (t.updateInode id f) (t'.updateInode id f) := by
  refine ⟨h.root, ?_⟩
  funext i
  rw [inode?_updateInode, inode?_updateInode, h.inode?]

/-- A new inode that is no directory has no entries. -/
theorem child?_addInode (dir : InodeId) {name : Name} {node : Inode} {data : Bytes}
    (hnode : node.content = .file data) :
    (t.addInode node).child? dir name = t.child? dir name := by
  rw [child?, entries?, content?, inode?_addInode, child?, entries?, content?]
  split
  · rename_i hdir
    rw [hdir, inode?_nextId]
    simp [hnode, Content.entries?]
  · rfl

/-- An entry that is removed again leaves no trace. -/
theorem removeEntry_setEntry {dir id : InodeId} {name : Name} (h : t.child? dir name = none) :
    Same ((t.setEntry dir name id).removeEntry dir name) t := by
  refine ⟨rfl, ?_⟩
  funext i
  rw [removeEntry, setEntry, updateEntries_eq, updateEntries_eq]
  simp only [inode?_updateInode, if_true]
  split
  · rename_i hi
    subst hi
    cases hnode : t.inode? i with
    | none => rfl
    | some node =>
      simp only [Option.map_some, Option.some.injEq]
      cases hc : node.content with
      | directory parent entries =>
        have hfree : entries.get? name = none := by
          simpa [Tree.child?, Tree.entries?, Tree.content?, hnode, hc, Content.entries?] using h
        cases node
        simp only at hc
        simp [Inode.mapEntries, hc, FinMap.erase_insert id hfree]
      | _ => simp [Inode.mapEntries, hc]
  · rfl

end Tree

end PortableFiles
