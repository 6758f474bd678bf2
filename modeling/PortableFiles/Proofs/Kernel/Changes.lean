import PortableFiles.Proofs.Kernel.WellFormed
set_option autoImplicit false

/-!
# What a tree shows before and after

Four ways to compare trees: nothing that can be reached is different (`Tree.Unchanged`), one name
leads to a new inode (`Tree.Replaced`), one inode is different under all its names
(`Tree.Rewritten`), and what a single name shows is the same (`Tree.held`).
The first two and the last are derived here for the two trees that a new file makes, the one with
its name and the one without.
-/

namespace PortableFiles.Tree

variable {t t' : Tree} {dir : InodeId} {name : Name} {node : Inode} {data : Bytes}

/-- Whether everything that was in a tree is in another one as it was, and no name is new. -/
structure Unchanged (t t' : Tree) : Prop where
  root : t'.root = t.root
  inodes : ∀ id node, t.inode? id = some node → t'.inode? id = some node
  entries : ∀ dir name, t'.child? dir name = t.child? dir name

/-- Whether a tree is another one in which one name leads to a new inode.  Besides the entries of
its directory nothing else is different. -/
structure Replaced (t : Tree) (dir : InodeId) (name : Name) (node : Inode) (t' : Tree) : Prop where
  root : t'.root = t.root
  fresh : t.inode? t.nextId = none
  entry : t'.child? dir name = some t.nextId
  inode : t'.inode? t.nextId = some node
  entries : ∀ d n, ¬ (d = dir ∧ n = name) → t'.child? d n = t.child? d n
  directory : t'.inode? dir = (t.inode? dir).map (Inode.mapEntries fun e => e.insert name t.nextId)
  inodes : ∀ id, id ≠ t.nextId → id ≠ dir → t'.inode? id = t.inode? id

/-- Whether a tree is another one in which one inode is different.  Every name leads where it led,
so that all names of the inode show the change. -/
structure Rewritten (t : Tree) (id : InodeId) (node : Inode) (t' : Tree) : Prop where
  root : t'.root = t.root
  inode : t'.inode? id = some node
  entries : ∀ d n, t'.child? d n = t.child? d n
  inodes : ∀ i, i ≠ id → t'.inode? i = t.inode? i

/-- What a tree holds under a name: the number of an inode, and the inode. -/
def held (t : Tree) (dir : InodeId) (name : Name) : Option (InodeId × Option Inode) :=
  (t.child? dir name).map fun id => (id, t.inode? id)

theorem Unchanged.of_same (h : t'.Same t) : t.Unchanged t' where
  root := h.root
  inodes id node hnode := by rwa [h.inode?]
  entries dir name := by rw [h.child?]

/-- A file without a name changes nothing. -/
theorem Unchanged.of_addInode (hnode : node.content = .file data)
    (h : t'.Same (t.addInode node)) : t.Unchanged t' where
  root := h.root
  inodes id old hold := by
    have hne := ne_nextId_of_isSome (Option.isSome_of_mem hold)
    rw [h.inode?, inode?_addInode, if_neg hne]
    exact hold
  entries dir name := by
    rw [h.child?]
    exact child?_addInode dir hnode

/-- A file under a name changes what this name leads to. -/
theorem Replaced.of_addEntry (hdir : t.isDirectory dir = true) (hnode : node.content = .file data)
    (h : t'.Same (t.addEntry dir name node)) : t.Replaced dir name node t' where
  root := h.root
  fresh := t.inode?_nextId
  entry := by
    rw [h.child?]
    exact child?_addEntry_self hdir hnode
  inode := by
    rw [h.inode?]
    exact inode?_addEntry_nextId hdir
  entries d n hother := by
    rw [h.child?]
    exact child?_addEntry_of_ne hdir hnode hother
  directory := by
    rw [h.inode?]
    exact inode?_addEntry_dir hdir
  inodes id hnew hother := by
    rw [h.inode?]
    exact inode?_addEntry_of_ne hdir hnew hother

/-! ## One inode after the other -/

namespace Rewritten

variable {t'' : Tree} {id : InodeId} {node' : Inode}

/-- An inode that stays as it is. -/
theorem refl (hnode : t.inode? id = some node) : t.Rewritten id node t where
  root := rfl
  inode := hnode
  entries _ _ := rfl
  inodes _ _ := rfl

/-- Of two changes of an inode the last one counts. -/
theorem trans (h : t.Rewritten id node t') (h' : t'.Rewritten id node' t'') :
    t.Rewritten id node' t'' where
  root := h'.root.trans h.root
  inode := h'.inode
  entries d n := (h'.entries d n).trans (h.entries d n)
  inodes i hi := (h'.inodes i hi).trans (h.inodes i hi)

/-- What an inode is changed to decides what the tree shows. -/
theorem same (h : t.Rewritten id node t') (h' : t.Rewritten id node t'') : t'.Same t'' := by
  refine ⟨h.root.trans h'.root.symm, ?_⟩
  funext i
  by_cases hi : i = id
  · rw [hi, h.inode, h'.inode]
  · rw [h.inodes i hi, h'.inodes i hi]

end Rewritten

/-! ## What one name shows -/

/-- The name of the new file shows it. -/
theorem Replaced.held (h : t.Replaced dir name node t') :
    t'.held dir name = some (t.nextId, some node) := by
  rw [Tree.held, h.entry, Option.map_some, h.inode]

/-- Other names in the same directory show what they showed. -/
theorem Replaced.held_of_ne (h : t.Replaced dir name node t') (hw : t.WellFormed) {n : Name}
    (hn : n ≠ name) : t'.held dir n = t.held dir n := by
  rw [Tree.held, h.entries dir n fun hsame => hn hsame.2, Tree.held]
  cases hentry : t.child? dir n with
  | none => rfl
  | some id =>
    have hnew := ne_nextId_of_isSome (hw.entries dir n id hentry)
    have hother : id ≠ dir := by
      rintro rfl
      exact hw.apart id n hentry
    rw [Option.map_some, Option.map_some, h.inodes id hnew hother]

/-- Where nothing changes, every name shows what it showed. -/
theorem Unchanged.held (h : t.Unchanged t') (hw : t.WellFormed) : t'.held = t.held := by
  funext dir name
  rw [Tree.held, h.entries, Tree.held]
  cases hentry : t.child? dir name with
  | none => rfl
  | some id =>
    obtain ⟨node, hnode⟩ := Option.isSome_iff_exists.1 (hw.entries dir name id hentry)
    rw [Option.map_some, Option.map_some, hnode, h.inodes id node hnode]

end PortableFiles.Tree
