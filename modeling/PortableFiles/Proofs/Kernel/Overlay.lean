import PortableFiles.Proofs.Kernel.NewEntry
set_option autoImplicit false

/-!
# Files laid over a tree

While files are made, written, moved over names and removed, the directories and links of a tree
stay what they were: each name leads where it led or to a new file (`Tree.Overlaid`).  A walk that
passes through such a tree passes through the one below, so a path leads where it led or nowhere
(`Tree.Overlaid.walks`).

A step with one file is a small change (`Tree.ChangesOnly`): it concerns this file, and some names
that lead to it or to nothing afterwards.
-/

namespace PortableFiles

namespace Inode

variable (f : FinMap Name InodeId → FinMap Name InodeId) (node : Inode)

/-- Only directories have entries. -/
theorem mapEntries_of_not_isDirectory (h : node.content.isDirectory = false) :
    node.mapEntries f = node := by
  unfold mapEntries
  cases hc : node.content with
  | directory _ _ => simp [hc, Content.isDirectory, Content.entries?] at h
  | _ => rfl

theorem mapEntries_mapEntries (g : FinMap Name InodeId → FinMap Name InodeId) :
    (node.mapEntries f).mapEntries g = node.mapEntries fun entries => g (f entries) := by
  cases node with
  | mk content => cases content <;> rfl

theorem mapEntries_id : node.mapEntries (fun entries => entries) = node := by
  cases node with
  | mk content => cases content <;> rfl

theorem mapEntries_of_file {data : Bytes} (h : node.content = .file data) :
    node.mapEntries f = node := by
  refine mapEntries_of_not_isDirectory f node ?_
  rw [h]
  rfl

/-- To leave an inode as it is, if there is one, is to give it the entries that it has. -/
theorem exists_eq_map_mapEntries (inode : Option Inode) :
    ∃ f, inode = inode.map (mapEntries f) := by
  refine ⟨fun entries => entries, ?_⟩
  cases inode with
  | none => rfl
  | some node => rw [Option.map_some, mapEntries_id]

end Inode

namespace Tree

variable {t t' t'' : Tree} {d id : InodeId} {n : Name}

/-- A tree in which some files were laid over another one: what was there may only have other
entries, new inodes are files, and each name leads where it led or to a new file. -/
structure Overlaid (t t' : Tree) : Prop where
  root : t'.root = t.root
  inodes : ∀ id node, t.inode? id = some node → ∃ f, t'.inode? id = some (node.mapEntries f)
  files : ∀ id node, t.inode? id = none → t'.inode? id = some node →
    ∃ data, node.content = .file data
  entries : ∀ d n, t'.child? d n = t.child? d n
    ∨ ∃ id node, t'.child? d n = some id ∧ t.inode? id = none ∧ t'.inode? id = some node

namespace Overlaid

variable (h : t.Overlaid t')

theorem refl (t : Tree) : t.Overlaid t where
  root := rfl
  inodes id node hnode := ⟨fun entries => entries, by rw [hnode, Inode.mapEntries_id]⟩
  files id node hnone hnode := by rw [hnone] at hnode; cases hnode
  entries d n := Or.inl rfl

include h

/-- A number that is free was free. -/
theorem inode?_eq_none (hid : t'.inode? id = none) : t.inode? id = none := by
  cases hnode : t.inode? id with
  | none => rfl
  | some node =>
    obtain ⟨f, hf⟩ := h.inodes id node hnode
    rw [hid] at hf
    cases hf

/-- A name that is free was free. -/
theorem child?_eq_none (hfree : t'.child? d n = none) : t.child? d n = none := by
  rcases h.entries d n with hsame | ⟨id, node, hentry, -⟩
  · rw [← hsame, hfree]
  · rw [hfree] at hentry
    cases hentry

/-- An inode that was there is there. -/
theorem isSome_inode? (hid : (t.inode? id).isSome = true) : (t'.inode? id).isSome = true := by
  obtain ⟨node, hnode⟩ := Option.isSome_iff_exists.1 hid
  obtain ⟨f, hf⟩ := h.inodes id node hnode
  rw [hf]
  rfl

/-- An inode that is no file was there, and may only have had other entries. -/
theorem exists_inode? {node : Inode} (hnode : t'.inode? id = some node)
    (hfile : ∀ data, node.content ≠ .file data) :
    ∃ before f, t.inode? id = some before ∧ node = before.mapEntries f := by
  cases hbefore : t.inode? id with
  | none =>
    obtain ⟨data, hdata⟩ := h.files id node hbefore hnode
    exact absurd hdata (hfile data)
  | some before =>
    obtain ⟨f, hf⟩ := h.inodes id before hbefore
    exact ⟨before, f, rfl, Option.some.inj (hnode.symm.trans hf)⟩

/-- A directory was one, with the same directory above it. -/
theorem of_isDirectory (hid : t'.isDirectory id = true) :
    t.isDirectory id = true ∧ t'.parent id = t.parent id := by
  obtain ⟨node, hnode⟩ := Option.isSome_iff_exists.1 (isSome_inode?_of_isDirectory hid)
  have hdirectory : node.content.isDirectory = true := by
    simpa [isDirectory, entries?, content?, hnode, Content.isDirectory] using hid
  obtain ⟨before, f, hbefore, rfl⟩ := h.exists_inode? hnode (by
    intro data hdata
    rw [hdata] at hdirectory
    cases hdirectory)
  refine ⟨?_, ?_⟩
  · rw [Inode.mapEntries_isDirectory] at hdirectory
    simpa [isDirectory, entries?, content?, hbefore, Content.isDirectory] using hdirectory
  · rw [parent, content?, hnode, parent, content?, hbefore]
    cases before with
    | mk content => cases content <;> rfl

/-- Where a process may pass, it might pass. -/
theorem pass {who : Credentials} (hpass : t'.pass who d = .ok ()) : t.pass who d = .ok () := by
  obtain ⟨hdirectory, -⟩ := h.of_isDirectory (isDirectory_of_pass hpass)
  obtain ⟨node, hnode⟩ := Option.isSome_iff_exists.1 (isSome_inode?_of_isDirectory hdirectory)
  obtain ⟨f, hf⟩ := h.inodes d node hnode
  rw [Tree.pass, hf] at hpass
  rw [Tree.pass, hnode]
  simpa [Credentials.may] using hpass

/-- What a name leads to, unless it is a file, it led to. -/
theorem child?_eq {node : Inode} (hentry : t'.child? d n = some id)
    (hnode : t'.inode? id = some node) (hfile : ∀ data, node.content ≠ .file data) :
    t.child? d n = some id := by
  rcases h.entries d n with hsame | ⟨id', _, hentry', hnew, -⟩
  · rw [← hsame, hentry]
  · rw [hentry] at hentry'
    cases hentry'
    obtain ⟨data, hdata⟩ := h.files id node hnew hnode
    exact absurd hdata (hfile data)

/-- A link was the same link. -/
theorem link_eq {content : Content} (hlink : isLink (some content) = true)
    (hc : (t'.child? d n).bind t'.content? = some content) :
    (t.child? d n).bind t.content? = some content := by
  obtain ⟨id, hentry, hcontent⟩ := Option.bind_eq_some_iff.1 hc
  obtain ⟨node, hnode, rfl⟩ := Option.map_eq_some_iff.1 hcontent
  have hfile : ∀ data, node.content ≠ .file data := by
    intro data hdata
    rw [hdata] at hlink
    cases hlink
  obtain ⟨before, f, hbefore, rfl⟩ := h.exists_inode? hnode hfile
  have hplain : before.content.isDirectory = false := by
    rw [← Inode.mapEntries_isDirectory f]
    cases hcontent : (before.mapEntries f).content <;>
      simp [hcontent, isLink, Content.isDirectory, Content.entries?] at hlink ⊢
  rw [h.child?_eq hentry hnode hfile, Option.bind_some, content?, hbefore,
    Inode.mapEntries_of_not_isDirectory f before hplain]
  rfl

/-- A walk that reaches an end, and follows no link there, reached it. -/
theorem walks {who : Credentials} {budget : Nat} {steps : List Step} {slash : Bool}
    {place : Place} (hwalks : Walks t' who (fun _ => false) budget d steps slash place) :
    Walks t who (fun _ => false) budget d steps slash place := by
  induction hwalks with
  | reached => exact .reached
  | dot hpass => exact .dot (h.pass hpass)
  | dotdot hpass => exact .dotdot (h.pass hpass)
  | stay hpass hrest _ ih => exact .stay (h.pass hpass) hrest ih
  | ascend hpass hrest _ ih =>
    rw [(h.of_isDirectory (isDirectory_of_pass hpass)).2] at ih
    exact .ascend (h.pass hpass) hrest ih
  | last hpass _ => exact .last (h.pass hpass) (Or.inl rfl)
  | @descend _ above id n _ _ _ hpass hrest _ hfind hdirectory _ ih =>
    obtain ⟨node, hnode⟩ := Option.isSome_iff_exists.1 (isSome_inode?_of_isDirectory hdirectory)
    have hentry : t.child? above n = some id := by
      refine h.child?_eq (child?_eq_of_find hfind) hnode ?_
      intro data hdata
      simp [isDirectory, entries?, content?, hnode, hdata, Content.entries?] at hdirectory
    obtain ⟨hbefore, -⟩ := h.of_isDirectory hdirectory
    refine .descend (h.pass hpass) hrest ?_ ?_ hbefore ih
    · rw [hentry]
      exact isLink_of_isDirectory hbefore
    · rw [find, hentry]
  | symlink hpass hgo hlink _ ih =>
    have hstart : ∀ d route, t'.start d route = t.start d route := by
      intro d route
      rw [start, h.root, start]
    rw [hstart] at ih
    exact .symlink (h.pass hpass) hgo (h.link_eq rfl hlink) ih
  | jump hpass hgo hlink _ ih => exact .jump (h.pass hpass) hgo (h.link_eq rfl hlink) ih

/-- A path that leads somewhere, with no link followed at its end, led there. -/
theorem locate {who : Credentials} {cwd : InodeId} {path : Path} {place : Place}
    (hplace : t'.locate who cwd (fun _ => false) path = .ok place) :
    t.locate who cwd (fun _ => false) path = .ok place := by
  unfold Tree.locate at hplace ⊢
  split at hplace
  · cases hplace
  · split at hplace
    · cases hplace
    · rename_i hempty hlong
      rw [if_neg hempty, if_neg hlong]
      rw [walk_eq_ok_iff] at hplace ⊢
      rw [start, h.root] at hplace
      exact h.walks hplace

end Overlaid

/-! ## Entries that are set and removed -/

theorem entries?_updateEntries (t : Tree) (dir d : InodeId)
    (f : FinMap Name InodeId → FinMap Name InodeId) :
    (t.updateEntries dir f).entries? d =
      if d = dir then (t.entries? dir).map f else t.entries? d := by
  rw [updateEntries_eq, entries?, content?, inode?_updateInode]
  split
  · rw [entries?, content?]
    cases t.inode? dir <;> simp
  · rfl

theorem child?_removeEntry (t : Tree) (dir : InodeId) (name : Name) (d : InodeId) (n : Name) :
    (t.removeEntry dir name).child? d n =
      if d = dir ∧ n = name then none else t.child? d n := by
  rw [removeEntry, child?, entries?_updateEntries]
  by_cases hd : d = dir
  · subst hd
    cases hentries : t.entries? d <;> by_cases hn : n = name <;>
      simp [child?, hentries, FinMap.get?_erase, hn]
  · simp [hd, child?]

theorem isDirectory_removeEntry (t : Tree) (dir : InodeId) (name : Name) (d : InodeId) :
    (t.removeEntry dir name).isDirectory d = t.isDirectory d := by
  rw [isDirectory, removeEntry, entries?_updateEntries, isDirectory]
  split
  · rename_i hd
    rw [hd, Option.isSome_map]
  · rfl

theorem child?_setEntry {dir : InodeId} (hdir : t.isDirectory dir = true) (name : Name)
    (id d : InodeId) (n : Name) :
    (t.setEntry dir name id).child? d n =
      if d = dir ∧ n = name then some id else t.child? d n := by
  rw [setEntry, child?, entries?_updateEntries]
  by_cases hd : d = dir
  · subst hd
    obtain ⟨entries, hentries⟩ := Option.isSome_iff_exists.1 hdir
    by_cases hn : n = name <;> simp [child?, hentries, FinMap.get?_insert, hn]
  · simp [hd, child?]

/-! ## Changes of one file -/

/-- A change that concerns the file `own` and the names that `P` selects.  These lead to the file
or to nothing afterwards. -/
structure ChangesOnly (own : InodeId) (P : InodeId → Name → Prop) (t t' : Tree) : Prop where
  root : t'.root = t.root
  inodes : ∀ id, id ≠ own → ∃ f, t'.inode? id = (t.inode? id).map (Inode.mapEntries f)
  file : ∃ node data, t'.inode? own = some node ∧ node.content = .file data
  entries : ∀ d n, ¬ P d n → t'.child? d n = t.child? d n
  changed : ∀ d n, P d n → t'.child? d n = none ∨ t'.child? d n = some own

section ChangesOnly

variable {own dir : InodeId} {name : Name} {P P' : InodeId → Name → Prop} {node : Inode}
  {data : Bytes}

/-- Besides the file, everything but the entries of directories is as it was. -/
theorem ChangesOnly.inode?_eq (h : t.ChangesOnly own P t') (hid : id ≠ own)
    (hnode : t.inode? id = some node) (hplain : node.content.isDirectory = false) :
    t'.inode? id = some node := by
  obtain ⟨f, hf⟩ := h.inodes id hid
  rw [hf, hnode, Option.map_some, Inode.mapEntries_of_not_isDirectory f node hplain]

theorem ChangesOnly.trans (h : t.ChangesOnly own P t') (h' : t'.ChangesOnly own P' t'') :
    t.ChangesOnly own (fun d n => P d n ∨ P' d n) t'' where
  root := h'.root.trans h.root
  inodes id hid := by
    obtain ⟨f, hf⟩ := h.inodes id hid
    obtain ⟨g, hg⟩ := h'.inodes id hid
    refine ⟨fun entries => g (f entries), ?_⟩
    rw [hg, hf, Option.map_map]
    congr 1
    funext node
    exact node.mapEntries_mapEntries f g
  file := h'.file
  entries d n hother := by
    rw [h'.entries d n fun hP => hother (Or.inr hP), h.entries d n fun hP => hother (Or.inl hP)]
  changed d n hP := by
    by_cases hP' : P' d n
    · exact h'.changed d n hP'
    · rw [h'.entries d n hP']
      exact h.changed d n (hP.resolve_right hP')

/-- The file gets another content or other permissions. -/
theorem changesOnly_updateInode {f : Inode → Inode} {old : Bytes}
    (hnode : t.inode? own = some node) (hold : node.content = .file old)
    (hfile : (f node).content = .file data) :
    t.ChangesOnly own (fun _ _ => False) (t.updateInode own f) where
  root := rfl
  inodes id hid := by
    rw [inode?_updateInode, if_neg hid]
    exact Inode.exists_eq_map_mapEntries _
  file := by
    refine ⟨f node, data, ?_, hfile⟩
    rw [inode?_updateInode, if_pos rfl, hnode, Option.map_some]
  entries d n _ := by
    rw [child?, entries?, content?, inode?_updateInode, child?, entries?, content?]
    split
    · rename_i hd
      simp [hd, hnode, hold, hfile, Content.entries?]
    · rfl
  changed _ _ hP := hP.elim

theorem changesOnly_addEntry (hdir : t.isDirectory dir = true) (hnode : node.content = .file data) :
    t.ChangesOnly t.nextId (fun d n => d = dir ∧ n = name) (t.addEntry dir name node) where
  root := rfl
  inodes id hid := inode?_addEntry_eq_map name node hdir hid
  file := ⟨node, data, inode?_addEntry_nextId hdir, hnode⟩
  entries d n hother := child?_addEntry_of_ne hdir hnode hother
  changed := by
    rintro d n ⟨rfl, rfl⟩
    exact Or.inr (child?_addEntry_self hdir hnode)

theorem inode?_updateEntries_eq_map (t : Tree) (dir id : InodeId)
    (f : FinMap Name InodeId → FinMap Name InodeId) :
    ∃ g, (t.updateEntries dir f).inode? id = (t.inode? id).map (Inode.mapEntries g) := by
  rw [updateEntries_eq, inode?_updateInode]
  split
  · rename_i hid
    rw [hid]
    exact ⟨f, rfl⟩
  · exact Inode.exists_eq_map_mapEntries _

/-- A file is no matter of the entries of directories. -/
theorem inode?_updateEntries_of_file (dir : InodeId)
    (f : FinMap Name InodeId → FinMap Name InodeId) (hnode : t.inode? own = some node)
    (hfile : node.content = .file data) : (t.updateEntries dir f).inode? own = some node := by
  obtain ⟨g, hg⟩ := t.inode?_updateEntries_eq_map dir own f
  rw [hg, hnode, Option.map_some, Inode.mapEntries_of_file g node hfile]

/-- A name of the file is removed. -/
theorem changesOnly_removeEntry (dir : InodeId) (name : Name) (hnode : t.inode? own = some node)
    (hfile : node.content = .file data) :
    t.ChangesOnly own (fun d n => d = dir ∧ n = name) (t.removeEntry dir name) where
  root := rfl
  inodes id _ := t.inode?_updateEntries_eq_map dir id _
  file := ⟨node, data, inode?_updateEntries_of_file dir _ hnode hfile, hfile⟩
  entries d n hother := by rw [child?_removeEntry, if_neg hother]
  changed d n hplace := by
    rw [child?_removeEntry, if_pos hplace]
    exact Or.inl rfl

/-- The file gets a name. -/
theorem changesOnly_setEntry (hdir : t.isDirectory dir = true) (name : Name)
    (hnode : t.inode? own = some node) (hfile : node.content = .file data) :
    t.ChangesOnly own (fun d n => d = dir ∧ n = name) (t.setEntry dir name own) where
  root := rfl
  inodes id _ := t.inode?_updateEntries_eq_map dir id _
  file := ⟨node, data, inode?_updateEntries_of_file dir _ hnode hfile, hfile⟩
  entries d n hother := by rw [child?_setEntry hdir, if_neg hother]
  changed d n hplace := by
    rw [child?_setEntry hdir, if_pos hplace]
    exact Or.inr rfl

/-- A change of a file that was laid over a tree leaves one that was, if no name that was there
leads to nothing afterwards. -/
theorem Overlaid.of_changesOnly {below : Tree} (h : below.Overlaid t)
    (hchange : t.ChangesOnly own P t') (hown : below.inode? own = none)
    (hfree : ∀ d n, P d n → t'.child? d n = none → below.child? d n = none) :
    below.Overlaid t' where
  root := hchange.root.trans h.root
  inodes id node hnode := by
    have hid : id ≠ own := by
      rintro rfl
      rw [hown] at hnode
      cases hnode
    obtain ⟨f, hf⟩ := h.inodes id node hnode
    obtain ⟨g, hg⟩ := hchange.inodes id hid
    refine ⟨fun entries => g (f entries), ?_⟩
    rw [hg, hf, Option.map_some, Inode.mapEntries_mapEntries]
  files id node hnew hnode := by
    by_cases hid : id = own
    · obtain ⟨node', data, hnode', hfile⟩ := hchange.file
      rw [hid, hnode'] at hnode
      cases hnode
      exact ⟨data, hfile⟩
    · obtain ⟨g, hg⟩ := hchange.inodes id hid
      rw [hg] at hnode
      obtain ⟨before, hbefore, rfl⟩ := Option.map_eq_some_iff.1 hnode
      obtain ⟨data, hfile⟩ := h.files id before hnew hbefore
      rw [Inode.mapEntries_of_file g before hfile]
      exact ⟨data, hfile⟩
  entries d n := by
    have hfile : ∀ id node, below.inode? id = none → t.inode? id = some node →
        ∃ node, t'.inode? id = some node := by
      intro id node hnew hnode
      by_cases hid : id = own
      · obtain ⟨node', _, hnode', -⟩ := hchange.file
        exact ⟨node', hid ▸ hnode'⟩
      · obtain ⟨g, hg⟩ := hchange.inodes id hid
        exact ⟨_, by rw [hg, hnode]; rfl⟩
    by_cases hP : P d n
    · rcases hchange.changed d n hP with hnone | hsome
      · exact Or.inl (by rw [hnone, hfree d n hP hnone])
      · obtain ⟨node, _, hnode, -⟩ := hchange.file
        exact Or.inr ⟨own, node, hsome, hown, hnode⟩
    · rw [hchange.entries d n hP]
      rcases h.entries d n with hsame | ⟨id, node, hentry, hnew, hnode⟩
      · exact Or.inl hsame
      · obtain ⟨node', hnode'⟩ := hfile id node hnew hnode
        exact Or.inr ⟨id, node', hentry, hnew, hnode'⟩

end ChangesOnly

end Tree

end PortableFiles
