import PortableFiles.Proofs.Kernel.Overlay
import PortableFiles.Proofs.Kernel.Stage
set_option autoImplicit false

/-!
# A new file in the place of an entry

A new file under a name hides what the name led to.  A walk that does without this entry makes the
same steps whether the entry is missing or leads to the new file
(`Tree.Walks.addEntry_of_removeEntry`).  So a path whose directory is reached without the entry at
its end (`Machine.ReachedApart`) leads to the new file in the end.  A regular file at the end of a
path can be described, and another file of the same directory can be moved over it
(`Machine.Occupied`).
-/

namespace PortableFiles

namespace Tree

variable {t : Tree} {dir : InodeId} {name : Name} {node : Inode} {data : Bytes}
  {who : Credentials} {d : InodeId} {n : Name}

/-! ## Looks at a tree without an entry -/

theorem pass_removeEntry (t : Tree) (dir : InodeId) (name : Name) (who : Credentials)
    (d : InodeId) : (t.removeEntry dir name).pass who d = t.pass who d := by
  obtain ⟨f, hf⟩ := t.inode?_updateEntries_eq_map dir d fun entries => entries.erase name
  rw [pass, removeEntry, hf, pass]
  cases t.inode? d with
  | none => rfl
  | some node => simp [Credentials.may]

theorem parent_removeEntry (t : Tree) (dir : InodeId) (name : Name) (d : InodeId) :
    (t.removeEntry dir name).parent d = t.parent d := by
  obtain ⟨f, hf⟩ := t.inode?_updateEntries_eq_map dir d fun entries => entries.erase name
  rw [parent, content?, removeEntry, hf, parent, content?]
  cases t.inode? d with
  | none => rfl
  | some node =>
    cases node with
    | mk content => cases content <;> rfl

theorem content?_removeEntry_of_not_isDirectory (hd : t.isDirectory d = false) :
    (t.removeEntry dir name).content? d = t.content? d := by
  obtain ⟨f, hf⟩ := t.inode?_updateEntries_eq_map dir d fun entries => entries.erase name
  rw [content?, removeEntry, hf, content?]
  cases hnode : t.inode? d with
  | none => rfl
  | some node =>
    have hplain : node.content.isDirectory = false := by
      simpa [isDirectory, entries?, content?, hnode, Content.isDirectory] using hd
    rw [Option.map_some, Inode.mapEntries_of_not_isDirectory f node hplain]

/-! ## From the tree without the entry to the one with the new file -/

section Overwriting

variable (hdir : t.isDirectory dir = true) (hnode : node.content = .file data)

include hdir

theorem pass_addEntry_of_removeEntry (h : (t.removeEntry dir name).pass who d = .ok ()) :
    (t.addEntry dir name node).pass who d = .ok () := by
  rw [pass_removeEntry] at h
  rw [pass_addEntry name node hdir who (ne_nextId_of_isDirectory (isDirectory_of_pass h)), h]

include hnode

variable (name) in
/-- What an inode holds is the same, or it is no link before and after. -/
theorem content?_addEntry_of_removeEntry (id : InodeId) :
    (t.addEntry dir name node).content? id = (t.removeEntry dir name).content? id
      ∨ (isLink ((t.addEntry dir name node).content? id) = false
        ∧ isLink ((t.removeEntry dir name).content? id) = false) := by
  by_cases hdirectory : t.isDirectory id = true
  · -- A directory has other entries, but it is one before and after.
    refine Or.inr ⟨isLink_of_isDirectory ?_, isLink_of_isDirectory ?_⟩
    · rwa [isDirectory_addEntry hdir hnode]
    · rwa [isDirectory_removeEntry]
  have hplain : t.isDirectory id = false := by simpa using hdirectory
  rw [content?_removeEntry_of_not_isDirectory hplain]
  by_cases hnew : id = t.nextId
  · refine Or.inr ⟨?_, ?_⟩
    · rw [hnew, content?, inode?_addEntry_nextId hdir, Option.map_some, hnode]
      rfl
    · rw [hnew, content?, inode?_nextId]
      rfl
  · exact Or.inl (content?_addEntry_of_not_isDirectory hdir hnew hplain)

theorem link_addEntry_of_removeEntry {c : Content} (hlink : isLink (some c) = true)
    (hc : ((t.removeEntry dir name).child? d n).bind (t.removeEntry dir name).content? = some c) :
    ((t.addEntry dir name node).child? d n).bind (t.addEntry dir name node).content? = some c := by
  obtain ⟨id, hid, hcontent⟩ := Option.bind_eq_some_iff.1 hc
  rw [child?_removeEntry] at hid
  split at hid
  · cases hid
  · rename_i hother
    rw [child?_addEntry_of_ne hdir hnode hother, hid, Option.bind_some]
    rcases content?_addEntry_of_removeEntry name hdir hnode id with
      hsame | ⟨-, hnone⟩
    · rw [hsame, hcontent]
    · rw [hcontent, hlink] at hnone
      cases hnone

theorem not_isLink_addEntry_of_removeEntry
    (h : isLink (((t.removeEntry dir name).child? d n).bind (t.removeEntry dir name).content?)
      = false) :
    isLink (((t.addEntry dir name node).child? d n).bind (t.addEntry dir name node).content?)
      = false := by
  by_cases hplace : d = dir ∧ n = name
  · rw [hplace.1, hplace.2, child?_addEntry_self hdir hnode, Option.bind_some, content?,
      inode?_addEntry_nextId hdir, Option.map_some, hnode]
    rfl
  rw [child?_removeEntry, if_neg hplace] at h
  rw [child?_addEntry_of_ne hdir hnode hplace]
  cases hentry : t.child? d n with
  | none => rfl
  | some id =>
    rw [hentry, Option.bind_some] at h
    rw [Option.bind_some]
    rcases content?_addEntry_of_removeEntry name hdir hnode id with
      hsame | ⟨hplain, -⟩
    · rw [hsame, h]
    · exact hplain

theorem find_addEntry_of_removeEntry {id : InodeId}
    (h : (t.removeEntry dir name).find d n = .ok (some id)) :
    (t.addEntry dir name node).find d n = .ok (some id) := by
  have hentry := child?_eq_of_find h
  rw [child?_removeEntry] at hentry
  split at hentry
  · cases hentry
  · rename_i hother
    rw [Tree.find, child?_addEntry_of_ne hdir hnode hother, hentry]

/-- A walk that does without an entry makes the same steps where a new file is in its place. -/
theorem Walks.addEntry_of_removeEntry {follow : Bool → Bool} {budget : Nat} {steps : List Step}
    {slash : Bool} {place : Place}
    (h : Walks (t.removeEntry dir name) who follow budget d steps slash place) :
    Walks (t.addEntry dir name node) who follow budget d steps slash place := by
  induction h with
  | reached => exact .reached
  | dot hpass => exact .dot (pass_addEntry_of_removeEntry hdir hpass)
  | dotdot hpass => exact .dotdot (pass_addEntry_of_removeEntry hdir hpass)
  | stay hpass hrest _ ih => exact .stay (pass_addEntry_of_removeEntry hdir hpass) hrest ih
  | ascend hpass hrest _ ih =>
    rw [parent_removeEntry, ← parent_addEntry hdir hnode] at ih
    exact .ascend (pass_addEntry_of_removeEntry hdir hpass) hrest ih
  | last hpass hname =>
    exact .last (pass_addEntry_of_removeEntry hdir hpass)
      (hname.imp_right (not_isLink_addEntry_of_removeEntry hdir hnode))
  | descend hpass hrest hlink hfind hdirectory _ ih =>
    refine .descend (pass_addEntry_of_removeEntry hdir hpass) hrest
      (not_isLink_addEntry_of_removeEntry hdir hnode hlink)
      (find_addEntry_of_removeEntry hdir hnode hfind) ?_ ih
    rw [isDirectory_removeEntry] at hdirectory
    rwa [isDirectory_addEntry hdir hnode]
  | symlink hpass hgo hlink _ ih =>
    exact .symlink (pass_addEntry_of_removeEntry hdir hpass) hgo
      (link_addEntry_of_removeEntry hdir hnode rfl hlink) ih
  | jump hpass hgo hlink _ ih =>
    exact .jump (pass_addEntry_of_removeEntry hdir hpass) hgo
      (link_addEntry_of_removeEntry hdir hnode rfl hlink) ih

/-- A path that does without an entry leads where it led where a new file is in its place. -/
theorem locate_addEntry_of_removeEntry {cwd : InodeId} {follow : Bool → Bool} {path : Path}
    {place : Place} (h : (t.removeEntry dir name).locate who cwd follow path = .ok place) :
    (t.addEntry dir name node).locate who cwd follow path = .ok place := by
  unfold Tree.locate at h ⊢
  obtain ⟨hempty, h⟩ := ite_error_eq_ok_iff.1 h
  obtain ⟨hlong, h⟩ := ite_error_eq_ok_iff.1 h
  rw [if_neg hempty, if_neg hlong]
  rw [walk_eq_ok_iff] at h ⊢
  exact h.addEntry_of_removeEntry hdir hnode

/-- A directory that is part of the tree without an entry is so with a new file in its place. -/
theorem isLinked_addEntry_of_removeEntry (hd : d ≠ t.nextId)
    (h : (t.removeEntry dir name).isLinked d = true) :
    (t.addEntry dir name node).isLinked d = true := by
  rw [isLinked, Bool.or_eq_true, decide_eq_true_eq] at h ⊢
  refine h.imp_right fun hname => ?_
  rw [parent_removeEntry, nameOf?, removeEntry, entries?_updateEntries] at hname
  rw [parent_addEntry hdir hnode, nameOf?, entries?_addEntry hdir hnode]
  split at hname
  · rename_i hparent
    rw [if_pos hparent]
    cases hentries : t.entries? dir with
    | none =>
      rw [hentries] at hname
      cases hname
    | some entries =>
      rw [hentries, Option.map_some, Option.bind_some] at hname
      rw [Option.map_some, Option.bind_some]
      -- The new entry leads to the new file, which is another one.
      have hfound : (entries.insert name t.nextId).findKey? (· = d)
          = (entries.erase name).findKey? (· = d) := by
        simp [FinMap.findKey?, FinMap.insert, hd.symm]
      rwa [hfound]
  · rename_i hparent
    rwa [if_neg hparent]

/-- Beside an entry that the directory does without, a name that was free is free. -/
theorem Vacant.addEntry_of_removeEntry (h : t.Vacant dir n) (hother : n ≠ name)
    (hlinked : (t.removeEntry dir name).isLinked dir = true) :
    (t.addEntry dir name node).Vacant dir n := by
  have hnew := ne_nextId_of_isDirectory hdir
  obtain ⟨hfree, htakes, hshort⟩ := find_eq_ok_none_iff.1 h.find
  refine ⟨?_, find_eq_ok_none_iff.2 ⟨?_, ?_, hshort⟩⟩
  · rwa [isDirectory_addEntry hdir hnode]
  · rwa [child?_addEntry_of_ne hdir hnode fun hsame => hother hsame.2]
  · rw [Tree.takesNames] at htakes ⊢
    rw [isLinked_addEntry_of_removeEntry hdir hnode hnew hlinked, volume_addEntry hdir hnew]
    exact Bool.and_eq_true_iff.2 ⟨rfl, (Bool.and_eq_true_iff.1 htakes).2⟩

end Overwriting

end Tree

namespace Machine

/-- Whether the directory in which a path ends is reached, and part of the tree, without the entry
at the end of the path. -/
def ReachedApart (m : Machine) (path : Path) : Prop :=
  ∀ dir name, m.locate (fun _ => false) path = .ok (.entry dir name false) →
    (m.withTree (m.tree.removeEntry dir name)).locate (fun _ => false) path
        = .ok (.entry dir name false)
      ∧ (m.tree.isLinked dir = true → (m.tree.removeEntry dir name).isLinked dir = true)

variable {m m' : Machine} {path : Path} {dir id : InodeId} {name : Name} {node : Inode}

/-! ## A regular file at the end of a path -/

/-- Whether a path leads to an entry with a regular file. -/
structure Occupied (m : Machine) (path : Path) (dir : InodeId) (name : Name) (id : InodeId)
    (node : Inode) : Prop where
  located : m.locate (fun _ => false) path = .ok (.entry dir name false)
  entry : m.tree.child? dir name = some id
  inode : m.tree.inode? id = some node
  regular : ∃ data, node.content = .file data

namespace Occupied

variable (h : m.Occupied path dir name id node)

include h

theorem find : m.tree.find dir name = .ok (some id) := by
  rw [Tree.find, h.entry]

theorem isDirectory : m.tree.isDirectory id = false := by
  obtain ⟨data, hdata⟩ := h.regular
  simp [Tree.isDirectory, Tree.entries?, Tree.content?, h.inode, hdata, Content.entries?]

/-- The file is no link, so that the path leads to it in any case. -/
theorem locate (follow : Bool → Bool) : m.locate follow path = .ok (.entry dir name false) := by
  obtain ⟨data, hdata⟩ := h.regular
  refine locate_of_not_isLink h.located ?_ follow
  rw [h.entry, Option.bind_some, Tree.content?, h.inode, Option.map_some, hdata]
  rfl

/-- The path shows the permissions of the file. -/
theorem stat_eq (follow : Bool) : ∃ stat, m.stat path follow = .ok (stat, m)
    ∧ stat.perm = node.perm := by
  have hresolve : m.resolve (fun slash => follow || slash) path = .ok id :=
    bind_eq_ok_iff.2 ⟨_, h.locate _, bind_eq_ok_iff.2 ⟨_, h.find, rfl⟩⟩
  have hdescribe : ∃ stat, m.describe id = .ok stat ∧ stat.perm = node.perm := by
    simp only [describe, h.inode]
    exact ⟨_, rfl, rfl⟩
  obtain ⟨stat, hstat, hperm⟩ := hdescribe
  exact ⟨stat, bind_eq_ok_iff.2 ⟨id, hresolve, bind_eq_ok_iff.2 ⟨stat, hstat, rfl⟩⟩, hperm⟩

end Occupied

/-! ## After a file has come to the end of a path -/

namespace ReachedApart

variable {data : Bytes} (h : m.ReachedApart path)
  (hplace : m.locate (fun _ => false) path = .ok (.entry dir name false))
  (htree : m'.tree.Same (m.tree.addEntry dir name node)) (hnode : node.content = .file data)

include h hplace htree hnode

/-- The path leads to the file. -/
theorem occupied (hcwd : m'.cwd = m.cwd) (hwho : m'.who = m.who) :
    m'.Occupied path dir name m.tree.nextId node := by
  have hdir := isDirectory_of_locate hplace
  obtain ⟨hwithout, -⟩ := h dir name hplace
  refine ⟨?_, ?_, ?_, data, hnode⟩
  · rw [locate, htree.locate, hcwd, hwho]
    exact Tree.locate_addEntry_of_removeEntry hdir hnode hwithout
  · rw [htree.child?]
    exact Tree.child?_addEntry_self hdir hnode
  · rw [htree.inode?]
    exact Tree.inode?_addEntry_nextId hdir

/-- The directory can be changed as before. -/
theorem mayChangeEntries (hwho : m'.who = m.who) (hallowed : m.mayChangeEntries dir = .ok ()) :
    m'.mayChangeEntries dir = .ok () := by
  have hdir := isDirectory_of_locate hplace
  have hnew := Tree.ne_nextId_of_isDirectory hdir
  have hinode := Tree.inode?_addEntry_eq_map name node hdir hnew
  rw [← htree.inode?] at hinode
  have hlinked : m.tree.isLinked dir = true := by
    unfold Machine.mayChangeEntries at hallowed
    simpa using (ite_error_eq_ok_iff.1 hallowed).1
  have hlinked' : m'.tree.isLinked dir = true := by
    rw [htree.isLinked]
    exact Tree.isLinked_addEntry_of_removeEntry hdir hnode hnew ((h dir name hplace).2 hlinked)
  rw [mayChangeEntries_congr hwho hinode (hlinked'.trans hlinked.symm), hallowed]

/-- Beside the file there is as much room as before. -/
theorem vacant {n : Name} (hfree : m.tree.Vacant dir n) (hother : n ≠ name) :
    m'.tree.Vacant dir n := by
  have hlinked : m.tree.isLinked dir = true := (Bool.and_eq_true_iff.1 hfree.takesNames).1
  have hvacant : (m.tree.addEntry dir name node).Vacant dir n :=
    hfree.addEntry_of_removeEntry (isDirectory_of_locate hplace) hnode hother
      ((h dir name hplace).2 hlinked)
  exact ⟨by rw [htree.isDirectory, hvacant.isDirectory], by rw [htree.find, hvacant.find]⟩

end ReachedApart

end Machine

namespace Stage.At

variable {s : Stage} {m : Machine} {data : Bytes} {perm : UInt32} {path : Path}
  {dir id : InodeId} {name : Name} {node : Inode}

/-- A file that was there stays while another one is prepared. -/
theorem occupied (h : s.At data perm m) (ho : s.start.Occupied path dir name id node) :
    m.Occupied path dir name id node where
  located := (h.locate _ _).eq_of_ok ho.located
  entry := by
    have hother : ¬ (dir = s.dir ∧ name = s.name) := by
      rintro ⟨rfl, rfl⟩
      have hentry := ho.entry
      rw [s.vacant.child?] at hentry
      cases hentry
    rw [h.tree.child?, Stage.tree, Tree.child?_addEntry_of_ne s.vacant.isDirectory node_content
      hother]
    exact ho.entry
  inode := by
    have hnew : id ≠ s.start.tree.nextId := Tree.ne_nextId_of_isSome (Option.isSome_of_mem ho.inode)
    have hother : id ≠ s.dir := by
      rintro rfl
      have hfile := ho.isDirectory
      rw [s.vacant.isDirectory] at hfile
      cases hfile
    rw [h.tree.inode?, Stage.tree, Tree.inode?_addEntry_of_ne s.vacant.isDirectory hnew hother]
    exact ho.inode
  regular := ho.regular

/-- The file that is being prepared can be moved over one in its directory. -/
theorem rename_occupied (h : s.At data perm m) (ho : s.start.Occupied path s.dir name id node) :
    ∃ m', m.rename s.path path = .ok ((), m') := by
  have hgoal := h.occupied ho
  have hdifferent : some id ≠ some s.id := by
    intro hsame
    have hsome := Tree.ne_nextId_of_isSome (Option.isSome_of_mem ho.inode)
    exact hsome (Option.some.inj hsame)
  have hmount : m.tree.isMount s.id = false := by rw [Tree.isMount, h.isDirectory, Bool.false_and]
  have hmount' : m.tree.isMount id = false := by
    rw [Tree.isMount, hgoal.isDirectory, Bool.false_and]
  have hreplace : m.mayReplace s.dir id false = .ok () := by
    refine bind_eq_ok_iff.2 ⟨(), h.mayChangeEntries, ?_⟩
    rw [hgoal.isDirectory]
    rfl
  refine ⟨m.moveEntry s.dir s.name s.dir name s.id, ?_⟩
  refine bind_eq_ok_iff.2 ⟨_, h.locate_path _, bind_eq_ok_iff.2 ⟨_, hgoal.located, ?_⟩⟩
  refine ite_error_eq_ok_iff.2 ⟨fun h => h rfl, bind_eq_ok_iff.2 ⟨_, h.find, ?_⟩⟩
  refine bind_eq_ok_iff.2 ⟨_, hgoal.find, ?_⟩
  simp only [h.isDirectory, hgoal.isDirectory, hmount, hmount', Bool.not_false, Bool.or_self,
    Bool.and_false, Bool.false_and, Bool.false_eq_true, Option.any_some, if_false]
  rw [if_neg hdifferent, h.mayChangeEntries]
  simp only [hreplace]
  rfl

end Stage.At

end PortableFiles
