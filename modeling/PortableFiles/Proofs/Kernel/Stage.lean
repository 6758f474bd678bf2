import PortableFiles.Proofs.Kernel.Opening
set_option autoImplicit false

/-!
# A file that is being prepared

A process makes a new file, writes it, sets its permissions, and in the end moves it to its place
or removes it.  `Stage` is what stays the same meanwhile: where the file is and what was there
before.  `Stage.At` says that a machine differs from the one before the file was made by the file
alone, with given bytes and permissions.  Every call that concerns the file leads from one such
machine to another (`Stage.Holds.of_outcome`); renaming and unlinking are the two ways out.
-/

namespace PortableFiles

/-- A new file, as it was made: the machine before, the place that was free there, a path that
leads to it, and the number under which the file was opened. -/
structure Stage where
  start : Machine
  dir : InodeId
  name : Name
  path : Path
  file : Descriptor
  vacant : start.tree.Vacant dir name
  located : start.locate (fun _ => false) path = .ok (.entry dir name false)
  allowed : start.mayChangeEntries dir = .ok ()

namespace Machine

/-- The permissions that a file gets for which `perm` is asked.  Only a member of its group may let
it lend the group's rights. -/
def granted (m : Machine) (node : Inode) (perm : UInt32) : UInt32 :=
  if m.who.privileged || m.who.gid = node.gid then perm &&& permMask
  else perm &&& permMask &&& 0o5777

/-- Setting permissions gives the file at the path those that the process may give it. -/
theorem chmod_cases {m m' : Machine} {path : Path} {perm : UInt32}
    (h : m.chmod path perm = .ok ((), m')) :
    ∃ id node, m.resolve (fun _ => true) path = .ok id ∧ m.tree.inode? id = some node
      ∧ m'.tree = m.tree.updateInode id (fun n => { n with perm := m.granted node perm })
      ∧ m'.files = m.files := by
  obtain ⟨⟨id, node⟩, hinode, h⟩ := bind_eq_ok_iff.1 h
  obtain ⟨id', hid, hinode⟩ := bind_eq_ok_iff.1 hinode
  obtain ⟨-, h⟩ := ite_error_eq_ok_iff.1 h
  obtain ⟨_, _, h⟩ := bind_eq_ok_iff.1 h
  cases h
  cases hnode : m.tree.inode? id' with
  | none => simp [hnode] at hinode
  | some found =>
    simp only [hnode] at hinode
    cases hinode
    exact ⟨id, node, hid, hnode, rfl, rfl⟩

/-- Whether entries may be changed depends on what a directory is, not on its entries. -/
theorem mayChangeEntries_congr {m m' : Machine} {dir : InodeId} (hwho : m'.who = m.who)
    (hdir : ∃ f, m'.tree.inode? dir = (m.tree.inode? dir).map (Inode.mapEntries f))
    (hlinked : m'.tree.isLinked dir = m.tree.isLinked dir) :
    m'.mayChangeEntries dir = m.mayChangeEntries dir := by
  obtain ⟨f, hinode⟩ := hdir
  have hmay : m'.may dir .write = m.may dir .write := by
    rw [may, hinode, hwho, may]
    cases m.tree.inode? dir <;> simp [Credentials.may]
  have hfixed : (m'.tree.inode? dir).any (·.fixed = .everything)
      = (m.tree.inode? dir).any (·.fixed = .everything) := by
    rw [hinode]
    cases m.tree.inode? dir <;> simp
  rw [mayChangeEntries, hlinked, hmay, hfixed, mayChangeEntries]

/-- The permissions of a file after some bytes are written to it. -/
def permAfter (m : Machine) (data : Bytes) (perm : UInt32) : UInt32 :=
  if data = [] || m.who.privileged then perm else withoutLentRights perm

end Machine

namespace Stage

variable {s : Stage} {m m' : Machine} {data more : Bytes} {perm perm' : UInt32}

/-- The inode of the file. -/
def id (s : Stage) : InodeId := s.start.tree.nextId

/-- The file with some bytes and permissions. -/
def node (s : Stage) (data : Bytes) (perm : UInt32) : Inode :=
  s.start.newInode s.dir (.file data) perm

/-- The tree with the file in it. -/
def tree (s : Stage) (data : Bytes) (perm : UInt32) : Tree :=
  s.start.tree.addEntry s.dir s.name (s.node data perm)

/-- The file as it is open after some bytes were written. -/
def openFile (s : Stage) (data : Bytes) : OpenFile :=
  { OpenHow.making.file s.id (.entry s.dir s.name) with offset := data.length }

/-- A machine on which the file has the given bytes and permissions, and all else is as it was. -/
structure At (s : Stage) (data : Bytes) (perm : UInt32) (m : Machine) : Prop where
  tree : m.tree.Same (s.tree data perm)
  cwd : m.cwd = s.start.cwd
  who : m.who = s.start.who
  file : ∀ f, m.file? s.file = some f → f = s.openFile data

/-- A machine on which the file has some bytes and permissions. -/
def Holds (s : Stage) (m : Machine) : Prop := ∃ data perm, s.At data perm m

@[simp] theorem node_content : (s.node data perm).content = .file data := rfl

@[simp] theorem node_perm : (s.node data perm).perm = perm :=
  s.start.newInode_file_perm s.dir data perm

/-- The file with other permissions. -/
theorem node_with_perm : { s.node data perm with perm := perm' } = s.node data perm' := by
  simp [node, Machine.newInode, Content.isDirectory, Content.entries?]

/-- The file after some bytes are written. -/
theorem changed_node (hwho : m.who = s.start.who) (hmore : more ≠ []) (after : Bytes) :
    m.changed (.file after) (s.node data perm)
      = s.node after (s.start.permAfter more perm) := by
  simp [Machine.changed, Machine.permAfter, hmore, hwho, node, Machine.newInode,
    Content.isDirectory, Content.entries?]

/-! ## What the tree with the file shows -/

theorem inode?_tree : (s.tree data perm).inode? s.id = some (s.node data perm) :=
  Tree.inode?_addEntry_nextId s.vacant.isDirectory

theorem find_tree : (s.tree data perm).find s.dir s.name = .ok (some s.id) :=
  Tree.find_addEntry_self s.vacant.isDirectory node_content

theorem isDirectory_tree : (s.tree data perm).isDirectory s.id = false := by
  simp [Tree.isDirectory, Tree.entries?, Tree.content?, inode?_tree, Content.entries?]

namespace At

theorem inode? (h : s.At data perm m) : m.tree.inode? s.id = some (s.node data perm) := by
  rw [h.tree.inode?, inode?_tree]

theorem content? (h : s.At data perm m) : m.tree.content? s.id = some (.file data) := by
  rw [Tree.content?, h.inode?]
  rfl

theorem find (h : s.At data perm m) : m.tree.find s.dir s.name = .ok (some s.id) := by
  rw [h.tree.find, find_tree]

theorem isDirectory (h : s.At data perm m) : m.tree.isDirectory s.id = false := by
  rw [h.tree.isDirectory, isDirectory_tree]

theorem child? (h : s.At data perm m) : m.tree.child? s.dir s.name = some s.id := by
  rw [h.tree.child?]
  exact Tree.child?_addEntry_self s.vacant.isDirectory node_content

/-- A path leads where it led before the file was made, or nowhere for another reason. -/
theorem locate (h : s.At data perm m) (follow : Bool → Bool) (path : Path) :
    Tree.EndsAs (m.locate follow path) (s.start.locate follow path) := by
  rw [Machine.locate, h.cwd, h.who, h.tree.locate]
  exact Tree.locate_addEntry s.vacant node_content _ _

/-- The path of the file leads to it, whether or not links are followed. -/
theorem locate_path (h : s.At data perm m) (follow : Bool → Bool) :
    m.locate follow s.path = .ok (.entry s.dir s.name false) := by
  have hfile : Tree.isLink ((m.tree.child? s.dir s.name).bind m.tree.content?) = false := by
    rw [h.child?, Option.bind_some, h.content?]
    rfl
  exact Machine.locate_of_not_isLink ((h.locate _ _).eq_of_ok s.located) hfile follow

theorem resolve_path (h : s.At data perm m) (follow : Bool → Bool) :
    m.resolve follow s.path = .ok s.id := by
  refine bind_eq_ok_iff.2 ⟨_, h.locate_path follow, bind_eq_ok_iff.2 ⟨_, h.find, ?_⟩⟩
  rfl

/-- An inode that was there may only have other entries. -/
theorem inode?_eq_map (h : s.At data perm m) {id : InodeId} (hid : id ≠ s.start.tree.nextId) :
    ∃ f, m.tree.inode? id = (s.start.tree.inode? id).map (Inode.mapEntries f) := by
  rw [h.tree.inode?]
  exact Tree.inode?_addEntry_eq_map s.name (s.node data perm) s.vacant.isDirectory hid

/-- The directory of the file may be changed as before. -/
theorem mayChangeEntries (h : s.At data perm m) : m.mayChangeEntries s.dir = .ok () := by
  have hne := Tree.ne_nextId_of_isDirectory s.vacant.isDirectory
  have hlinked : m.tree.isLinked s.dir = s.start.tree.isLinked s.dir := by
    rw [h.tree.isLinked]
    exact Tree.isLinked_addEntry s.vacant node_content hne
  rw [Machine.mayChangeEntries_congr h.who (h.inode?_eq_map hne) hlinked, s.allowed]

/-- Questions concern no file. -/
theorem answer (h : s.At data perm m) (q : Query) : s.At data perm (q.answer m).2 := by
  refine ⟨?_, ?_, ?_, ?_⟩
  · rw [q.tree_answer]
    exact h.tree
  · rw [q.cwd_answer]
    exact h.cwd
  · rw [q.who_answer]
    exact h.who
  · intro f hf
    rw [Machine.file?, q.files_answer] at hf
    exact h.file f hf

/-- Bytes that are written come after those that were. -/
theorem write (h : s.At data perm m) {count : Nat}
    (hwrite : m.write s.file more = .ok (count, m')) :
    count = more.length ∧ s.At (data ++ more) (s.start.permAfter more perm) m' := by
  obtain ⟨hcount, f, hfile, hcases⟩ := Machine.write_cases hwrite
  obtain rfl := h.file f hfile
  refine ⟨hcount, ?_⟩
  rcases hcases with ⟨rfl, rfl | hnone⟩ | ⟨old, hmore, hold, htree, hfiles⟩
  · rw [List.append_nil]
    exact h
  · exact absurd h.content? (hnone data)
  · obtain rfl : old = data := Content.file.inj (Option.some.inj (hold.symm.trans h.content?))
    have hplace : (s.openFile old).writesAt old = old.length := rfl
    have hprocess := Call.process_perform (c := .write s.file more) hwrite
    rw [hplace, Machine.splice_length] at htree
    refine ⟨?_, (congrArg Process.cwd hprocess).trans h.cwd,
      (congrArg Process.who hprocess).trans h.who, fun f hf => ?_⟩
    · rw [htree]
      refine (h.tree.updateInode _ _).trans
        ((Tree.updateInode_addEntry s.vacant.isDirectory _).trans ?_)
      rw [changed_node h.who hmore]
      exact .refl _
    · rw [Machine.file?_of_insert hfile hfiles, hplace] at hf
      cases hf
      simp [openFile]

/-- Once closed, the file stays as it is. -/
theorem close (h : s.At data perm m) (hclose : m.close s.file = .ok ((), m')) :
    s.At data perm m' := by
  obtain ⟨htree, hclosed, -⟩ := Machine.close_cases hclose
  have hprocess := Call.process_perform (c := .close s.file) hclose
  refine ⟨htree ▸ h.tree, (congrArg Process.cwd hprocess).trans h.cwd,
    (congrArg Process.who hprocess).trans h.who, fun f hf => ?_⟩
  rw [hclosed] at hf
  cases hf

/-- A description of the open file shows its permissions. -/
theorem statOpen (h : s.At data perm m) {stat : Stat}
    (hstat : m.statOpen s.file = .ok (stat, m')) :
    (m.file? s.file).isSome = true ∧ stat.perm = perm := by
  unfold Machine.statOpen at hstat
  cases hfile : m.file? s.file with
  | none => simp [hfile] at hstat
  | some f =>
    obtain rfl := h.file f hfile
    have hinode : m.tree.inode? (s.openFile data).inode = some (s.node data perm) := h.inode?
    simp only [hfile, Machine.describe, hinode, Except.map] at hstat
    cases hstat
    exact ⟨rfl, node_perm⟩

/-- The file gets the permissions that the process may give it. -/
theorem chmod (h : s.At data perm m) (hchmod : m.chmod s.path perm' = .ok ((), m')) :
    s.At data (s.start.granted (s.node data perm) perm') m' := by
  obtain ⟨id, node, hid, hnode, htree, hfiles⟩ := Machine.chmod_cases hchmod
  obtain rfl := Except.ok.inj ((h.resolve_path _).symm.trans hid)
  obtain rfl := Option.some.inj (h.inode?.symm.trans hnode)
  have hprocess := Call.process_perform (c := .chmod s.path perm') hchmod
  refine ⟨?_, (congrArg Process.cwd hprocess).trans h.cwd,
    (congrArg Process.who hprocess).trans h.who, fun f hf => ?_⟩
  · rw [htree]
    refine (h.tree.updateInode _ _).trans
      ((Tree.updateInode_addEntry s.vacant.isDirectory _).trans ?_)
    rw [node_with_perm, Machine.granted, h.who, Machine.granted]
    exact .refl _
  · rw [Machine.file?, hfiles] at hf
    exact h.file f hf

/-- Without its name, nothing is left but the inode. -/
theorem removeEntry (h : s.At data perm m) :
    (m.tree.removeEntry s.dir s.name).Same (s.start.tree.addInode (s.node data perm)) := by
  have hfree : (s.start.tree.addInode (s.node data perm)).child? s.dir s.name = none := by
    rw [Tree.child?_addInode _ node_content]
    exact s.vacant.child?
  exact (h.tree.updateInode _ _).trans (Tree.removeEntry_setEntry hfree)

/-- The file can always be removed, and then no name leads to it. -/
theorem unlink (h : s.At data perm m) :
    ∃ m', m.unlink s.path = .ok ((), m')
      ∧ m'.tree.Same (s.start.tree.addInode (s.node data perm)) := by
  refine ⟨m.dropEntry s.dir s.name s.id, ?_, ?_⟩
  · refine bind_eq_ok_iff.2 ⟨_, h.locate_path _, bind_eq_ok_iff.2 ⟨_, h.find, ?_⟩⟩
    refine bind_eq_ok_iff.2 ⟨_, h.mayChangeEntries, ?_⟩
    rw [h.isDirectory]
    exact rfl
  · exact h.removeEntry

/-- Where renaming succeeds, the file has left its place for the one to which the other path
leads. -/
theorem rename (h : s.At data perm m) {destination : Path}
    (hclosed : ∀ d n, s.start.tree.child? d n ≠ some s.id)
    (hrename : m.rename s.path destination = .ok ((), m')) :
    ∃ dir name, s.start.locate (fun _ => false) destination = .ok (.entry dir name false)
      ∧ m'.tree.Same (s.start.tree.addEntry dir name (s.node data perm)) := by
  obtain ⟨origin, horigin, hrename⟩ := bind_eq_ok_iff.1 hrename
  obtain ⟨goal, hgoal, hrename⟩ := bind_eq_ok_iff.1 hrename
  rw [h.locate_path] at horigin
  cases horigin
  obtain ⟨-, hrename⟩ := ite_error_eq_ok_iff.1 hrename
  cases goal with
  | reached dir => cases hrename
  | dots dir up => cases hrename
  | entry dir name slash =>
    obtain ⟨found, hfound, hrename⟩ := bind_eq_ok_iff.1 hrename
    rw [h.find] at hfound
    cases hfound
    obtain ⟨target, htarget, hrename⟩ := bind_eq_ok_iff.1 hrename
    obtain ⟨hslash, hrename⟩ := ite_error_eq_ok_iff.1 hrename
    obtain rfl : slash = false := by simpa [h.isDirectory] using hslash
    refine ⟨dir, name, (h.locate _ _).eq_of_ok' hgoal, ?_⟩
    obtain ⟨-, hrename⟩ := ite_error_eq_ok_iff.1 hrename
    obtain ⟨-, hrename⟩ := ite_error_eq_ok_iff.1 hrename
    obtain ⟨-, hrename⟩ := ite_error_eq_ok_iff.1 hrename
    by_cases hsame : target = some s.id
    · -- The file is in its place already.
      rw [if_pos hsame] at hrename
      cases hrename
      rw [hsame] at htarget
      have hentry := Tree.child?_eq_of_find htarget
      rw [h.tree.child?, Stage.tree,
        Tree.child?_addEntry s.vacant.isDirectory node_content] at hentry
      split at hentry
      · rename_i hplace
        rw [hplace.1, hplace.2]
        exact h.tree
      · exact absurd hentry (hclosed dir name)
    · rw [if_neg hsame] at hrename
      have hmoved : m' = m.moveEntry s.dir s.name dir name s.id := by
        simp only [h.isDirectory, Bool.false_and, Bool.false_eq_true, if_false] at hrename
        obtain ⟨_, -, hrename⟩ := bind_eq_ok_iff.1 hrename
        cases target with
        | none =>
          obtain ⟨_, -, hrename⟩ := bind_eq_ok_iff.1 hrename
          obtain ⟨-, hrename⟩ := ite_error_eq_ok_iff.1 hrename
          cases hrename
          rfl
        | some replaced =>
          obtain ⟨_, -, hrename⟩ := bind_eq_ok_iff.1 hrename
          obtain ⟨-, hrename⟩ := ite_error_eq_ok_iff.1 hrename
          cases hrename
          rfl
      have htree : m'.tree = (m.tree.removeEntry s.dir s.name).setEntry dir name s.id := by
        rw [hmoved]
        change (if m.tree.isDirectory s.id then _ else _) = _
        rw [h.isDirectory]
        rfl
      rw [htree]
      exact h.removeEntry.updateInode _ _

end At

/-! ## Calls that concern the file -/

/-- Whether a call concerns the file while it is prepared, or only looks at a path. -/
def Concerns (s : Stage) : Call → Prop
  | .write file _ | .sync file | .statOpen file | .close file => file = s.file
  | .stat .. => True
  | .chmod path _ => path = s.path
  | _ => False

/-- Whatever comes of a call that concerns the file, all else stays as it was. -/
theorem Holds.of_outcome {fails : Call → Errno → Prop} {c : Call} {reply : Except Errno c.Value}
    (h : s.Holds m) (hc : s.Concerns c) (houtcome : c.Outcome fails m reply m') : s.Holds m' := by
  obtain ⟨data, perm, hat⟩ := h
  cases houtcome with
  | refused _ => exact ⟨data, perm, hat⟩
  | failed _ => exact ⟨data, perm, hat⟩
  | short _ hwrite =>
    obtain rfl := hc
    exact ⟨_, _, (hat.write hwrite).2⟩
  | done hperform =>
    cases c with
    | write file more =>
      obtain rfl := hc
      exact ⟨_, _, (hat.write hperform).2⟩
    | close file =>
      obtain rfl := hc
      exact ⟨_, _, hat.close hperform⟩
    | chmod path perm =>
      obtain rfl := hc
      exact ⟨_, _, hat.chmod hperform⟩
    | sync | statOpen | stat =>
      rw [Call.machine_perform_of_looks (by trivial) hperform]
      exact ⟨data, perm, hat⟩
    | _ => cases hc

/-- Whatever comes of closing, the file is as it was. -/
theorem At.of_close {fails : Call → Errno → Prop} {reply : Except Errno Unit}
    (h : s.At data perm m) (houtcome : (Call.close s.file).Outcome fails m reply m') :
    s.At data perm m' := by
  cases reply with
  | ok _ => exact h.close (houtcome.perform_eq_ok fun _ _ h => by cases h)
  | error e =>
    rw [houtcome.eq_of_error]
    exact h

/-- Opening for a new file, where it succeeds, begins the preparation of one. -/
theorem of_openFile {path : Path} {file : Descriptor}
    (h : m.openFile path .making perm = .ok (file, m')) :
    ∃ s : Stage, s.start = m ∧ s.path = path ∧ s.file = file ∧ s.At [] (m.masked perm) m' := by
  obtain ⟨dir, name, hlocated, hvacant, hallowed, hopened⟩ := Machine.openFile_making_eq_ok h
  refine ⟨⟨m, dir, name, path, file, hvacant, hlocated, hallowed⟩, rfl, rfl, rfl, ?_⟩
  cases hopened
  refine ⟨.refl _, rfl, rfl, ?_⟩
  intro f hf
  simp only [Machine.file?] at hf
  split at hf
  · rw [FinMap.get?_insert] at hf
    simp only [Int.toNat_natCast, if_true] at hf
    cases hf
    rfl
  · cases hf

end Stage

end PortableFiles
