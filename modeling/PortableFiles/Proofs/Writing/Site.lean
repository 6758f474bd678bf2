import PortableFiles.Proofs.Kernel.Ways
import PortableFiles.Proofs.Writing.Copy
import PortableFiles.Platform.Posix
set_option autoImplicit false

/-!
# A file that is written where it is

A process opens a file at a path, which it may have to make, writes to its end, sets its
permissions and closes it.  `Site` is what stays the same meanwhile: the machine just after the file
was opened, the path and the inode to which it leads.  `Site.At` says that a machine differs from
that one by this inode alone, which holds what it held and then the given bytes.  `Site.Begun` says
how the file came to be open: it was found, and its bytes may have been dropped, or it was made.
-/

namespace PortableFiles

/-- The content after some bytes are written to its end.  A device keeps none. -/
def Content.append (data : Bytes) : Content → Content
  | .file old => .file (old ++ data)
  | other => other

/-- The content after its bytes are dropped. -/
def Content.emptied : Content → Content
  | .file _ => .file []
  | other => other

namespace Content

variable {c : Content} {data more : Bytes}

theorem isLeaf_append (h : c.isLeaf = true) : (c.append data).isLeaf = true := by
  cases c <;> exact h

theorem append_nil : c.append [] = c := by
  cases c <;> simp [append]

theorem append_of_forall_ne (h : ∀ old, c ≠ .file old) : c.append data = c := by
  cases c <;> first | rfl | exact absurd rfl (h _)

theorem isLeaf_emptied (h : c.isLeaf = true) : c.emptied.isLeaf = true := by
  cases c <;> exact h

theorem emptied_of_data?_eq_none (h : c.data? = none) : c.emptied = c := by
  cases c <;> first | rfl | cases h

theorem append_append : (c.append data).append more = c.append (data ++ more) := by
  cases c <;> simp [append]

end Content

/-- The first write to a file that was opened goes to its end, if it was opened for appending or its
bytes were dropped. -/
theorem OpenHow.writesAt_file (how : OpenHow) (id : InodeId) (location : Location) {bytes : Bytes}
    (h : how.append = false → bytes = []) :
    (how.file id location).writesAt bytes = bytes.length := by
  change (if how.append then bytes.length else 0) = bytes.length
  split
  · rfl
  · rename_i happend
    rw [h (by simpa using happend), List.length_nil]

/-- A file as it was opened: the machine just after that, a path that leads to the file, the number
under which it is open, and the file.  The next write goes to its end. -/
structure Site where
  start : Machine
  path : Path
  file : Descriptor
  id : InodeId
  node : Inode
  held : start.tree.inode? id = some node
  leaf : node.content.isLeaf = true
  leads : start.resolve (fun _ => true) path = .ok id
  opened : ∀ f, start.file? file = some f → f.inode = id ∧
    ∀ bytes, node.content = .file bytes → f.writesAt bytes = bytes.length

namespace Site

variable {s : Site} {m m' : Machine} {data more : Bytes} {perm perm' : UInt32}

/-- The file after some bytes are written, with some permissions. -/
def after (s : Site) (data : Bytes) (perm : UInt32) : Inode :=
  { s.node with content := s.node.content.append data, perm := perm }

/-- The tree with that file. -/
def tree (s : Site) (data : Bytes) (perm : UInt32) : Tree :=
  s.start.tree.updateInode s.id fun _ => s.after data perm

/-- A machine on which the given bytes were written, the file has the given permissions, and all
else is as it was. -/
structure At (s : Site) (data : Bytes) (perm : UInt32) (m : Machine) : Prop where
  tree : m.tree.Same (s.tree data perm)
  process : m.process = s.start.process
  file : ∀ f, m.file? s.file = some f → f.inode = s.id ∧
    ∀ bytes, (s.after data perm).content = .file bytes → f.writesAt bytes = bytes.length

theorem isLeaf_after : (s.after data perm).content.isLeaf = true := Content.isLeaf_append s.leaf

theorem sameWays_tree : s.start.tree.SameWays (s.tree data perm) :=
  .updateInode s.held s.leaf isLeaf_after rfl

theorem inode?_tree : (s.tree data perm).inode? s.id = some (s.after data perm) := by
  rw [tree, Tree.inode?_updateInode, if_pos rfl, s.held]
  rfl

/-- What is done to the file is done last. -/
theorem updateInode_tree {f : Inode → Inode} (hf : f (s.after data perm) = s.after more perm') :
    ((s.tree data perm).updateInode s.id f).Same (s.tree more perm') := by
  refine ⟨rfl, ?_⟩
  funext i
  rw [Tree.inode?_updateInode]
  split
  · rename_i hi
    rw [inode?_tree, hi, inode?_tree, Option.map_some, hf]
  · rename_i hi
    rw [tree, tree, Tree.inode?_updateInode, Tree.inode?_updateInode, if_neg hi, if_neg hi]

namespace At

/-- Nothing is written at the start. -/
theorem start (s : Site) : s.At [] s.node.perm s.start where
  tree := by
    refine ⟨rfl, ?_⟩
    funext i
    rw [Site.tree, Tree.inode?_updateInode]
    split
    · rename_i hi
      rw [hi, s.held, Option.map_some, after, Content.append_nil]
    · rfl
  process := rfl
  file f hf := by
    rw [after, Content.append_nil]
    exact s.opened f hf

theorem inode? (h : s.At data perm m) : m.tree.inode? s.id = some (s.after data perm) := by
  rw [h.tree.inode?, inode?_tree]

theorem content? (h : s.At data perm m) :
    m.tree.content? s.id = some (s.node.content.append data) := by
  rw [Tree.content?, h.inode?]
  rfl

theorem who (h : s.At data perm m) : m.who = s.start.who := congrArg Process.who h.process

theorem cwd (h : s.At data perm m) : m.cwd = s.start.cwd := congrArg Process.cwd h.process

/-- A path leads where it led when the file was opened. -/
theorem locate (h : s.At data perm m) {follow : Bool → Bool} {path : Path} {place : Place}
    (hlocated : m.locate follow path = .ok place) : s.start.locate follow path = .ok place := by
  rw [Machine.locate, h.who, h.cwd, h.tree.locate] at hlocated
  exact sameWays_tree.symm.locate hlocated

/-- The path of the file leads to it. -/
theorem resolve_path (h : s.At data perm m) :
    m.resolve (fun _ => true) s.path = .ok s.id := by
  rw [Machine.resolve, h.who, h.cwd, h.tree.resolve]
  exact sameWays_tree.resolve s.leads

/-- Bytes that are written come after those that were. -/
theorem write (h : s.At data perm m) {count : Nat}
    (hwrite : m.write s.file more = .ok (count, m')) :
    count = more.length ∧ ∃ perm', Trimmed perm perm' ∧ s.At (data ++ more) perm' m' := by
  obtain ⟨hcount, f, hfile, hcases⟩ := Machine.write_cases hwrite
  refine ⟨hcount, ?_⟩
  obtain ⟨hinode, hend⟩ := h.file f hfile
  rw [hinode, h.content?] at hcases
  rcases hcases with ⟨rfl, hnone⟩ | ⟨bytes, hmore, hbytes, htree, hfiles⟩
  · -- Nothing is kept, so the file is also the one with the bytes.
    refine ⟨perm, .refl perm, ?_⟩
    have hsame : s.node.content.append (data ++ more) = s.node.content.append data := by
      rcases hnone with rfl | hnone
      · rw [List.append_nil]
      · rw [← Content.append_append, Content.append_of_forall_ne]
        exact fun old hold => hnone old (congrArg some hold)
    have hafter : s.after (data ++ more) perm = s.after data perm := by rw [after, hsame, after]
    exact ⟨by rw [Site.tree, hafter]; exact h.tree, h.process, by rw [hafter]; exact h.file⟩
  · have hbytes : s.node.content.append data = .file bytes := Option.some.inj hbytes
    have hmore' : s.node.content.append (data ++ more) = .file (bytes ++ more) := by
      rw [← Content.append_append, hbytes, Content.append]
    rw [hend bytes hbytes, Machine.splice_length] at htree
    refine ⟨s.start.permAfter more perm, .permAfter _ _ _, ?_, ?_, ?_⟩
    · rw [htree]
      refine (h.tree.updateInode _ _).trans (updateInode_tree ?_)
      simp [after, Machine.changed, Machine.permAfter, hmore', hmore, h.who]
    · exact (Call.process_perform (c := .write s.file more) hwrite).trans h.process
    · intro f' hf'
      rw [Machine.file?_of_insert hfile hfiles] at hf'
      cases hf'
      refine ⟨rfl, fun bytes' hbytes' => ?_⟩
      obtain rfl : bytes ++ more = bytes' := Content.file.inj (hmore'.symm.trans hbytes')
      rw [hend bytes hbytes]
      exact f.writesAt_written bytes more

/-- Once closed, the file stays as it is. -/
theorem of_close {fails : Call → Errno → Prop} {reply : Except Errno Unit} (h : s.At data perm m)
    (houtcome : (Call.close s.file).Outcome fails m reply m') : s.At data perm m' := by
  cases reply with
  | error errno =>
    rw [houtcome.eq_of_error]
    exact h
  | ok _ =>
    have hclose : m.close s.file = .ok ((), m') := houtcome.perform_eq_ok fun _ _ h => by cases h
    obtain ⟨htree, hclosed, -⟩ := Machine.close_cases hclose
    refine ⟨htree ▸ h.tree, houtcome.process.trans h.process, fun f hf => ?_⟩
    rw [hclosed] at hf
    cases hf

/-- The file gets the permissions that the process may give it. -/
theorem chmod (h : s.At data perm m) (hchmod : m.chmod s.path perm' = .ok ((), m')) :
    s.At data (s.start.granted s.node perm') m' := by
  obtain ⟨id, node, hid, hnode, htree, hfiles⟩ := Machine.chmod_cases hchmod
  obtain rfl := Except.ok.inj (h.resolve_path.symm.trans hid)
  obtain rfl := Option.some.inj (h.inode?.symm.trans hnode)
  refine ⟨?_, (Call.process_perform (c := .chmod s.path perm') hchmod).trans h.process, ?_⟩
  · rw [htree]
    refine (h.tree.updateInode _ _).trans (updateInode_tree ?_)
    rw [after, after, Machine.granted, h.who, Machine.granted]
  · intro f hf
    rw [Machine.file?, hfiles] at hf
    exact h.file f hf

/-- Without its entry the file is gone from where the path stops that follows no link at its
end. -/
theorem unlink (h : s.At data perm m) (hunlink : m.unlink s.path = .ok ((), m')) :
    ∃ dir name, s.start.locate (fun _ => false) s.path = .ok (.entry dir name false) ∧
      m'.tree.Same ((s.tree data perm).removeEntry dir name) := by
  obtain ⟨dir, name, _, hplace, -, -, rfl⟩ := Machine.unlink_cases hunlink
  exact ⟨dir, name, h.locate hplace, h.tree.updateInode _ _⟩

end At

/-! ## Bytes at the end of the file -/

/-- What has happened when bytes were put at the end of the file. -/
def Appended (s : Site) (more : Bytes) (m : Machine) (_ : List Event) (m' : Machine) : Prop :=
  ∀ {data perm}, s.At data perm m → ∃ perm', Trimmed perm perm' ∧ s.At (data ++ more) perm' m'

/-- Appending is what writes to the file do. -/
theorem Appended.transfers {fails : Call → Errno → Prop} (s : Site) :
    Transfers fails s.file s.Appended where
  nil m data perm h := ⟨perm, .refl perm, by rwa [List.append_nil]⟩
  append h h' data perm hat := by
    obtain ⟨perm', htrimmed, hat'⟩ := h hat
    obtain ⟨perm'', htrimmed', hat''⟩ := h' hat'
    rw [List.append_assoc] at hat''
    exact ⟨perm'', htrimmed.trans htrimmed', hat''⟩
  write h data perm hat := by
    rcases h.outcome.write_eq_ok with hwrite | ⟨-, hwrite⟩
    · obtain ⟨rfl, hwritten⟩ := hat.write hwrite
      rwa [List.take_length]
    · exact (hat.write hwrite).2

/-! ## How the file came to be open -/

/-- How a file was opened on a machine.  It was found, and its bytes may have been dropped; or it
was made under a free name. -/
inductive Begun (s : Site) (m : Machine) (how : OpenHow) (asked : UInt32) : Prop where
  | found {old : Inode} {perm : UInt32} (hexclusive : how.exclusive = false)
      (hplace : m.resolve (fun _ => true) s.path = .ok s.id)
      (hold : m.tree.inode? s.id = some old) (hleaf : old.content.isLeaf = true)
      (hperm : Trimmed old.perm perm)
      (hnode : s.node = { old with
        content := if how.truncate then old.content.emptied else old.content
        perm := perm })
      (htree : s.start.tree.Same (m.tree.updateInode s.id fun _ => s.node)) : Begun s m how asked
  | made {dir : InodeId} {name : Name}
      (hplace : m.locate how.follows s.path = .ok (.entry dir name false))
      (hvacant : m.tree.Vacant dir name) (hid : s.id = m.tree.nextId)
      (hnode : s.node = m.newInode dir (.file []) (m.masked asked))
      (htree : s.start.tree = m.tree.addEntry dir name s.node) : Begun s m how asked

end Site

namespace Machine

variable {m m' : Machine} {path : Path} {how : OpenHow} {id : InodeId} {old : Inode}

/-- What may be opened for writing is a leaf. -/
theorem isLeaf_of_mayOpenInode (hcreate : how.create = true)
    (h : m.mayOpenInode how old = .ok ()) : old.content.isLeaf = true := by
  unfold mayOpenInode at h
  obtain ⟨hdirectory, h⟩ := ite_error_eq_ok_iff.1 h
  obtain ⟨-, h⟩ := ite_error_eq_ok_iff.1 h
  obtain ⟨-, h⟩ := ite_error_eq_ok_iff.1 h
  cases hcontent : old.content with
  | directory _ _ => simp [hcontent, Content.isDirectory, Content.entries?, hcreate] at hdirectory
  | symlink _ => simp [hcontent] at h
  | jump _ => simp [hcontent] at h
  | _ => rfl

/-- A path that leads to a leaf leads to it when every link is followed. -/
theorem resolve_followed {follow : Bool → Bool} (hfollow : follow false = true)
    (hold : m.tree.inode? id = some old) (hleaf : old.content.isLeaf = true)
    (h : m.resolve follow path = .ok id) : m.resolve (fun _ => true) path = .ok id := by
  obtain ⟨place, hplace, hid⟩ := bind_eq_ok_iff.1 h
  refine bind_eq_ok_iff.2 ⟨place, locate_followed ?_ hplace, hid⟩
  rintro dir name slash rfl
  cases slash with
  | false => exact Or.inl hfollow
  | true =>
    obtain ⟨found, -, hid⟩ := bind_eq_ok_iff.1 hid
    cases found with
    | none => cases hid
    | some i =>
      obtain ⟨hdirectory, hid⟩ := ite_error_eq_ok_iff.1 hid
      obtain rfl := Except.ok.inj hid
      simp [Tree.isDirectory, Tree.entries?, Tree.content?, hold,
        Content.entries?_of_isLeaf hleaf] at hdirectory

/-- The bytes of a file are dropped, or there are none to drop. -/
theorem exists_dropped (drop : Bool) (hold : m.tree.inode? id = some old) :
    ∃ perm, Trimmed old.perm perm ∧
      (if drop && old.content.data?.isSome then m.emptied id else m).tree.Same
        (m.tree.updateInode id fun _ => { old with
          content := if drop then old.content.emptied else old.content
          perm := perm }) := by
  by_cases hdrop : (drop && old.content.data?.isSome) = true
  · obtain ⟨hd, hdata⟩ := (Bool.and_eq_true _ _).mp hdrop
    refine ⟨_, .changed m (.file []) old, ?_⟩
    rw [if_pos hdrop, if_pos hd]
    refine ⟨rfl, ?_⟩
    funext i
    change (m.tree.updateInode id _).inode? i = _
    rw [Tree.inode?_updateInode, Tree.inode?_updateInode, hold]
    cases hcontent : old.content with
    | file _ => rfl
    | _ => simp [hcontent, Content.data?] at hdata
  · have hcontent : (if drop then old.content.emptied else old.content) = old.content := by
      split
      · rename_i hd
        exact Content.emptied_of_data?_eq_none (by simpa [hd] using hdrop)
      · rfl
    refine ⟨old.perm, .refl _, ?_⟩
    rw [if_neg hdrop, hcontent]
    refine ⟨rfl, ?_⟩
    funext i
    rw [Tree.inode?_updateInode]
    split
    · rename_i hi
      rw [hi, hold]
      rfl
    · rfl

end Machine

namespace Site

variable {m m' : Machine} {path : Path} {how : OpenHow} {asked : UInt32} {file : Descriptor}

/-- A file that was opened, where writes go to its end. -/
def opening (m' : Machine) (path : Path) (file : Descriptor) {how : OpenHow} {id : InodeId}
    {location : Location} {node : Inode} (hfile : m'.file? file = some (how.file id location))
    (held : m'.tree.inode? id = some node) (leaf : node.content.isLeaf = true)
    (leads : m'.resolve (fun _ => true) path = .ok id)
    (hend : how.append = false → ∀ bytes, node.content = .file bytes → bytes = []) : Site where
  start := m'
  path := path
  file := file
  id := id
  node := node
  held := held
  leaf := leaf
  leads := leads
  opened f hf := by
    rw [hfile] at hf
    cases hf
    exact ⟨rfl, fun bytes hbytes => how.writesAt_file id location fun h => hend h bytes hbytes⟩

/-- A file that was found. -/
theorem exists_found {id : InodeId} {location : Location} {old : Inode} {perm : UInt32}
    (hexclusive : how.exclusive = false) (hend : how.append = false → how.truncate = true)
    (hfile : m'.file? file = some (how.file id location)) (hprocess : m'.process = m.process)
    (hplace : m.resolve (fun _ => true) path = .ok id) (hold : m.tree.inode? id = some old)
    (hleaf : old.content.isLeaf = true) (hperm : Trimmed old.perm perm)
    (htree : m'.tree.Same (m.tree.updateInode id fun _ => { old with
      content := if how.truncate then old.content.emptied else old.content
      perm := perm })) :
    ∃ s : Site, s.start = m' ∧ s.path = path ∧ s.file = file ∧ s.Begun m how asked := by
  have hafter : (if how.truncate then old.content.emptied else old.content).isLeaf = true := by
    split
    · exact Content.isLeaf_emptied hleaf
    · exact hleaf
  have hways := Tree.SameWays.updateInode (f := fun _ => { old with
    content := if how.truncate then old.content.emptied else old.content
    perm := perm }) hold hleaf hafter rfl
  refine ⟨opening m' path file hfile ?_ hafter ?_ ?_, rfl, rfl, rfl,
    .found hexclusive hplace hold hleaf hperm rfl htree⟩
  · rw [htree.inode?, Tree.inode?_updateInode, if_pos rfl, hold]
    rfl
  · rw [Machine.resolve, show m'.who = m.who from congrArg Process.who hprocess,
      show m'.cwd = m.cwd from congrArg Process.cwd hprocess, htree.resolve]
    exact hways.resolve hplace
  · intro happend bytes hbytes
    simp only [hend happend, if_true] at hbytes
    cases hcontent : old.content with
    | file _ =>
      rw [hcontent] at hbytes
      exact (Content.file.inj hbytes).symm
    | _ => simp [hcontent, Content.emptied] at hbytes

/-- A file that was made. -/
theorem exists_made {dir : InodeId} {name : Name} {location : Location}
    (hfile : m'.file? file = some (how.file m.tree.nextId location))
    (hprocess : m'.process = m.process)
    (hplace : m.locate how.follows path = .ok (.entry dir name false))
    (hvacant : m.tree.Vacant dir name)
    (htree : m'.tree = m.tree.addEntry dir name (m.newInode dir (.file []) (m.masked asked))) :
    ∃ s : Site, s.start = m' ∧ s.path = path ∧ s.file = file ∧ s.Begun m how asked := by
  have hfollowed := Machine.locate_followed_of_vacant hvacant hplace
  refine ⟨opening m' path file hfile ?_ ?_ ?_ ?_, rfl, rfl, rfl,
    .made hplace hvacant rfl rfl htree⟩
  · rw [htree]
    exact Tree.inode?_addEntry_nextId hvacant.isDirectory
  · rfl
  · have hlocated : m'.locate (fun _ => true) path = .ok (.entry dir name false) := by
      rw [Machine.locate, show m'.who = m.who from congrArg Process.who hprocess,
        show m'.cwd = m.cwd from congrArg Process.cwd hprocess, htree]
      exact (Tree.locate_addEntry hvacant rfl _ _).eq_of_ok hfollowed
    have hfind : m'.tree.find dir name = .ok (some m.tree.nextId) := by
      rw [htree]
      exact Tree.find_addEntry_self hvacant.isDirectory rfl
    exact bind_eq_ok_iff.2 ⟨_, hlocated, bind_eq_ok_iff.2 ⟨_, hfind, rfl⟩⟩
  · intro _ bytes hbytes
    exact (Content.file.inj hbytes).symm

/-- Opening a file to write it begins the writing. -/
theorem of_openFile (hcreate : how.create = true) (hreference : how.reference = false)
    (hnamed : how.unnamed = false) (hfollow : how.noFollow = false)
    (hend : how.append = false → how.truncate = true)
    (h : m.openFile path how asked = .ok (file, m')) :
    ∃ s : Site, s.start = m' ∧ s.path = path ∧ s.file = file ∧ s.Begun m how asked := by
  have hprocess := Machine.process_openFile h
  generalize hopened : (file, m') = opened at h
  cases Machine.opened_of_openFile h with
  | @found id location _ hplace hallowed hexisting =>
    obtain ⟨old, hold, hmay, hbase⟩ := Machine.openExisting_eq_ok hexisting
    rw [hreference, Bool.not_false, Bool.true_and] at hbase
    have hexclusive : how.exclusive = false := by simpa [hcreate] using hallowed
    have hleaf := Machine.isLeaf_of_mayOpenInode hcreate (hmay hreference)
    obtain ⟨perm, hperm, htree⟩ := Machine.exists_dropped how.truncate hold
    obtain ⟨hfile, hsame⟩ := Machine.of_openAs (hopened.trans hbase)
    rw [← hsame] at htree
    refine exists_found hexclusive hend hfile hprocess ?_ hold hleaf hperm htree
    exact Machine.resolve_followed (by simp [OpenHow.follows, hcreate, hexclusive, hfollow]) hold
      hleaf hplace
  | made _ hplace hvacant _ =>
    obtain ⟨hfile, hsame⟩ := Machine.of_openAs hopened
    exact exists_made hfile hprocess hplace hvacant hsame
  | unnamed hunnamed =>
    rw [hnamed] at hunnamed
    cases hunnamed

end Site

end PortableFiles
