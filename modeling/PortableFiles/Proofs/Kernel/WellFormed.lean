import PortableFiles.Proofs.Kernel.Stage
import PortableFiles.Session.Start
set_option autoImplicit false

/-!
# Trees in which everything leads somewhere

In a tree of files every entry, every link straight to a directory and every step up leads to an
inode, and no directory holds itself.  Where a walk in such a tree ends, there is an inode
(`Tree.Walks.isSome_origin`).  So the number of a new file is not met by any path that was there
before, and what a path shows of permissions is the same while a file is prepared
(`Stage.At.permAt_eq`).
-/

namespace PortableFiles

/-- Whether everything in a tree leads to an inode, and no directory holds itself. -/
structure Tree.WellFormed (t : Tree) : Prop where
  root : (t.inode? t.root).isSome = true
  entries : ∀ dir name id, t.child? dir name = some id → (t.inode? id).isSome = true
  parents : ∀ dir, (t.inode? dir).isSome = true → (t.inode? (t.parent dir)).isSome = true
  jumps : ∀ id dir, t.content? id = some (.jump dir) → (t.inode? dir).isSome = true
  apart : ∀ dir name, t.child? dir name ≠ some dir

/-- Whether the tree of a machine is well-formed and holds the working directory. -/
structure Machine.WellFormed (m : Machine) : Prop where
  tree : m.tree.WellFormed
  cwd : (m.tree.inode? m.cwd).isSome = true

namespace Tree

variable {t : Tree} {who : Credentials} {follow : Bool → Bool} {budget : Nat} {d : InodeId}
  {steps : List Step} {slash : Bool} {place : Place}

theorem WellFormed.child?_ne_nextId (hw : t.WellFormed) (dir : InodeId) (name : Name) :
    t.child? dir name ≠ some t.nextId := by
  intro h
  have hsome := hw.entries dir name t.nextId h
  rw [inode?_nextId] at hsome
  cases hsome

theorem WellFormed.isSome_start (hw : t.WellFormed) (hd : (t.inode? d).isSome = true)
    (route : Route) : (t.inode? (t.start d route)).isSome = true := by
  unfold start
  split
  · exact hw.root
  · exact hd

/-- A walk from an inode ends at one. -/
theorem Walks.isSome_origin (hw : t.WellFormed) (h : Walks t who follow budget d steps slash place)
    (hd : (t.inode? d).isSome = true) : (t.inode? place.origin).isSome = true := by
  induction h with
  | reached => exact hd
  | dot _ => exact hd
  | dotdot _ => exact hd
  | last _ _ => exact hd
  | stay _ _ _ ih => exact ih hd
  | ascend _ _ _ ih => exact ih (hw.parents _ hd)
  | descend _ _ _ _ hdirectory _ ih => exact ih (isSome_inode?_of_isDirectory hdirectory)
  | symlink _ _ _ _ ih => exact ih (hw.isSome_start hd _)
  | jump _ _ hlink _ ih =>
    obtain ⟨id, -, hcontent⟩ := Option.bind_eq_some_iff.1 hlink
    exact ih (hw.jumps id _ hcontent)

/-- What is found at a place is an inode. -/
theorem isSome_of_inodeAt (hw : t.WellFormed) (hplace : (t.inode? place.origin).isSome = true)
    {id : InodeId} (h : t.inodeAt place = .ok id) : (t.inode? id).isSome = true := by
  cases place with
  | reached dir =>
    cases h
    exact hplace
  | dots dir up =>
    cases h
    split
    · exact hw.parents dir hplace
    · exact hplace
  | entry dir name slash =>
    obtain ⟨found, hfound, h⟩ := bind_eq_ok_iff.1 h
    cases found with
    | none => cases h
    | some found =>
      obtain ⟨-, h⟩ := ite_error_eq_ok_iff.1 h
      cases h
      exact hw.entries dir name id (child?_eq_of_find hfound)

end Tree

namespace Machine

variable {m : Machine} {follow : Bool → Bool} {path : Path} {place : Place}

theorem isSome_origin_of_locate (hm : m.WellFormed) (h : m.locate follow path = .ok place) :
    (m.tree.inode? place.origin).isSome = true :=
  (walks_of_locate h).isSome_origin hm.tree (hm.tree.isSome_start hm.cwd _)

/-- The permissions that a description of a path shows, links followed. -/
def permAt (m : Machine) (path : Path) : Option UInt32 :=
  match m.stat path true with
  | .ok (stat, _) => some (stat.perm &&& permMask)
  | .error _ => none

theorem permAt_eq (m : Machine) (path : Path) :
    m.permAt path = ((m.resolve (fun _ => true) path).toOption.bind m.tree.inode?).map
      fun node => node.perm &&& permMask := by
  unfold permAt stat
  cases hid : m.resolve (fun _ => true) path with
  | error e => simp [hid, Except.toOption, bind, Except.bind]
  | ok id =>
    cases hnode : m.tree.inode? id <;>
      simp [hid, hnode, describe, Except.toOption, bind, Except.bind, pure, Except.pure]

end Machine

/-! ## A check -/

namespace Tree

/-- Whether all that the inode `id` refers to is there, and it is not among its own entries. -/
def refersWell (t : Tree) (id : InodeId) : Content → Bool
  | .directory parent entries =>
    (t.inode? parent).isSome && entries.entries.all fun e => (t.inode? e.2).isSome && e.2 ≠ id
  | .jump directory => (t.inode? directory).isSome
  | _ => true

/-- The check of a tree inode by inode. -/
def isWellFormed (t : Tree) : Bool :=
  (t.inode? t.root).isSome && t.inodes.entries.all fun e => t.refersWell e.1 e.2.content

/-- A tree that passes the check is well-formed. -/
theorem wellFormed_of_isWellFormed {t : Tree} (h : t.isWellFormed = true) : t.WellFormed := by
  rw [isWellFormed, Bool.and_eq_true, List.all_eq_true] at h
  obtain ⟨hroot, hall⟩ := h
  have hrefers : ∀ id content, t.content? id = some content → t.refersWell id content = true := by
    intro id content hcontent
    obtain ⟨node, hnode, rfl⟩ := Option.map_eq_some_iff.1 hcontent
    exact hall _ (FinMap.mem_entries_of_get?_eq_some hnode)
  have hentry : ∀ dir name id, t.child? dir name = some id →
      (t.inode? id).isSome = true ∧ id ≠ dir := by
    intro dir name id h
    obtain ⟨entries, hentries, hid⟩ := Option.bind_eq_some_iff.1 h
    obtain ⟨content, hcontent, hentries⟩ := Option.bind_eq_some_iff.1 hentries
    have hrefer := hrefers dir content hcontent
    cases content with
    | directory parent held =>
      cases hentries
      rw [refersWell, Bool.and_eq_true, List.all_eq_true] at hrefer
      simpa using hrefer.2 _ (FinMap.mem_entries_of_get?_eq_some hid)
    | _ => cases hentries
  refine ⟨hroot, fun dir name id h => (hentry dir name id h).1, ?_, ?_,
    fun dir name h => (hentry dir name dir h).2 rfl⟩
  · intro dir hdir
    unfold parent
    split
    · rename_i parent entries hcontent
      have hrefer := hrefers dir _ hcontent
      rw [refersWell, Bool.and_eq_true] at hrefer
      exact hrefer.1
    · exact hdir
  · intro id dir hcontent
    exact hrefers id _ hcontent

end Tree

/-- The small system is well-formed. -/
theorem Machine.wellFormed_small (draws : Nat → UInt32) : (small draws).WellFormed where
  tree := Tree.wellFormed_of_isWellFormed (by decide +kernel : smallTree.isWellFormed = true)
  cwd := (by decide +kernel : (smallTree.inode? 9).isSome = true)

namespace Stage.At

variable {s : Stage} {m : Machine} {data : Bytes} {perm : UInt32} {follow : Bool → Bool}
  {path : Path} {place : Place}

/-- At a place that was there before, and is not the new file's, the same inode is found. -/
theorem inodeAt_eq (h : s.At data perm m)
    (hplace : (s.start.tree.inode? place.origin).isSome = true)
    (hapart : ∀ slash, place ≠ .entry s.dir s.name slash) :
    m.tree.inodeAt place = s.start.tree.inodeAt place := by
  cases place with
  | reached dir => rfl
  | dots dir up =>
    rw [Tree.inodeAt, h.tree.parent, Tree.inodeAt]
    exact congrArg (fun parent => Except.ok (if up then parent else dir))
      (Tree.parent_addEntry s.vacant.isDirectory node_content dir)
  | entry dir name slash =>
    have hother : ¬ (dir = s.dir ∧ name = s.name) := by
      rintro ⟨rfl, rfl⟩
      exact hapart slash rfl
    have hfind : m.tree.find dir name = s.start.tree.find dir name := by
      rw [h.tree.find]
      exact Tree.find_addEntry_of_ne s.vacant node_content (Tree.ne_nextId_of_isSome hplace) hother
    have hdirectory : m.tree.isDirectory = s.start.tree.isDirectory := by
      rw [h.tree.isDirectory]
      exact funext (Tree.isDirectory_addEntry s.vacant.isDirectory node_content)
    rw [Tree.inodeAt, hfind, hdirectory, Tree.inodeAt]

/-- What a path shows of permissions is the same while the file is prepared, unless it leads to
the file. -/
theorem permAt_eq (h : s.At data perm m) (hstart : s.start.WellFormed)
    (hapart : ∀ slash, s.start.locate (fun _ => true) path ≠ .ok (.entry s.dir s.name slash)) :
    m.permAt path = s.start.permAt path := by
  rw [Machine.permAt_eq, Machine.permAt_eq]
  have hlocate := h.locate (fun _ => true) path
  cases hplace : s.start.locate (fun _ => true) path with
  | error e =>
    have hfails : ∃ e', m.locate (fun _ => true) path = .error e' := by
      cases hafter : m.locate (fun _ => true) path with
      | error e' => exact ⟨e', rfl⟩
      | ok place =>
        rw [hlocate.eq_of_ok' hafter] at hplace
        cases hplace
    obtain ⟨e', hafter⟩ := hfails
    have hbefore : s.start.resolve (fun _ => true) path = .error e := by
      change (s.start.locate (fun _ => true) path >>= s.start.tree.inodeAt) = _
      rw [hplace]
      rfl
    have hnone : m.resolve (fun _ => true) path = .error e' := by
      change (m.locate (fun _ => true) path >>= m.tree.inodeAt) = _
      rw [hafter]
      rfl
    rw [hbefore, hnone]
    rfl
  | ok place =>
    have horigin := Machine.isSome_origin_of_locate hstart hplace
    have hplaceApart : ∀ slash, place ≠ .entry s.dir s.name slash := by
      rintro slash rfl
      exact hapart slash hplace
    have hresolve : m.resolve (fun _ => true) path = s.start.resolve (fun _ => true) path := by
      change (m.locate (fun _ => true) path >>= m.tree.inodeAt)
        = (s.start.locate (fun _ => true) path >>= s.start.tree.inodeAt)
      rw [hlocate.eq_of_ok hplace, hplace]
      exact h.inodeAt_eq horigin hplaceApart
    rw [hresolve]
    cases hid : s.start.resolve (fun _ => true) path with
    | error e => rfl
    | ok id =>
      obtain ⟨place', hplace', hinode⟩ := bind_eq_ok_iff.1 hid
      obtain rfl : place' = place := Except.ok.inj (hplace'.symm.trans hplace)
      have hsome := Tree.isSome_of_inodeAt hstart.tree horigin hinode
      obtain ⟨f, hnode⟩ := h.inode?_eq_map (Tree.ne_nextId_of_isSome hsome)
      simp only [Except.toOption, Option.bind_some, hnode]
      cases s.start.tree.inode? id <;> simp

end Stage.At

end PortableFiles
