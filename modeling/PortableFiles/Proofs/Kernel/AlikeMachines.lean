import PortableFiles.Kernel.Run
import PortableFiles.Proofs.Kernel.Calls
import PortableFiles.Proofs.Kernel.Renaming
set_option autoImplicit false

/-!
# Machines that differ in names and permissions

Two machines are alike (`Machine.Alike`) if their trees are, permissions do not apply to their
process, and the process has the same files open.  Every call that a write makes has the same answer
on both and leaves machines that are alike, also where one of them sets permissions and the other
one only looks for the file.
-/

namespace PortableFiles

/-- Whether two open files are one, wherever they were found. -/
def OpenFile.Alike (f f' : OpenFile) : Prop := ∃ location, f' = { f with location := location }

/-- Whether two machines are alike, up to names, permissions and owners. -/
structure Machine.Alike (ρ : Renaming) (m m' : Machine) : Prop where
  tree : m.tree.Alike ρ m'.tree
  cwd : m.cwd = m'.cwd
  who : m.who = m'.who
  privileged : m'.who.privileged = true
  mayOpen : m.mayOpen = m'.mayOpen
  drawn : m.drawn = m'.drawn
  files : ∀ k, Option.Rel OpenFile.Alike (m.files.get? k) (m'.files.get? k)

/-- Whether two answers have one value and leave machines that are alike. -/
def Renaming.Answers {α : Type} (ρ : Renaming) (r r' : α × Machine) : Prop :=
  r.1 = r'.1 ∧ r.2.Alike ρ r'.2

namespace Machine.Alike

variable {ρ ρ' : Renaming} {m m' : Machine} {path path' : Path} {n n' : Name}

theorem mono (h : Alike ρ m m') (hle : ∀ n n', ρ.rel n n' → ρ'.rel n n') : Alike ρ' m m' :=
  { h with tree := h.tree.mono hle }

/-! ## Looks -/

theorem locate (h : Alike ρ m m') (follow : Bool → Bool) (hpath : ρ.Paths path path') :
    Agree ρ.Places (m.locate follow path) (m'.locate follow path') := by
  rw [Machine.locate, Machine.locate, h.cwd, h.who]
  exact h.tree.locate h.privileged _ hpath

theorem resolve (h : Alike ρ m m') (follow : Bool → Bool) (hpath : ρ.Paths path path') :
    Agree Eq (m.resolve follow path) (m'.resolve follow path') := by
  rw [Machine.resolve, Machine.resolve, h.cwd, h.who]
  exact h.tree.resolve h.privileged _ hpath

/-- A process to which permissions do not apply may do anything with a file that is there. -/
theorem may (h : Alike ρ m m') (id : InodeId) (access : Access) :
    m.may id access = m'.may id access := by
  rw [Machine.may, Machine.may, h.who]
  rcases cases_of_rel (h.tree.inode? id) with ⟨hx, hy⟩ | ⟨node, node', hx, hy, -⟩
  · rw [hx, hy]
  · rw [hx, hy]
    simp only [Credentials.may, h.privileged, Bool.true_or]

theorem owns (h : Alike ρ m m') (node : Inode) : m.owns node = true := by
  rw [Machine.owns, h.who, h.privileged, Bool.true_or]

theorem owns' (h : Alike ρ m m') (node : Inode) : m'.owns node = true := by
  rw [Machine.owns, h.privileged, Bool.true_or]

theorem mayChangeEntries (h : Alike ρ m m') (dir : InodeId) :
    m.mayChangeEntries dir = m'.mayChangeEntries dir := by
  rw [Machine.mayChangeEntries, Machine.mayChangeEntries, h.tree.isLinked, h.may]
  rcases cases_of_rel (h.tree.inode? dir) with ⟨hx, hy⟩ | ⟨node, node', hx, hy, hnode⟩
  · rw [hx, hy]
  · rw [hx, hy, Option.any_some, Option.any_some, hnode.free, hnode.free']

/-! ## Open files -/

theorem isSome_files (h : Alike ρ m m') (k : Nat) :
    (m.files.get? k).isSome = (m'.files.get? k).isSome := by
  rcases cases_of_rel (h.files k) with ⟨hx, hy⟩ | ⟨f, f', hx, hy, -⟩
  · rw [hx, hy]
  · rw [hx, hy, Option.isSome_some, Option.isSome_some]

theorem file? (h : Alike ρ m m') (d : Descriptor) :
    Option.Rel OpenFile.Alike (m.file? d) (m'.file? d) := by
  rw [Machine.file?, Machine.file?]
  split
  · exact h.files _
  · exact .none

/-- The machines with other trees. -/
theorem withTree (h : Alike ρ m m') {t t' : Tree} (ht : t.Alike ρ t') :
    Alike ρ (m.withTree t) (m'.withTree t') := { h with tree := ht }

/-- Times do not count. -/
theorem stamp (h : Alike ρ m m') (id id' : InodeId) (f f' : Timestamp → Times → Times) :
    Alike ρ (m.stamp id f) (m'.stamp id' f') := { h with }

theorem insertFile (h : Alike ρ m m') (k : Nat) {f f' : OpenFile} (hf : f.Alike f') :
    Alike ρ { m with files := m.files.insert k f } { m' with files := m'.files.insert k f' } :=
  { h with
    files := fun i => by
      rw [FinMap.get?_insert, FinMap.get?_insert]
      split
      · exact .some hf
      · exact h.files i }

/-- A file that is opened gets one number. -/
theorem openAs (h : Alike ρ m m') {f f' : OpenFile} (hf : f.Alike f') :
    ρ.Answers (m.openAs f) (m'.openAs f') := by
  have hfresh : m.files.fresh = m'.files.fresh := FinMap.fresh_eq h.isSome_files
  refine ⟨congrArg (fun k : Nat => (⟨k⟩ : Descriptor)) hfresh, ?_⟩
  have hinsert := h.insertFile m.files.fresh hf
  rw [Machine.openAs, Machine.openAs, ← hfresh]
  exact hinsert

/-! ## Opening -/

theorem mayOpenInode (h : Alike ρ m m') (how : OpenHow) {node node' : Inode}
    (hnode : ρ.Inodes node node') : m.mayOpenInode how node = m'.mayOpenInode how node' := by
  have hmay : ∀ access, m.who.may node access = true ∧ m'.who.may node' access = true := by
    intro access
    rw [Credentials.may, Credentials.may, h.who, h.privileged, Bool.true_or, Bool.true_or]
    exact ⟨rfl, rfl⟩
  unfold Machine.mayOpenInode
  simp only [hnode.content.isDirectory, (hmay _).1, (hmay _).2, h.owns, h.owns', hnode.volume]
  have hcontent := hnode.content
  generalize node.content = c, node'.content = c' at hcontent
  cases hcontent <;> rfl

/-- A file that is changed stays alike. -/
theorem changed (m m' : Machine) {node node' : Inode} (hnode : ρ.Inodes node node')
    (data : Bytes) : ρ.Inodes (m.changed (.file data) node) (m'.changed (.file data) node') :=
  ⟨.file data, hnode.volume, hnode.free, hnode.free'⟩

theorem openExisting (h : Alike ρ m m') (how : OpenHow) (id : InodeId)
    (location location' : Location) :
    Agree ρ.Answers (m.openExisting how id location) (m'.openExisting how id location') := by
  have hfile : (how.file id location).Alike (how.file id location') := ⟨location', rfl⟩
  unfold Machine.openExisting
  rcases cases_of_rel (h.tree.inode? id) with ⟨hx, hy⟩ | ⟨node, node', hx, hy, hnode⟩
  · rw [hx, hy]
    exact .error _
  · rw [hx, hy]
    simp only [hnode.content.isDirectory, hnode.content.fileType, hnode.content.data?,
      h.mayOpenInode how hnode]
    split
    · exact .error _
    split
    · split
      · exact .error _
      · exact .ok (h.openAs hfile)
    refine (Agree.of_eq rfl).bind fun _ _ _ => ?_
    split
    · refine .ok (Machine.Alike.openAs (Machine.Alike.stamp (h.withTree ?_) _ _ _ _) hfile)
      exact h.tree.updateInode id fun _ _ hnode => changed m m' hnode []
    · exact .ok (h.openAs hfile)

/-- New files are alike, whatever permissions are asked for. -/
theorem newInode (h : Alike ρ m m') (dir : InodeId) (data : Bytes) (perm perm' : UInt32) :
    ρ.Inodes (m.newInode dir (.file data) perm) (m'.newInode dir (.file data) perm') := by
  refine ⟨.file data, ?_, rfl, rfl⟩
  change ((m.tree.inode? dir).getD default).volume = ((m'.tree.inode? dir).getD default).volume
  rcases cases_of_rel (h.tree.inode? dir) with ⟨hx, hy⟩ | ⟨node, node', hx, hy, hnode⟩
  · rw [hx, hy]
  · rw [hx, hy]
    exact hnode.volume

/-- A new file is made under a name, and under the one that stands for it. -/
theorem create (h : Alike ρ m m') (dir : InodeId) (hn : ρ.rel n n') (data : Bytes)
    (perm perm' : UInt32) :
    Alike ρ (m.create dir n (.file data) perm) (m'.create dir n' (.file data) perm') := by
  unfold Machine.create Machine.stampBirth Machine.stampModify
  have hmade := h.withTree (h.tree.addEntry dir hn (h.newInode dir data perm perm'))
  exact (hmade.stamp _ _ _ _).stamp _ _ _ _

theorem openFile (h : Alike ρ m m') (hpath : ρ.Paths path path') {how : OpenHow}
    (hnamed : how.unnamed = false) (perm perm' : UInt32) :
    Agree ρ.Answers (m.openFile path how perm) (m'.openFile path' how perm') := by
  unfold Machine.openFile
  simp only [hpath.nil_iff, hpath.long_iff, h.mayOpen, hnamed]
  split
  · exact .error _
  split
  · exact .error _
  split
  · exact .error _
  split
  · exact .error _
  have hreached : ∀ place place', ρ.Places place place' → Agree ρ.Answers
      (m.tree.inodeAt place >>= fun dir =>
        if how.create && how.exclusive then .error .entryExists
        else m.openExisting how dir (m.locationOf dir))
      (m'.tree.inodeAt place' >>= fun dir =>
        if how.create && how.exclusive then .error .entryExists
        else m'.openExisting how dir (m'.locationOf dir)) := by
    intro place place' hplace
    refine (Agree.of_eq (h.tree.inodeAt hplace)).bind fun dir _ hdir => ?_
    subst hdir
    split
    · exact .error _
    · exact h.openExisting how _ _ _
  refine (h.locate how.follows hpath).bind fun place place' hplace => ?_
  cases hplace with
  | reached dir => exact hreached _ _ (.reached dir)
  | dots dir up => exact hreached _ _ (.dots dir up)
  | @entry dir n n' hn slash =>
    simp only
    split
    · exact .error _
    rw [h.tree.find dir hn]
    refine (Agree.of_eq rfl).bind fun found _ hfound => ?_
    subst hfound
    cases found with
    | some id =>
      simp only [h.tree.isDirectory]
      split
      · exact .error _
      split
      · exact .error _
      exact h.openExisting how id _ _
    | none =>
      simp only
      split
      · exact .error _
      rw [h.mayChangeEntries]
      refine (Agree.of_eq rfl).bind fun _ _ _ => .ok ?_
      rw [h.tree.nextId]
      exact (h.create dir hn [] _ _).openAs ⟨_, rfl⟩

/-! ## Open files -/

theorem write (h : Alike ρ m m') (d : Descriptor) (data : Bytes) :
    Agree ρ.Answers (m.write d data) (m'.write d data) := by
  unfold Machine.write
  rcases cases_of_rel (h.file? d) with ⟨hx, hy⟩ | ⟨f, f', hx, hy, location, hf⟩
  · rw [hx, hy]
    exact .error _
  · subst hf
    rw [hx, hy]
    simp only
    split
    · exact .error _
    split
    · exact .ok ⟨rfl, h⟩
    rcases cases_of_rel (h.tree.content? f.inode) with ⟨hc, hc'⟩ | ⟨c, c', hc, hc', hcontent⟩
    · rw [hc, hc']
      exact .error _
    · rw [hc, hc']
      cases hcontent with
      | file old =>
        simp only
        split
        · exact .error _
        · refine .ok ⟨rfl, ?_⟩
          have htree := h.tree.updateInode f.inode fun _ _ hnode => changed m m' hnode
            (splice old (if f.appending = true then old.length else f.offset) data)
          exact insertFile ((h.withTree htree).stamp _ _ _ _) d.number.toNat ⟨location, rfl⟩
      | _ => exact .error _

theorem sync (h : Alike ρ m m') (d : Descriptor) :
    Agree ρ.Answers (m.sync d) (m'.sync d) := by
  unfold Machine.sync
  rcases cases_of_rel (h.file? d) with ⟨hx, hy⟩ | ⟨f, f', hx, hy, location, hf⟩
  · rw [hx, hy]
    exact .error _
  · subst hf
    rw [hx, hy]
    simp only [h.tree.volume]
    split
    · exact .error _
    split
    · exact .error _
    rcases cases_of_rel (h.tree.content? f.inode) with ⟨hc, hc'⟩ | ⟨c, c', hc, hc', hcontent⟩
    · rw [hc, hc']
      exact .error _
    · rw [hc, hc']
      cases hcontent with
      | symlink _ => exact .error _
      | _ => exact .ok ⟨rfl, h⟩

theorem close (h : Alike ρ m m') (d : Descriptor) :
    Agree ρ.Answers (m.close d) (m'.close d) := by
  unfold Machine.close
  rcases cases_of_rel (h.file? d) with ⟨hx, hy⟩ | ⟨f, f', hx, hy, -⟩
  · rw [hx, hy]
    exact .error _
  · rw [hx, hy]
    refine .ok ⟨rfl, { h with files := fun i => ?_ }⟩
    change Option.Rel _ ((m.files.erase _).get? i) ((m'.files.erase _).get? i)
    rw [FinMap.get?_erase, FinMap.get?_erase]
    split
    · exact .none
    · exact h.files i

/-! ## Looks at paths, and permissions -/

/-- A description succeeds where the inode is there. -/
theorem describe (h : Alike ρ m m') (id : InodeId) :
    Agree (fun _ _ => True) (m.describe id) (m'.describe id) := by
  unfold Machine.describe
  rcases cases_of_rel (h.tree.inode? id) with ⟨hx, hy⟩ | ⟨node, node', hx, hy, -⟩
  · rw [hx, hy]
    exact .error _
  · rw [hx, hy]
    exact .ok trivial

theorem stat (h : Alike ρ m m') (hpath : ρ.Paths path path') (follow : Bool) :
    Agree (fun r r' => r.2 = m ∧ r'.2 = m') (m.stat path follow) (m'.stat path' follow) := by
  refine (h.resolve _ hpath).bind fun id _ hid => ?_
  subst hid
  exact (h.describe id).bind fun _ _ _ => .ok ⟨rfl, rfl⟩

/-- Permissions of a file that nobody fixes can always be set, which makes no difference. -/
theorem chmod_stat (h : Alike ρ m m') (hpath : ρ.Paths path path') (perm : UInt32) :
    Agree (fun r r' => r.2.Alike ρ m' ∧ r'.2 = m' ∧ r.2.files = m.files) (m.chmod path perm)
      (m'.stat path' true) := by
  have hresolve := h.resolve (fun _ => true) hpath
  unfold Machine.chmod Machine.stat Machine.inodeAt
  simp only [Bool.true_or]
  generalize m.resolve (fun _ => true) path = x, m'.resolve (fun _ => true) path' = x' at hresolve
  cases hresolve with
  | error e => exact .error e
  | @ok id _ hid =>
    subst hid
    rcases cases_of_rel (h.tree.inode? id) with ⟨hx, hy⟩ | ⟨node, node', hx, hy, hnode⟩
    · simp only [bind, Except.bind, hx, Machine.describe, hy]
      exact .error _
    · simp only [bind, Except.bind, hx, Machine.describe, hy, hnode.free, Machine.mayChangeInode,
        h.owns]
      refine .ok ⟨?_, rfl, rfl⟩
      exact { h with tree := h.tree.updateInode_left id fun _ _ h => { h with } }

/-! ## Entries -/

/-- Where open files were found does not count. -/
theorem mapFiles (h : Alike ρ m m') {g g' : OpenFile → OpenFile}
    (hg : ∀ f, ∃ location, g f = { f with location := location })
    (hg' : ∀ f, ∃ location, g' f = { f with location := location }) (k : Nat) :
    Option.Rel OpenFile.Alike ((m.files.mapValues g).get? k) ((m'.files.mapValues g').get? k) := by
  rw [FinMap.get?_mapValues, FinMap.get?_mapValues]
  rcases cases_of_rel (h.files k) with ⟨hx, hy⟩ | ⟨f, f', hx, hy, location, hf⟩
  · rw [hx, hy]
    exact .none
  · obtain ⟨place, hplace⟩ := hg f
    obtain ⟨place', hplace'⟩ := hg' f'
    rw [hx, hy, Option.map_some, Option.map_some, hplace, hplace', hf]
    exact .some ⟨place', rfl⟩

theorem exists_location {c : Prop} [Decidable c] (f : OpenFile) (location : Location) :
    ∃ place, (if c then { f with location := location } else f) = { f with location := place } := by
  split
  · exact ⟨location, rfl⟩
  · exact ⟨f.location, rfl⟩

theorem detach (h : Alike ρ m m') (dir : InodeId) (n n' : Name) :
    Alike ρ (m.detach dir n) (m'.detach dir n') :=
  { h with
    files := h.mapFiles (fun f => exists_location f _) fun f => exists_location f _ }

theorem dropEntry (h : Alike ρ m m') (dir : InodeId) (hn : ρ.rel n n') (id : InodeId) :
    Alike ρ (m.dropEntry dir n id) (m'.dropEntry dir n' id) := by
  unfold Machine.dropEntry Machine.stampChange Machine.stampModify
  have hremoved := (h.detach dir n n').withTree (h.tree.removeEntry dir hn)
  exact (hremoved.stamp _ _ _ _).stamp _ _ _ _

theorem unlink (h : Alike ρ m m') (hpath : ρ.Paths path path') :
    Agree ρ.Answers (m.unlink path) (m'.unlink path') := by
  refine (h.locate _ hpath).bind fun place place' hplace => ?_
  cases hplace with
  | reached dir => exact .error _
  | dots dir up => exact .error _
  | @entry dir n n' hn slash =>
    refine (Agree.of_eq (h.tree.find dir hn)).bind fun found _ hfound => ?_
    subst hfound
    cases found with
    | none => exact .error _
    | some id =>
      simp only [h.tree.isDirectory, h.mayChangeEntries]
      split
      · exact .error _
      refine (Agree.of_eq rfl).bind fun _ _ _ => ?_
      split
      · exact .error _
      · exact .ok ⟨rfl, h.dropEntry dir hn id⟩

theorem mustBeEmpty (h : Alike ρ m m') (dir : InodeId) :
    m.mustBeEmpty dir = m'.mustBeEmpty dir := by
  unfold Machine.mustBeEmpty
  rcases cases_of_rel (h.tree.entries? dir) with ⟨hx, hy⟩ | ⟨es, es', hx, hy, hentries⟩
  · rw [hx, hy]
  · rw [hx, hy]
    simp only [hentries.nil_iff]

theorem mayReplace (h : Alike ρ m m') (dir id : InodeId) (directory : Bool) :
    m.mayReplace dir id directory = m'.mayReplace dir id directory := by
  rw [Machine.mayReplace, Machine.mayReplace, h.mayChangeEntries, h.tree.isDirectory]

theorem moveEntry (h : Alike ρ m m') (dir : InodeId) (hn : ρ.rel n n') (dir' : InodeId)
    {x x' : Name} (hx : ρ.rel x x') (id : InodeId) :
    Alike ρ (m.moveEntry dir n dir' x id) (m'.moveEntry dir n' dir' x' id) := by
  have hmoved := (h.tree.removeEntry dir hn).setEntry dir' hx id
  have htree : Tree.Alike ρ
      (if m.tree.isDirectory id = true then
        ((m.tree.removeEntry dir n).setEntry dir' x id).setParent id dir'
      else (m.tree.removeEntry dir n).setEntry dir' x id)
      (if m'.tree.isDirectory id = true then
        ((m'.tree.removeEntry dir n').setEntry dir' x' id).setParent id dir'
      else (m'.tree.removeEntry dir n').setEntry dir' x' id) := by
    rw [h.tree.isDirectory]
    split
    · exact hmoved.setParent _ _
    · exact hmoved
  unfold Machine.moveEntry Machine.stampChange Machine.stampModify
  refine Machine.Alike.stamp (Machine.Alike.stamp (Machine.Alike.stamp ?_ _ _ _ _) _ _ _ _) _ _ _ _
  exact { h with
    tree := htree
    files := (h.detach dir' x x').mapFiles (fun f => exists_location f _)
      fun f => exists_location f _ }

theorem rename (h : Alike ρ m m') {source source' destination destination' : Path}
    (hsource : ρ.Paths source source') (hdestination : ρ.Paths destination destination') :
    Agree ρ.Answers (m.rename source destination) (m'.rename source' destination') := by
  refine (h.locate _ hsource).bind fun origin origin' horigin => ?_
  refine (h.locate _ hdestination).bind fun goal goal' hgoal => ?_
  have horigin' : origin.origin = origin'.origin := by cases horigin <;> rfl
  have hgoal' : goal.origin = goal'.origin := by cases hgoal <;> rfl
  rw [h.tree.volume, h.tree.volume, horigin', hgoal']
  split
  · exact .error _
  cases horigin with
  | reached dir => exact .error _
  | dots dir up => exact .error _
  | @entry dir n n' hn slash =>
    cases hgoal with
    | reached dir => exact .error _
    | dots dir up => exact .error _
    | @entry dir' x x' hx slash' =>
      refine (Agree.of_eq (h.tree.find dir hn)).bind fun found _ hfound => ?_
      subst hfound
      cases found with
      | none => exact .error _
      | some id =>
        refine (Agree.of_eq (h.tree.find dir' hx)).bind fun target _ htarget => ?_
        subst htarget
        -- The places are the same, and so is everything that can stand in the way.
        have hmoved : ρ.Answers ((), m.moveEntry dir n dir' x id)
            ((), m'.moveEntry dir n' dir' x' id) := ⟨rfl, h.moveEntry dir hn dir' hx id⟩
        cases target with
        | none =>
          simp only [h.tree.isDirectory, h.tree.isWithin, h.tree.isMount, h.mayChangeEntries, h.may,
            Option.any_none]
          split
          · exact .error _
          split
          · exact .error _
          split
          · exact .error _
          split
          · exact .ok ⟨rfl, h⟩
          refine (Agree.of_eq rfl).bind fun _ _ _ => (Agree.of_eq rfl).bind fun _ _ _ => ?_
          split
          · exact .error _
          split
          · exact .error _
          · exact .ok hmoved
        | some target =>
          simp only [h.tree.isDirectory, h.tree.isWithin, h.tree.isMount, h.mayChangeEntries, h.may,
            h.mayReplace, h.mustBeEmpty, Option.any_some]
          split
          · exact .error _
          split
          · exact .error _
          split
          · exact .error _
          split
          · exact .ok ⟨rfl, h⟩
          refine (Agree.of_eq rfl).bind fun _ _ _ => (Agree.of_eq rfl).bind fun _ _ _ => ?_
          split
          · exact .error _
          split
          · exact .error _
          · split
            · exact (Agree.of_eq rfl).bind fun _ _ _ => .ok hmoved
            · exact .ok hmoved

end Machine.Alike

end PortableFiles
