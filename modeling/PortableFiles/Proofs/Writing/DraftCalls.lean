import PortableFiles.Proofs.Kernel.Overlay
import PortableFiles.Proofs.Writing.Discipline
set_option autoImplicit false

/-!
# Drafts on a machine that others use

The machine of an atomic write may change between any two of its calls, as long as this only lays
files over its tree (`Machine.Follows`) and leaves its draft where it was made (`Draft.In`).  Then
the path of the draft leads to it if it leads anywhere (`Draft.In.locate`), and each call changes
the draft alone and as it does where nobody else is.
-/

namespace PortableFiles

/-! ## Machines that others use -/

namespace Machine

variable {own : InodeId} {P : InodeId → Name → Prop} {m₀ m m' : Machine} {path : Path}

/-- Whether a machine is another one, apart from files that were laid over its tree. -/
structure Follows (m₀ m : Machine) : Prop where
  tree : m₀.tree.Overlaid m.tree
  process : m₀.process.Agrees m.process

/-- Where a path leads now, with no link followed at its end, it led. -/
theorem Follows.locate (h : m₀.Follows m) {place : Place}
    (hplace : m.locate (fun _ => false) path = .ok place) :
    m₀.locate (fun _ => false) path = .ok place := by
  rw [Machine.locate, show m.cwd = m₀.cwd from h.process.cwd,
    show m.who = m₀.who from h.process.who] at hplace
  exact h.tree.locate hplace

/-- A change that concerns the file `own` and the names that `P` selects.  Other files that are
open stay open as they are, though an entry may be moved or gone. -/
structure ChangesOnly (own : InodeId) (P : InodeId → Name → Prop) (m m' : Machine) : Prop where
  tree : m.tree.ChangesOnly own P m'.tree
  files : ∀ d f, m.file? d = some f → f.inode ≠ own →
    ∃ location, m'.file? d = some { f with location := location }

/-- Where a number stands for the same file, it is open as it was. -/
theorem exists_file?_of_get?_eq {d : Descriptor} {f : OpenFile}
    (h : m'.files.get? d.number.toNat = m.files.get? d.number.toNat) (hf : m.file? d = some f) :
    ∃ location, m'.file? d = some { f with location := location } := by
  refine ⟨f.location, ?_⟩
  rw [file?, h]
  exact hf

theorem exists_file?_of_mapValues {g : OpenFile → OpenFile}
    (hg : ∀ f, ∃ location, g f = { f with location := location })
    (h : m'.files = m.files.mapValues g) {d : Descriptor} {f : OpenFile}
    (hf : m.file? d = some f) : ∃ location, m'.file? d = some { f with location := location } := by
  obtain ⟨location, hlocation⟩ := hg f
  refine ⟨location, ?_⟩
  unfold file? at hf ⊢
  split at hf
  · rename_i hd
    rw [if_pos hd, h, FinMap.get?_mapValues, hf, Option.map_some, hlocation]
  · cases hf

theorem exists_file?_detach (m : Machine) (dir : InodeId) (name : Name) {d : Descriptor}
    {f : OpenFile} (hf : m.file? d = some f) :
    ∃ location, (m.detach dir name).file? d = some { f with location := location } := by
  refine exists_file?_of_mapValues (g := fun f =>
    if f.location = .entry dir name then { f with location := .gone dir name } else f) ?_ rfl hf
  intro f
  split
  · exact ⟨_, rfl⟩
  · exact ⟨f.location, rfl⟩

theorem exists_file?_moveEntry (m : Machine) (dir : InodeId) (name : Name) (dir' : InodeId)
    (name' : Name) (id : InodeId) {d : Descriptor} {f : OpenFile} (hf : m.file? d = some f) :
    ∃ location,
      (m.moveEntry dir name dir' name' id).file? d = some { f with location := location } := by
  obtain ⟨location, hdetached⟩ := m.exists_file?_detach dir' name' hf
  have hrelocated : (m.moveEntry dir name dir' name' id).files
      = (m.detach dir' name').files.mapValues fun f =>
          if f.location = .entry dir name then { f with location := .entry dir' name' } else f :=
    rfl
  obtain ⟨location', hmoved⟩ := exists_file?_of_mapValues (fun f => by
    split
    · exact ⟨_, rfl⟩
    · exact ⟨f.location, rfl⟩) hrelocated hdetached
  exact ⟨location', hmoved⟩

/-- A number under which another file is open is another one. -/
theorem toNat_ne_of_file? {d d' : Descriptor} {f f' : OpenFile} (hf : m.file? d = some f)
    (hf' : m.file? d' = some f') (hne : f.inode ≠ f'.inode) : d.number.toNat ≠ d'.number.toNat := by
  intro h
  unfold file? at hf hf'
  split at hf
  · split at hf'
    · rw [h, hf'] at hf
      cases hf
      exact hne rfl
    · cases hf'
  · cases hf

end Machine

/-! ## Drafts -/

namespace Draft

/-- Where a draft may be: a path leads to a name that the process drew, which was free on the
machine that it first saw. -/
structure Placed (d : Draft) (m₀ : Machine) : Prop where
  located : m₀.locate (fun _ => false) d.path = .ok (.entry d.dir d.name false)
  drawn : ∃ k, d.name = m₀.tempName k
  free : m₀.tree.child? d.dir d.name = none
  fresh : m₀.tree.inode? d.id = none
  mayOpen : m₀.mayOpen = true

/-- How a draft with some bytes in it is open. -/
def openFile (d : Draft) (data : Bytes) (location : Location) : OpenFile :=
  { OpenHow.making.file d.id location with offset := data.length }

/-- Whether a draft is on a machine: its one name leads to it, it is what the writer knows of it,
and where it was not closed, it is open. -/
structure In (d : Draft) (m₀ m : Machine) : Prop where
  placed : d.Placed m₀
  entry : m.tree.child? d.dir d.name = some d.id
  only : ∀ dir name, m.tree.child? dir name = some d.id → dir = d.dir ∧ name = d.name
  inode : m.tree.inode? d.id = some d.node
  file : ∃ data, d.node.content = .file data
    ∧ (d.isOpen = true → ∃ location, m.file? d.file = some (d.openFile data location))

namespace In

variable {d : Draft} {m₀ m m' : Machine} {follow : Bool → Bool} {own : InodeId}
  {P : InodeId → Name → Prop} {fails : Call → Errno → Prop}

/-- A draft is a matter of the tree and the open files. -/
theorem of_eq (h : d.In m₀ m) (htree : m'.tree = m.tree) (hfiles : m'.files = m.files) :
    d.In m₀ m' where
  placed := h.placed
  entry := by
    rw [htree]
    exact h.entry
  only dir name hentry := by
    rw [htree] at hentry
    exact h.only dir name hentry
  inode := by
    rw [htree]
    exact h.inode
  file := by
    rw [Machine.file?, hfiles]
    exact h.file

theorem content? (h : d.In m₀ m) {data : Bytes} (hdata : d.node.content = .file data) :
    m.tree.content? d.id = some (.file data) := by
  rw [Tree.content?, h.inode, ← hdata]
  rfl

/-- A draft that was not closed is open behind all of its bytes. -/
theorem exists_file? (h : d.In m₀ m) (hopen : d.isOpen = true) :
    ∃ data location, d.node.content = .file data
      ∧ m.file? d.file = some (d.openFile data location) := by
  obtain ⟨data, hdata, hfile⟩ := h.file
  obtain ⟨location, hfile⟩ := hfile hopen
  exact ⟨data, location, hdata, hfile⟩

theorem isDirectory (h : d.In m₀ m) : m.tree.isDirectory d.id = false := by
  obtain ⟨data, hdata, -⟩ := h.file
  rw [Tree.isDirectory, Tree.entries?, h.content? hdata]
  rfl

theorem find (h : d.In m₀ m) : m.tree.find d.dir d.name = .ok (some d.id) := by
  rw [Tree.find, h.entry]

/-- The path of a draft leads to its name or nowhere, whether or not links are followed. -/
theorem locate (h : d.In m₀ m) (hm : m₀.Follows m) {place : Place}
    (hplace : m.locate follow d.path = .ok place) : place = .entry d.dir d.name false := by
  obtain ⟨data, hdata, -⟩ := h.file
  have hlink : Tree.isLink ((m.tree.child? d.dir d.name).bind m.tree.content?) = false := by
    rw [h.entry, Option.bind_some, h.content? hdata]
    rfl
  obtain ⟨place', hplain⟩ := Machine.exists_locate_unfollowed hplace
  obtain rfl : place' = .entry d.dir d.name false :=
    Except.ok.inj ((hm.locate hplain).symm.trans h.placed.located)
  have hsame := Machine.locate_of_not_isLink hplain hlink follow
  rw [hplace] at hsame
  exact Except.ok.inj hsame

theorem resolve (h : d.In m₀ m) (hm : m₀.Follows m) {id : InodeId}
    (hid : m.resolve follow d.path = .ok id) : id = d.id := by
  obtain ⟨place, hplace, hinode⟩ := bind_eq_ok_iff.1 hid
  obtain rfl := h.locate hm hplace
  obtain ⟨found, hfound, hinode⟩ := bind_eq_ok_iff.1 hinode
  rw [h.find] at hfound
  cases hfound
  exact (Except.ok.inj hinode).symm

/-- Changes of another file leave a draft alone, unless they concern its name. -/
theorem of_changesOnly (h : d.In m₀ m) (hchange : m.ChangesOnly own P m') (hown : d.id ≠ own)
    (hplace : ¬ P d.dir d.name) : d.In m₀ m' := by
  obtain ⟨data, hdata, hopen⟩ := h.file
  refine ⟨h.placed, ?_, ?_, ?_, data, hdata, ?_⟩
  · rw [hchange.tree.entries _ _ hplace, h.entry]
  · intro dir name hentry
    by_cases hP : P dir name
    · rcases hchange.tree.changed dir name hP with hnone | hsome
      · rw [hnone] at hentry
        cases hentry
      · rw [hsome] at hentry
        exact absurd (Option.some.inj hentry).symm hown
    · rw [hchange.tree.entries dir name hP] at hentry
      exact h.only dir name hentry
  · refine hchange.tree.inode?_eq hown h.inode ?_
    rw [hdata]
    rfl
  · intro hisOpen
    obtain ⟨location, hfile⟩ := hopen hisOpen
    obtain ⟨location', hfile'⟩ := hchange.files _ _ hfile hown
    exact ⟨location', hfile'⟩

/-- A draft that changes is the one that it is then. -/
theorem revise (h : d.In m₀ m) (hchange : m.ChangesOnly d.id (fun _ _ => False) m')
    {node : Inode} {data : Bytes} {isOpen : Bool} (found : Option UInt32)
    (hnode : m'.tree.inode? d.id = some node) (hdata : node.content = .file data)
    (hopen : isOpen = true → ∃ location, m'.file? d.file = some (d.openFile data location)) :
    { d with node := node, isOpen := isOpen, found := found }.In m₀ m' where
  placed := ⟨h.placed.located, h.placed.drawn, h.placed.free, h.placed.fresh, h.placed.mayOpen⟩
  entry := by
    rw [hchange.tree.entries _ _ not_false]
    exact h.entry
  only dir name hentry := by
    rw [hchange.tree.entries _ _ not_false] at hentry
    exact h.only dir name hentry
  inode := hnode
  file := ⟨data, hdata, hopen⟩

/-- Nothing is a change of the draft, too. -/
theorem changesOnly_refl (h : d.In m₀ m) : m.ChangesOnly d.id (fun _ _ => False) m where
  tree := by
    obtain ⟨data, hdata, -⟩ := h.file
    exact {
      root := rfl
      inodes := fun id _ => Inode.exists_eq_map_mapEntries (m.tree.inode? id)
      file := ⟨d.node, data, h.inode, hdata⟩
      entries := fun _ _ _ => rfl
      changed := fun _ _ hP => hP.elim }
  files _ _ hf _ := Machine.exists_file?_of_get?_eq rfl hf

/-! ## Calls that change a draft -/

/-- A change of the inode of a draft, besides which other files stay open, concerns it alone. -/
theorem of_updateInode (h : d.In m₀ m) {g : Inode → Inode} {data : Bytes} {isOpen : Bool}
    (found : Option UInt32) (htree : m'.tree = m.tree.updateInode d.id g)
    (hdata : (g d.node).content = .file data)
    (hfiles : ∀ d' f, m.file? d' = some f → f.inode ≠ d.id →
      m'.files.get? d'.number.toNat = m.files.get? d'.number.toNat)
    (hopen : isOpen = true → ∃ location, m'.file? d.file = some (d.openFile data location)) :
    { d with node := g d.node, isOpen := isOpen, found := found }.In m₀ m'
      ∧ m.ChangesOnly d.id (fun _ _ => False) m' := by
  obtain ⟨old, hold, -⟩ := h.file
  have hchange : m.ChangesOnly d.id (fun _ _ => False) m' := by
    refine ⟨?_, fun d' f hf hne => Machine.exists_file?_of_get?_eq (hfiles d' f hf hne) hf⟩
    rw [htree]
    exact Tree.changesOnly_updateInode h.inode hold hdata
  refine ⟨h.revise hchange found ?_ hdata hopen, hchange⟩
  rw [htree, Tree.inode?_updateInode, if_pos rfl, h.inode]
  rfl

/-- Bytes that are written come after those that were. -/
theorem write (h : d.In m₀ m) (hopen : d.isOpen = true) {data : Bytes} {count : Nat}
    (hwrite : m.write d.file data = .ok (count, m')) :
    count = data.length ∧ ∃ old perm, d.node.content = .file old ∧ Trimmed d.node.perm perm
      ∧ (d.revised (old ++ data) perm).In m₀ m' ∧ m.ChangesOnly d.id (fun _ _ => False) m' := by
  obtain ⟨old, location, hold, hfile⟩ := h.exists_file? hopen
  obtain ⟨hcount, f, hfound, hcases⟩ := Machine.write_cases hwrite
  obtain rfl := Option.some.inj (hfile.symm.trans hfound)
  have hcontent : m.tree.content? d.id = some (.file old) := h.content? hold
  refine ⟨hcount, ?_⟩
  rcases hcases with ⟨rfl, rfl | hnone⟩ | ⟨bytes, -, hbytes, htree, hfiles⟩
  · refine ⟨old, d.node.perm, hold, .refl _, ?_, h.changesOnly_refl⟩
    rw [List.append_nil, revised, ← hold]
    exact h
  · exact absurd hcontent (hnone old)
  · obtain rfl : bytes = old := Content.file.inj (Option.some.inj (hbytes.symm.trans hcontent))
    have hplace : (d.openFile bytes location).writesAt bytes = bytes.length := rfl
    rw [hplace, Machine.splice_length] at htree
    rw [hplace, ← List.length_append] at hfiles
    have hothers : ∀ d' f, m.file? d' = some f → f.inode ≠ d.id →
        m'.files.get? d'.number.toNat = m.files.get? d'.number.toNat := by
      intro d' f hf hne
      rw [hfiles]
      exact FinMap.get?_insert_of_ne _ _ (Machine.toNat_ne_of_file? hf hfile hne)
    exact ⟨bytes, _, hold, .changed m (.file (bytes ++ data)) d.node,
      h.of_updateInode d.found htree rfl hothers fun _ =>
        ⟨location, Machine.file?_of_insert hfile hfiles⟩⟩

/-- However many bytes a write takes, these are at the end. -/
theorem of_write (h : d.In m₀ m) (hopen : d.isOpen = true) {data : Bytes} {count : Nat}
    (houtcome : (Call.write d.file data).Outcome fails m (.ok count) m') :
    ∃ old perm, d.node.content = .file old ∧ Trimmed d.node.perm perm
      ∧ (d.revised (old ++ data.take count) perm).In m₀ m'
      ∧ m.ChangesOnly d.id (fun _ _ => False) m' := by
  rcases houtcome.write_eq_ok with hwrite | ⟨-, hwrite⟩
  · obtain ⟨rfl, hwritten⟩ := h.write hopen hwrite
    rw [List.take_length]
    exact hwritten
  · exact (h.write hopen hwrite).2

/-- Once closed, the draft is as it was. -/
theorem close (h : d.In m₀ m) (hopen : d.isOpen = true) {reply : Except Errno Unit}
    (houtcome : (Call.close d.file).Outcome fails m reply m') :
    { d with isOpen := false }.In m₀ m' ∧ m.ChangesOnly d.id (fun _ _ => False) m' := by
  obtain ⟨data, location, hdata, hfile⟩ := h.exists_file? hopen
  have hchange : m'.tree = m.tree ∧ m.ChangesOnly d.id (fun _ _ => False) m' := by
    cases reply with
    | error e =>
      obtain rfl := houtcome.eq_of_error
      exact ⟨rfl, h.changesOnly_refl⟩
    | ok _ =>
      have hclose : m.close d.file = .ok ((), m') := houtcome.perform_eq_ok fun _ _ h => by cases h
      obtain ⟨htree, -, hfiles⟩ := Machine.close_cases hclose
      refine ⟨htree, by rw [htree]; exact h.changesOnly_refl.tree, fun d' f hf hne => ?_⟩
      have hother := Machine.toNat_ne_of_file? hf hfile hne
      refine Machine.exists_file?_of_get?_eq ?_ hf
      rw [hfiles]
      exact FinMap.get?_erase_of_ne _ hother
  obtain ⟨htree, hchange⟩ := hchange
  refine ⟨h.revise hchange d.found ?_ hdata (fun h => by cases h), hchange⟩
  rw [htree, h.inode]

/-- A description of the open draft shows its permissions. -/
theorem statOpen (h : d.In m₀ m) (hopen : d.isOpen = true) {stat : Stat}
    (hstat : m.statOpen d.file = .ok (stat, m')) : stat.perm = d.node.perm := by
  obtain ⟨data, location, -, hfile⟩ := h.exists_file? hopen
  have hinode : m.tree.inode? (d.openFile data location).inode = some d.node := h.inode
  unfold Machine.statOpen at hstat
  simp only [hfile, Machine.describe, hinode, Except.map] at hstat
  cases hstat
  rfl

/-- The draft gets the permissions that the process may give it. -/
theorem chmod (h : d.In m₀ m) (hm : m₀.Follows m) {perm : UInt32}
    (hchmod : m.chmod d.path perm = .ok ((), m')) :
    { d with node := { d.node with perm := m₀.granted d.node perm } }.In m₀ m'
      ∧ m.ChangesOnly d.id (fun _ _ => False) m' := by
  obtain ⟨data, hdata, hfile⟩ := h.file
  obtain ⟨id, node, hid, hnode, htree, hfiles⟩ := Machine.chmod_cases hchmod
  obtain rfl := h.resolve hm hid
  obtain rfl := Option.some.inj (h.inode.symm.trans hnode)
  have hgranted : m₀.granted d.node perm = m.granted d.node perm := by
    rw [Machine.granted, ← show m.who = m₀.who from hm.process.who, Machine.granted]
  rw [hgranted]
  refine h.of_updateInode (g := fun node => { node with perm := m.granted d.node perm }) d.found
    htree hdata (fun _ _ _ _ => by rw [hfiles]) fun hopen => ?_
  rw [Machine.file?, hfiles]
  exact hfile hopen

/-! ## Calls that end a draft -/

/-- A draft that is removed has no name any more. -/
theorem unlink (h : d.In m₀ m) (hm : m₀.Follows m) (hunlink : m.unlink d.path = .ok ((), m')) :
    m.ChangesOnly d.id (fun dir name => dir = d.dir ∧ name = d.name) m'
      ∧ m'.tree.child? d.dir d.name = none := by
  obtain ⟨data, hdata, -⟩ := h.file
  obtain ⟨dir, name, id, hplace, -, -, rfl⟩ := Machine.unlink_cases hunlink
  cases h.locate hm hplace
  refine ⟨⟨Tree.changesOnly_removeEntry _ _ h.inode hdata, ?_⟩, ?_⟩
  · intro d' f hf _
    exact m.exists_file?_detach d.dir d.name hf
  · change (m.tree.removeEntry d.dir d.name).child? d.dir d.name = none
    rw [Tree.child?_removeEntry, if_pos ⟨rfl, rfl⟩]

/-- Renaming moves the entry of a draft to where the other path leads, unless this leads to the
draft, too. -/
theorem rename_eq_ok (h : d.In m₀ m) (hm : m₀.Follows m) {destination : Path}
    (hrename : m.rename d.path destination = .ok ((), m')) :
    ∃ dir name, m.locate (fun _ => false) destination = .ok (.entry dir name false)
      ∧ (m.tree.child? dir name = some d.id ∨ m' = m.moveEntry d.dir d.name dir name d.id) := by
  obtain ⟨origin, horigin, hrename⟩ := bind_eq_ok_iff.1 hrename
  obtain ⟨goal, hgoal, hrename⟩ := bind_eq_ok_iff.1 hrename
  obtain rfl := h.locate hm horigin
  obtain ⟨-, hrename⟩ := ite_error_eq_ok_iff.1 hrename
  cases goal with
  | reached dir => cases hrename
  | dots dir up => cases hrename
  | entry dir name slash =>
    obtain ⟨found, hfound, hrename⟩ := bind_eq_ok_iff.1 hrename
    rw [h.find] at hfound
    cases hfound
    obtain ⟨target, htarget, hrename⟩ := bind_eq_ok_iff.1 hrename
    obtain ⟨hslash, hrename⟩ := ite_error_eq_ok_iff.1 hrename
    obtain rfl : slash = false := by simpa [h.isDirectory] using hslash
    refine ⟨dir, name, hgoal, ?_⟩
    obtain ⟨-, hrename⟩ := ite_error_eq_ok_iff.1 hrename
    obtain ⟨-, hrename⟩ := ite_error_eq_ok_iff.1 hrename
    obtain ⟨-, hrename⟩ := ite_error_eq_ok_iff.1 hrename
    by_cases hsame : target = some d.id
    · rw [hsame] at htarget
      exact Or.inl (Tree.child?_eq_of_find htarget)
    · rw [if_neg hsame] at hrename
      simp only [h.isDirectory, Bool.false_and, Bool.false_eq_true, if_false] at hrename
      obtain ⟨_, -, hrename⟩ := bind_eq_ok_iff.1 hrename
      refine Or.inr ?_
      cases target with
      | none =>
        obtain ⟨_, -, hrename⟩ := bind_eq_ok_iff.1 hrename
        obtain ⟨-, hrename⟩ := ite_error_eq_ok_iff.1 hrename
        cases hrename
        rfl
      | some replaced =>
        obtain ⟨_, -, hrename⟩ := bind_eq_ok_iff.1 hrename
        obtain ⟨-, hrename⟩ := ite_error_eq_ok_iff.1 hrename
        cases hrename
        rfl

/-- A draft that is renamed has left its name for the one to which the other path leads. -/
theorem rename (h : d.In m₀ m) (hm : m₀.Follows m) {destination : Path}
    (hapart : ∀ slash, m₀.locate (fun _ => false) destination ≠ .ok (.entry d.dir d.name slash))
    (hrename : m.rename d.path destination = .ok ((), m')) :
    ∃ dir name, m.locate (fun _ => false) destination = .ok (.entry dir name false)
      ∧ m.ChangesOnly d.id (fun dir' name' => (dir' = d.dir ∧ name' = d.name)
          ∨ (dir' = dir ∧ name' = name)) m'
      ∧ m'.tree.child? d.dir d.name = none ∧ m'.tree.child? dir name = some d.id
      ∧ m'.tree.inode? d.id = some d.node := by
  obtain ⟨data, hdata, -⟩ := h.file
  obtain ⟨dir, name, hgoal, hmoved⟩ := h.rename_eq_ok hm hrename
  have hother : ¬ (d.dir = dir ∧ d.name = name) := by
    rintro ⟨rfl, rfl⟩
    exact hapart false (hm.locate hgoal)
  have hmoved := hmoved.resolve_left fun hsame => by
    obtain ⟨rfl, rfl⟩ := h.only dir name hsame
    exact hother ⟨rfl, rfl⟩
  have hdirectory : (m.tree.removeEntry d.dir d.name).isDirectory dir = true := by
    rw [Tree.isDirectory_removeEntry]
    exact Machine.isDirectory_of_locate hgoal
  have htree : m'.tree = (m.tree.removeEntry d.dir d.name).setEntry dir name d.id := by
    rw [hmoved]
    change (if m.tree.isDirectory d.id then _ else _) = _
    rw [h.isDirectory]
    rfl
  have hinode : (m.tree.removeEntry d.dir d.name).inode? d.id = some d.node :=
    Tree.inode?_updateEntries_of_file _ _ h.inode hdata
  refine ⟨dir, name, hgoal, ⟨?_, ?_⟩, ?_, ?_, ?_⟩
  · rw [htree]
    exact (Tree.changesOnly_removeEntry _ _ h.inode hdata).trans
      (Tree.changesOnly_setEntry hdirectory name hinode hdata)
  · intro d' f hf _
    rw [hmoved]
    exact m.exists_file?_moveEntry _ _ _ _ _ hf
  · rw [htree, Tree.child?_setEntry hdirectory, if_neg hother, Tree.child?_removeEntry,
      if_pos ⟨rfl, rfl⟩]
  · rw [htree, Tree.child?_setEntry hdirectory, if_pos ⟨rfl, rfl⟩]
  · rw [htree]
    exact Tree.inode?_updateEntries_of_file _ _ hinode hdata

end In

end Draft

/-! ## A new draft -/

namespace Machine

variable {m₀ m m' : Machine} {path destination : Path} {perm : UInt32} {file : Descriptor}

/-- Every name leads to an inode, if it did so before files were laid over the tree. -/
theorem Follows.isSome_inode? (h : m₀.Follows m) (hw : m₀.tree.WellFormed) {dir id : InodeId}
    {name : Name} (hentry : m.tree.child? dir name = some id) :
    (m.tree.inode? id).isSome = true := by
  rcases h.tree.entries dir name with hsame | ⟨id', node, hentry', -, hnode⟩
  · rw [hsame] at hentry
    exact h.tree.isSome_inode? (hw.entries dir name id hentry)
  · rw [hentry] at hentry'
    cases hentry'
    rw [hnode]
    rfl

/-- Opening for a new file, where it succeeds, makes a draft and changes nothing else. -/
theorem Follows.exists_draft (hm : m₀.Follows m) (hw : m₀.tree.WellFormed) {k : Nat}
    (hpath : path = destination.parentDir.join (m₀.tempName k))
    (h : m.openFile path .making perm = .ok (file, m')) :
    ∃ d : Draft, (d.path = path ∧ d.file = file ∧ d.isOpen = true ∧ d.found = none
        ∧ d.node.content = .file [] ∧ d.node.perm = m₀.masked perm)
      ∧ d.id = m.tree.nextId ∧ m.tree.child? d.dir d.name = none ∧ d.In m₀ m'
      ∧ m.ChangesOnly d.id (fun dir name => dir = d.dir ∧ name = d.name) m' := by
  obtain ⟨dir, name, hplace, hvacant, -, hopened⟩ := openFile_making_eq_ok h
  have hmayOpen : m₀.mayOpen = true := by
    rw [← show m.mayOpen = m₀.mayOpen from hm.process.mayOpen]
    exact mayOpen_of_openFile h
  have hmasked : m₀.masked perm = m.masked perm := by
    rw [Machine.masked, ← show m.mask = m₀.mask from hm.process.mask, Machine.masked]
  have hlocated := hm.locate hplace
  have hname : name = m₀.tempName k := by
    rw [hpath] at hlocated
    exact name_eq_of_locate_join (Path.isPlain_decimalString _) (Path.stepOf_decimalString _)
      hlocated
  have hdir := hvacant.isDirectory
  have hcontent : (m.newInode dir (.file []) (m.masked perm)).content = .file [] := rfl
  cases hopened
  refine ⟨⟨dir, name, m.tree.nextId, path, ⟨m.files.fresh⟩,
    m.newInode dir (.file []) (m.masked perm), true, none⟩,
    ⟨rfl, rfl, rfl, rfl, rfl, ?_⟩, rfl, hvacant.child?, ?_, ?_⟩
  · rw [hmasked]
    exact newInode_file_perm _ _ _ _
  · refine ⟨⟨hlocated, ⟨k, hname⟩, hm.tree.child?_eq_none hvacant.child?,
      hm.tree.inode?_eq_none m.tree.inode?_nextId, hmayOpen⟩, ?_, ?_, ?_, [], rfl, fun _ => ?_⟩
    · exact Tree.child?_addEntry_self hdir hcontent
    · intro dir' name' hentry
      change (m.tree.addEntry dir name _).child? dir' name' = _ at hentry
      rw [Tree.child?_addEntry hdir hcontent] at hentry
      split at hentry
      · assumption
      · have hsome := hm.isSome_inode? hw hentry
        rw [Tree.inode?_nextId] at hsome
        cases hsome
    · exact Tree.inode?_addEntry_nextId hdir
    · refine ⟨.entry dir name, ?_⟩
      rw [file?, if_pos (Int.natCast_nonneg _)]
      exact FinMap.get?_insert_self _ _ _
  · refine ⟨Tree.changesOnly_addEntry hdir hcontent, ?_⟩
    intro d f hf _
    refine exists_file?_of_get?_eq (FinMap.get?_insert_of_ne _ _ ?_) hf
    intro hfresh
    change d.number.toNat = m.files.fresh at hfresh
    unfold file? at hf
    rw [hfresh, FinMap.get?_fresh] at hf
    split at hf <;> cases hf

end Machine

end PortableFiles
