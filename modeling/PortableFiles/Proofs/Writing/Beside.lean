import PortableFiles.Proofs.Kernel.Changes
import PortableFiles.Proofs.Path.Sibling
import PortableFiles.Proofs.Writing.Course
import PortableFiles.Proofs.Writing.Request
set_option autoImplicit false

/-!
# The new file and the destination

The new file lies in the directory of the destination (`Writing.Begun.dir_eq`), under a name that
the process makes of a random word.  Unless the process draws the very name that is missing there,
the file is apart from the destination (`Writing.Begun.locate_ne`), and so the permissions that
the destination shows do not depend on it (`Writing.Begun.permAt_eq`).
-/

namespace PortableFiles

namespace Machine

/-- Whether the process never draws the name at which a path ends, where this name is missing. -/
def NeverDraws (m : Machine) (follow : Bool → Bool) (path : Path) : Prop :=
  ∀ k dir name slash, m.locate follow path = .ok (.entry dir name slash) →
    m.tree.child? dir name = none → m.tempName k ≠ name

variable {m m' : Machine}

/-- A random word has ten digits at most. -/
theorem length_tempName_le (m : Machine) (k : Nat) : (m.tempName k).length ≤ 10 := by
  rw [tempName, Bytes.length_ofString_decimalString, Nat.length_toDigits_le_iff (by decide)
    (by decide)]
  exact Nat.lt_trans (m.draws k).toNat_lt (by decide)

/-- Where a path can be asked for, so can a drawn name beside it. -/
theorem hasNul_tempPath (m : Machine) (k : Nat) {path : Path} (h : path.hasNul = false) :
    (path.parentDir.join (m.tempName k)).hasNul = false := by
  have hnone : 0 ∉ path.bytes := by simpa [Path.hasNul] using h
  have hgoal : 0 ∉ (path.parentDir.join (m.tempName k)).bytes := by
    intro hb
    rcases Path.mem_bytes_of_mem_join hb with hb | hb | hb
    · rcases Path.mem_bytes_of_mem_parentDir hb with hb | hb
      · exact hnone hb
      · exact absurd hb (by decide)
    · exact absurd hb (by decide)
    · exact absurd ((Bytes.ofString_decimalString _).2 0 hb).1 (by decide)
  simpa [Path.hasNul] using hgoal

theorem Asked.wellFormed (h : Asked m m') (hm : m.WellFormed) : m'.WellFormed where
  tree := by
    rw [h.tree]
    exact hm.tree
  cwd := by
    rw [h.tree, h.cwd]
    exact hm.cwd

/-- A path shows the permissions that it showed. -/
theorem Asked.permAt (h : Asked m m') (path : Path) : m'.permAt path = m.permAt path := by
  rw [permAt_eq, permAt_eq, resolve, h.tree, h.who, h.cwd, resolve]

end Machine

/-- A new file whose path ends with a drawn name has this name. -/
theorem Stage.name_eq_tempName {s : Stage} {directory : Path} {m : Machine} {k : Nat}
    (hpath : s.path = directory.join (m.tempName k)) : s.name = m.tempName k := by
  have hlocated := s.located
  rw [hpath] at hlocated
  exact Machine.name_eq_of_locate_join (Path.isPlain_decimalString _)
    (Path.stepOf_decimalString _) hlocated

namespace Writing.Begun

variable {m made : Machine} {path : Path} {options : Options} {s : Stage} {opening : List Event}

/-- The new file has the name that was drawn. -/
theorem exists_name_eq (h : Begun m path options s opening made) :
    ∃ k, s.name = m.tempName k := by
  obtain ⟨k, hpath⟩ := h.name
  exact ⟨k, Stage.name_eq_tempName hpath⟩

/-- The path of the new file leads to its entry already at the beginning. -/
theorem located (h : Begun m path options s opening made) :
    m.locate (fun _ => false) s.path = .ok (.entry s.dir s.name false) := by
  rw [← h.asked.locate]
  exact s.located

/-- The entry of the new file is missing at the beginning. -/
theorem child? (h : Begun m path options s opening made) :
    m.tree.child? s.dir s.name = none := by
  rw [← h.asked.tree]
  exact s.vacant.child?

/-- While the new file is prepared, it is all that is different. -/
theorem replaced_of_at (h : Begun m path options s opening made) {now : Machine} {data : Bytes}
    {perm : UInt32} (hat : s.At data perm now) :
    m.tree.Replaced s.dir s.name (s.node data perm) now.tree := by
  have hdirectory := s.vacant.isDirectory
  have hsame := hat.tree
  rw [Stage.tree, h.asked.tree] at hsame
  rw [h.asked.tree] at hdirectory
  exact .of_addEntry hdirectory Stage.node_content hsame

/-- The new file lies in the directory of the destination. -/
theorem dir_eq (h : Begun m path options s opening made) {dir : InodeId} {name : Name}
    {slash : Bool} (hdestination : m.locate (fun _ => false) path = .ok (.entry dir name slash)) :
    s.dir = dir := by
  obtain ⟨k, hpath⟩ := h.name
  have hlocated := h.located
  rw [hpath] at hlocated
  exact Machine.eq_of_sibling (Path.isPlain_decimalString _) (Path.stepOf_decimalString _)
    hdestination hlocated

/-- The destination is not the place of the new file. -/
theorem locate_ne (h : Begun m path options s opening made) {follow : Bool → Bool}
    (hdraws : m.NeverDraws follow path) (slash : Bool) :
    m.locate follow path ≠ .ok (.entry s.dir s.name slash) := by
  intro hplace
  obtain ⟨k, hname⟩ := h.exists_name_eq
  exact hdraws k s.dir s.name slash hplace h.child? hname.symm

/-- While the new file is prepared, the destination shows the permissions that it showed. -/
theorem permAt_eq (h : Begun m path options s opening made) (hm : m.WellFormed)
    (hdraws : m.NeverDraws (fun _ => true) path) {now : Machine} {data : Bytes} {perm : UInt32}
    (hat : s.At data perm now) : now.permAt path = m.permAt path := by
  rw [← h.asked.permAt]
  refine hat.permAt_eq (h.asked.wellFormed hm) ?_
  intro slash
  rw [h.asked.locate]
  exact h.locate_ne hdraws slash

/-- A file that is renamed over the destination is there under the name of the destination. -/
theorem same_of_rename (h : Begun m path options s opening made) (hm : m.WellFormed)
    {ready m' : Machine} {data : Bytes} {perm : UInt32} (hat : s.At data perm ready)
    (hrename : ready.rename s.path path = .ok ((), m')) :
    ∃ dir name, m.locate (fun _ => false) path = .ok (.entry dir name false)
      ∧ m.tree.isDirectory dir = true
      ∧ m'.tree.Same (m.tree.addEntry dir name (s.node data perm)) := by
  have hclosed : ∀ d n, s.start.tree.child? d n ≠ some s.id :=
    (h.asked.wellFormed hm).tree.child?_ne_nextId
  obtain ⟨dir, name, hplace, hsame⟩ := hat.rename hclosed hrename
  have hdirectory := Machine.isDirectory_of_locate hplace
  rw [h.asked.locate] at hplace
  rw [h.asked.tree] at hsame hdirectory
  exact ⟨dir, name, hplace, hdirectory, hsame⟩

/-- A file that is renamed over the destination replaces what was there. -/
theorem replaced (h : Begun m path options s opening made) (hm : m.WellFormed) {ready m' : Machine}
    {data : Bytes} {perm : UInt32} (hat : s.At data perm ready)
    (hrename : ready.rename s.path path = .ok ((), m')) :
    ∃ dir name, m.locate (fun _ => false) path = .ok (.entry dir name false)
      ∧ m.tree.Replaced dir name (s.node data perm) m'.tree := by
  obtain ⟨dir, name, hplace, hdirectory, hsame⟩ := h.same_of_rename hm hat hrename
  exact ⟨dir, name, hplace, .of_addEntry hdirectory Stage.node_content hsame⟩

/-- A file that is removed is there without a name. -/
theorem same_of_unlink (h : Begun m path options s opening made) {between m' : Machine}
    {data : Bytes} {perm : UInt32} {value : Unit} {fails : Call → Errno → Prop}
    (hat : s.At data perm between)
    (hremoval : (Call.unlink s.path).Outcome fails between (.ok value) m') :
    m'.tree.Same (m.tree.addInode (s.node data perm)) := by
  obtain ⟨removed, hunlink, hsame⟩ := hat.unlink
  have hperform : between.unlink s.path = .ok (value, m') :=
    hremoval.perform_eq_ok fun _ _ h => by cases h
  rw [hunlink] at hperform
  cases hperform
  rwa [h.asked.tree] at hsame

/-- A file that is removed leaves everything as it was. -/
theorem unchanged_of_unlink (h : Begun m path options s opening made) {between m' : Machine}
    {value : Unit} {fails : Call → Errno → Prop} (hbetween : s.Holds between)
    (hremoval : (Call.unlink s.path).Outcome fails between (.ok value) m') :
    m.tree.Unchanged m'.tree := by
  obtain ⟨data, perm, hat⟩ := hbetween
  exact .of_addInode Stage.node_content (h.same_of_unlink hat hremoval)

end Writing.Begun

/-- Whether a file is the one that a write should leave, given the permissions found at the
destination: all that the reader delivers is in it, and it has the permissions that come out. -/
structure AtomicWrite.Leaves (w : AtomicWrite) (m : Machine) (found : Option UInt32)
    (node : Inode) : Prop where
  content : node.content = .file w.reader.delivered
  perm : m.Honours node (w.effective.finalPerm found m.umask m.mask)

/-- The file that is ready is the one that the write should leave. -/
theorem Writing.Preparation.leaves {fails : Call → Errno → Prop} {w : AtomicWrite} {s : Stage}
    {m made ready : Machine} {opening : List Event}
    (p : Preparation fails m w.path w.reader w.effective s ready)
    (hbegun : Begun m w.path w.effective s opening made) :
    w.Leaves m p.kept (s.node w.reader.delivered p.perm) where
  content := Stage.node_content
  perm := p.honours.of_who hbegun.asked.who

end PortableFiles
