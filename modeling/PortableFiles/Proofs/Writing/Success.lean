import PortableFiles.Proofs.Kernel.Triples
import PortableFiles.Proofs.Writing.Beside
set_option autoImplicit false

/-!
# Writes that succeed

Where there is room for a file, nothing fails: the file can be made, filled, given permissions and
moved, and each of these steps has a triple.
-/

namespace PortableFiles

/-! ## Rights that the system never takes away -/

namespace Machine

/-- The permission bits that a file keeps whatever the process writes to it or sets on it: all
twelve for a process with privileges, else the nine that say who may do what. -/
def sureBits (m : Machine) : UInt32 := if m.who.privileged then permMask else 0o777

variable {m : Machine} {perm : UInt32}

theorem permMask_and_sureBits : permMask &&& m.sureBits = m.sureBits := by
  unfold sureBits
  split <;> decide

/-- Writing takes away other bits at most. -/
theorem permAfter_and_sureBits (data : Bytes) (perm : UInt32) :
    m.permAfter data perm &&& m.sureBits = perm &&& m.sureBits := by
  have hnone : (0o3777 : UInt32) &&& 0o777 = 0o777 := by decide
  have hgroup : (0o1777 : UInt32) &&& 0o777 = 0o777 := by decide
  by_cases h : m.who.privileged = true
  · rw [permAfter, h, Bool.or_true, if_pos rfl]
  · have hbits : m.sureBits = 0o777 := if_neg h
    rw [hbits, permAfter]
    split
    · rfl
    · rw [withoutLentRights_eq, UInt32.and_assoc]
      split
      · rw [hnone]
      · rw [hgroup]

/-- Setting permissions leaves out other bits at most. -/
theorem granted_and_sureBits (node : Inode) (perm : UInt32) :
    m.granted node perm &&& m.sureBits = perm &&& m.sureBits := by
  have hnine : (0o5777 : UInt32) &&& 0o777 = 0o777 := by decide
  have hperm : perm &&& permMask &&& m.sureBits = perm &&& m.sureBits := by
    rw [UInt32.and_assoc, permMask_and_sureBits]
  rcases m.granted_cases node perm with h | ⟨hprivileged, -, h⟩
  · rw [h, hperm]
  · have hbits : m.sureBits = 0o777 := if_neg (by rw [hprivileged]; decide)
    rw [h, ← hperm, hbits, UInt32.and_assoc (perm &&& permMask), hnine]

/-- The permissions with which a machine honours a wish are those wished for, as far as nothing can
take them away. -/
theorem Honours.and_sureBits {node : Inode} {perm : UInt32}
    (h : m.Honours node perm) : node.perm &&& m.sureBits = perm &&& m.sureBits := by
  rcases honours_iff.1 h with h | ⟨hprivileged, -, h⟩
  · rw [h]
  · have hbits : m.sureBits = 0o777 := if_neg (by rw [hprivileged]; decide)
    have hnine : (0o5777 : UInt32) &&& 0o777 = 0o777 := by decide
    rw [h, hbits, UInt32.and_assoc, hnine]

end Machine

/-! ## Making a file -/

/-- The empty path leads nowhere. -/
theorem Machine.isEmpty_of_locate {m : Machine} {follow : Bool → Bool} {path : Path} {place : Place}
    (h : m.locate follow path = .ok place) : path.isEmpty = false := by
  simpa [Path.isEmpty] using (bounds_of_locate h).1

/-- A place at which a file can be made: the path leads to a free name, in a directory that the
process may change. -/
structure Machine.Room (m : Machine) (path : Path) (dir : InodeId) (name : Name) : Prop where
  located : m.locate (fun _ => false) path = .ok (.entry dir name false)
  vacant : m.tree.Vacant dir name
  allowed : m.mayChangeEntries dir = .ok ()

namespace Machine.Room

variable {m : Machine} {path : Path} {dir : InodeId} {name : Name}

/-- Nothing is there that could be a link. -/
theorem locate (h : m.Room path dir name) (follow : Bool → Bool) :
    m.locate follow path = .ok (.entry dir name false) := by
  refine Machine.locate_of_not_isLink h.located ?_ follow
  rw [h.vacant.child?]
  rfl

/-- A look at the place finds nothing. -/
theorem stat_eq (h : m.Room path dir name) (follow : Bool) :
    m.stat path follow = .error .noEntry := by
  have hresolve : m.resolve (fun slash => follow || slash) path = .error .noEntry := by
    change (m.locate _ path >>= m.tree.inodeAt) = _
    rw [h.locate]
    change (m.tree.find dir name >>= _) = _
    rw [h.vacant.find]
    rfl
  rw [Machine.stat, hresolve]
  rfl

/-- A file that is made there is open for writing. -/
theorem openFile_eq_ok (h : m.Room path dir name) (hopen : m.mayOpen = true) {how : OpenHow}
    (hsound : how.isSound = true) (hcreate : how.create = true) (hnamed : how.unnamed = false)
    (perm : UInt32) :
    m.openFile path how perm = .ok ((m.create dir name (.file []) (m.masked perm)).openAs
      (how.file m.tree.nextId (.entry dir name))) := by
  obtain ⟨hne, hshort⟩ := bounds_of_locate h.located
  unfold Machine.openFile
  rw [hsound, hopen, hnamed, if_neg (by decide), if_neg hne, if_neg (Nat.not_le.2 hshort),
    if_neg (by decide), if_neg (by decide), h.locate]
  change (if (how.create && false) = true then _ else _) = _
  rw [Bool.and_false, if_neg (by decide), h.vacant.find, hcreate]
  change (m.mayChangeEntries dir >>= _) = _
  rw [h.allowed]
  rfl

end Machine.Room

/-! ## Setting permissions -/

/-- Permissions are set with one call. -/
theorem Posix.run_chmod {m m' : Machine} {path : Path} {perm : UInt32} (hnul : path.hasNul = false)
    (hchmod : m.chmod path (perm &&& permMask) = .ok ((), m')) :
    (platform.chmod path perm).run m = (.ok (), m') := by
  change (Routine.checkNul .chmod path >>= fun _ =>
    Routine.call .chmod path (.chmod path (perm &&& permMask))).run m = _
  rw [Routine.run_checkNul_bind hnul, Routine.run_call, Call.reply, Call.perform, hchmod]
  rfl

/-! ## A file that is open -/

namespace Stage

variable {s : Stage} {m m' : Machine} {data more : Bytes} {perm perm' : UInt32}

/-- A machine on which the file has the given bytes and permissions and is open. -/
structure Open (s : Stage) (data : Bytes) (perm : UInt32) (m : Machine) : Prop where
  at' : s.At data perm m
  isOpen : (m.file? s.file).isSome = true

namespace Open

theorem file? (h : s.Open data perm m) : m.file? s.file = some (s.openFile data) := by
  obtain ⟨f, hf⟩ := Option.isSome_iff_exists.1 h.isOpen
  rw [hf, h.at'.file f hf]

/-- All bytes can be written at once. -/
theorem write (h : s.Open data perm m) (more : Bytes) :
    ∃ m', m.write s.file more = .ok (more.length, m')
      ∧ s.Open (data ++ more) (s.start.permAfter more perm) m' := by
  have hsucceeds : ∃ m', m.write s.file more = .ok (more.length, m')
      ∧ (m'.file? s.file).isSome = true := by
    have hfile := h.file?
    unfold Machine.write
    rw [hfile]
    by_cases hmore : more = []
    · subst hmore
      exact ⟨m, rfl, h.isOpen⟩
    · have hcontent : m.tree.content? (s.openFile data).inode = some (.file data) :=
        h.at'.content?
      simp only [hmore, if_false, hcontent]
      refine ⟨_, rfl, ?_⟩
      have hnumber : 0 ≤ s.file.number := by
        unfold Machine.file? at hfile
        split at hfile
        · assumption
        · cases hfile
      rw [Machine.file?, if_pos hnumber]
      exact congrArg Option.isSome (FinMap.get?_insert_self _ _ _)
  obtain ⟨m', hwrite, hopen⟩ := hsucceeds
  exact ⟨m', hwrite, (h.at'.write hwrite).2, hopen⟩

/-- The file lies on the volume of its directory, which is one that can keep files. -/
theorem volume (h : s.Open data perm m) : m.tree.volume s.id ≠ .processes := by
  have hinode := h.at'.inode?
  have hvolume : s.start.tree.volume s.dir ≠ .processes := by
    simpa using (Bool.and_eq_true_iff.1 s.vacant.takesNames).2
  have hnode : (s.node data perm).volume = s.start.tree.volume s.dir := by
    have hdirectory := Tree.isSome_inode?_of_isDirectory s.vacant.isDirectory
    obtain ⟨above, habove⟩ := Option.isSome_iff_exists.1 hdirectory
    simp [node, Machine.newInode, Tree.volume, habove]
  have hfile : m.tree.volume s.id = (s.node data perm).volume := by
    rw [Tree.volume, hinode]
    rfl
  rw [hfile, hnode]
  exact hvolume

/-- The file can be brought to the device. -/
theorem sync (h : s.Open data perm m) : m.sync s.file = .ok ((), m) := by
  have hcontent : m.tree.content? (s.openFile data).inode = some (.file data) := h.at'.content?
  have hvolume : m.tree.volume (s.openFile data).inode ≠ .processes := h.volume
  unfold Machine.sync
  rw [h.file?]
  simp only [hvolume, hcontent, if_false]
  rfl

/-- The file can be described. -/
theorem statOpen (h : s.Open data perm m) :
    ∃ stat, m.statOpen s.file = .ok (stat, m) ∧ stat.perm = perm := by
  have hinode : m.tree.inode? (s.openFile data).inode = some (s.node data perm) := h.at'.inode?
  unfold Machine.statOpen
  rw [h.file?]
  simp only [Machine.describe, hinode]
  exact ⟨_, rfl, node_perm⟩

/-- The file can be closed. -/
theorem close (h : s.Open data perm m) :
    ∃ m', m.close s.file = .ok ((), m') ∧ s.At data perm m' := by
  have hclose : ∃ m', m.close s.file = .ok ((), m') := by
    unfold Machine.close
    rw [h.file?]
    exact ⟨_, rfl⟩
  obtain ⟨m', hclose⟩ := hclose
  exact ⟨m', hclose, h.at'.close hclose⟩

end Open

/-- The file has the user of the process, and anybody may set permissions of a file of their own. -/
theorem At.chmod_eq_ok (h : s.At data perm m) (perm' : UInt32) :
    ∃ m', m.chmod s.path perm' = .ok ((), m')
      ∧ s.At data (s.start.granted (s.node data perm) perm') m' ∧ m'.files = m.files := by
  have hinode : m.inodeAt (fun _ => true) s.path = .ok (s.id, s.node data perm) := by
    refine bind_eq_ok_iff.2 ⟨s.id, h.resolve_path _, ?_⟩
    rw [h.inode?]
  have howns : m.owns (s.node data perm) = true := by
    simp [Machine.owns, node, Machine.newInode, h.who]
  have hallowed : m.mayChangeInode (s.node data perm) = .ok () := by
    rw [Machine.mayChangeInode, howns]
    rfl
  have hfixed : ¬ (s.node data perm).fixed = .permissions := by simp [node, Machine.newInode]
  have hchmod : ∃ m', m.chmod s.path perm' = .ok ((), m') ∧ m'.files = m.files :=
    ⟨_, bind_eq_ok_iff.2 ⟨_, hinode, ite_error_eq_ok_iff.2 ⟨hfixed,
      bind_eq_ok_iff.2 ⟨(), hallowed, rfl⟩⟩⟩, rfl⟩
  obtain ⟨m', hchmod, hfiles⟩ := hchmod
  exact ⟨m', hchmod, h.chmod hchmod, hfiles⟩

/-- Where there was room beside the file, there still is. -/
theorem At.room (h : s.At data perm m) {path : Path} {name : Name}
    (hroom : s.start.Room path s.dir name) (hname : name ≠ s.name) : m.Room path s.dir name where
  located := (h.locate _ _).eq_of_ok hroom.located
  vacant := {
    isDirectory := Machine.isDirectory_of_locate (h.locate_path fun _ => false)
    find := by
      rw [h.tree.find, Stage.tree, Tree.find_addEntry_of_ne s.vacant node_content
        (Tree.ne_nextId_of_isDirectory s.vacant.isDirectory) fun h => hname h.2]
      exact hroom.vacant.find }
  allowed := h.mayChangeEntries

/-- The file can be moved to where there is room for it. -/
theorem At.rename_eq_ok (h : s.At data perm m) {path : Path} {name : Name}
    (hroom : s.start.Room path s.dir name) (hname : name ≠ s.name) :
    ∃ m', m.rename s.path path = .ok ((), m') := by
  have hgoal := h.room hroom hname
  have hmount : m.tree.isMount s.id = false := by rw [Tree.isMount, h.isDirectory, Bool.false_and]
  refine ⟨m.moveEntry s.dir s.name s.dir name s.id, ?_⟩
  refine bind_eq_ok_iff.2 ⟨_, h.locate_path _, bind_eq_ok_iff.2 ⟨_, hgoal.located, ?_⟩⟩
  refine ite_error_eq_ok_iff.2 ⟨fun h => h rfl, bind_eq_ok_iff.2 ⟨_, h.find, ?_⟩⟩
  refine bind_eq_ok_iff.2 ⟨_, hgoal.vacant.find, ?_⟩
  simp only [h.isDirectory, hmount, Bool.not_false, Bool.or_self, Bool.and_false, Bool.false_and,
    Bool.false_eq_true, Option.any_none, if_false]
  rw [if_neg (by simp), hgoal.allowed]
  rfl

/-! ## Writing all of a stream -/

/-- A machine on which the file has the given bytes and is open, and has the permissions `bits` as
far as nothing can take them away. -/
def Filled (s : Stage) (data : Bytes) (bits : UInt32) (m : Machine) : Prop :=
  ∃ perm, perm &&& s.start.sureBits = bits &&& s.start.sureBits ∧ s.Open data perm m

variable {bits : UInt32} {path : Path}

/-- All of some bytes are written, with one call. -/
theorem yields_writeAll (more : Bytes) :
    Routine.Yields (s.Filled data bits) (Routine.writeAll path s.file more)
      fun _ => s.Filled (data ++ more) bits := by
  have hnone : Routine.writeAll path s.file [] = pure () := by
    rw [Routine.writeAll, dif_pos rfl]
  by_cases hmore : more = []
  · subst hmore
    rw [hnone, List.append_nil]
    exact .pure fun m h => h
  rintro m ⟨perm, hperm, hopen⟩
  obtain ⟨m', hwrite, hopen'⟩ := hopen.write more
  have hcount : ¬ more.length = 0 := mt List.length_eq_zero_iff.1 hmore
  refine ⟨(), m', ?_, _, (Machine.permAfter_and_sureBits more perm).trans hperm, hopen'⟩
  have hreply : (Call.write s.file more).reply m = (.ok more.length, m') := by
    rw [Call.reply, Call.perform, hwrite]
  rw [Routine.writeAll, dif_neg hmore]
  change Program.run _ ((Call.write s.file more).reply m).2 = _
  rw [hreply]
  simp only [hcount, dif_neg, not_false_eq_true, List.drop_length, hnone]
  rfl

theorem yields_forIn (parts : List Bytes) :
    Routine.Yields (s.Filled data bits)
      (forIn parts PUnit.unit fun part _ => do
        Routine.writeAll path s.file part
        pure (ForInStep.yield PUnit.unit))
      fun _ => s.Filled (data ++ parts.flatten) bits := by
  induction parts generalizing data with
  | nil =>
    rw [List.flatten_nil, List.append_nil]
    exact .pure fun m h => h
  | cons part parts ih =>
    rw [List.forIn_cons, List.flatten_cons, ← List.append_assoc]
    refine (Routine.Yields.bind (yields_writeAll part) fun _ => .pure (Q := fun step m =>
      step = ForInStep.yield PUnit.unit ∧ s.Filled (data ++ part) bits m)
      fun m h => ⟨rfl, h⟩).bind ?_
    rintro step m ⟨rfl, h⟩
    exact ih m h

/-- A stream that comes to its end is written. -/
theorem yields_copyTo {reader : Reader} (hquiet : reader.IsQuiet) (hends : reader.Ends) :
    Routine.Yields (s.Filled data bits) (reader.copyTo path (Routine.writeAll path s.file))
      fun _ => s.Filled (data ++ reader.delivered) bits := by
  induction reader generalizing data with
  | nil =>
    rw [Reader.delivered, List.append_nil]
    exact .pure fun m h => h
  | cons chunk rest ih =>
    cases chunk with
    | bytes more =>
      rw [Reader.copyTo, Reader.delivered]
      by_cases hmore : more = []
      · rw [if_pos hmore, if_pos hmore, List.append_nil]
        exact .pure fun m h => h
      · rw [if_neg hmore, if_neg hmore, ← List.append_assoc]
        refine (yields_forIn _).bind fun _ => ?_
        rw [Reader.buffersFull_flatten]
        exact (ih hquiet.tail (hends.resolve_left hmore)).bind fun _ => .pure fun m h => h
    | failure e =>
      rw [Reader.copyTo, Reader.delivered, if_pos hends.1, if_pos hends.1]
      exact ih hquiet.tail hends.2
    | meanwhile others => exact absurd (List.mem_cons_self ..) (hquiet others)

/-- A machine on which the file has the given bytes, and the permissions `bits` as far as nothing
can take them away. -/
def Settled (s : Stage) (data : Bytes) (bits : UInt32) (m : Machine) : Prop :=
  ∃ perm, perm &&& s.start.sureBits = bits &&& s.start.sureBits ∧ s.At data perm m

theorem Settled.holds (h : s.Settled data bits m) : s.Holds m := by
  obtain ⟨perm, -, hat⟩ := h
  exact ⟨data, perm, hat⟩

/-- The file can be closed. -/
theorem yields_close :
    Routine.Yields (s.Filled data bits) (Posix.close s.writer) fun _ => s.Settled data bits := by
  rintro m ⟨perm, hperm, hopen⟩
  obtain ⟨m', hclose, hat⟩ := hopen.close
  refine ⟨(), m', ?_, perm, hperm, hat⟩
  rw [Posix.close_writer, Routine.run_bind, Routine.run_lift]
  change ((Posix.closed s.path ((Call.close s.file).reply m).1).run
    ((Call.close s.file).reply m).2) = _
  rw [Call.reply, Call.perform, hclose]
  rfl

/-- The file can be given permissions. -/
theorem At.run_chmod (h : s.At data perm m) (hnul : s.path.hasNul = false) (perm' : UInt32) :
    ∃ m', (Posix.platform.chmod s.path perm').run m = (.ok (), m')
      ∧ s.At data (s.start.granted (s.node data perm) (perm' &&& permMask)) m'
      ∧ m'.files = m.files := by
  obtain ⟨m', hchmod, hat, hfiles⟩ := h.chmod_eq_ok (perm' &&& permMask)
  exact ⟨m', Posix.run_chmod hnul hchmod, hat, hfiles⟩

/-- The file that is open can be given permissions, which it then has. -/
theorem yields_chmod (hnul : s.path.hasNul = false) (perm' : UInt32) :
    Routine.Yields (s.Filled data bits) (Posix.platform.chmod s.path perm')
      fun _ => s.Filled data perm' := by
  rintro m ⟨perm, -, hopen⟩
  obtain ⟨m', hrun, hat, hfiles⟩ := hopen.at'.run_chmod hnul perm'
  refine ⟨(), m', hrun, _, ?_, hat, ?_⟩
  · rw [Machine.granted_and_sureBits, UInt32.and_assoc, Machine.permMask_and_sureBits]
  · rw [Machine.file?, hfiles]
    exact hopen.isOpen

end Stage

/-! ## Opening where there is room -/

namespace Machine.Room

open Routine (Yields)

variable {m : Machine} {path : Path} {dir : InodeId} {name : Name}

/-- The file that can be made there. -/
def stage (h : m.Room path dir name) : Stage :=
  ⟨m, dir, name, path, ⟨m.files.fresh⟩, h.vacant, h.located, h.allowed⟩

/-- A file that is made for writing from its start is open and empty. -/
theorem opens (h : m.Room path dir name) (hopen : m.mayOpen = true) {how : OpenHow}
    (hsound : how.isSound = true) (hcreate : how.create = true) (hnamed : how.unnamed = false)
    (hwrites : how.file = OpenHow.making.file) (perm : UInt32) :
    ∃ m', m.openFile path how perm = .ok (h.stage.file, m')
      ∧ h.stage.Open [] (m.masked perm) m' := by
  refine ⟨_, h.openFile_eq_ok hopen hsound hcreate hnamed perm, ⟨.refl _, rfl, rfl, ?_⟩, ?_⟩
  · intro f hf
    have hfile := (file?_openAs _ _).symm.trans hf
    rw [hwrites] at hfile
    cases hfile
    rfl
  · exact congrArg Option.isSome (file?_openAs _ _)

/-- Questions leave the room that there is. -/
theorem of_asked {m' : Machine} (h : m.Room path dir name) (hasked : m.Asked m') :
    m'.Room path dir name where
  located := (hasked.locate _ _).trans h.located
  vacant := by
    rw [hasked.tree]
    exact h.vacant
  allowed := (hasked.mayChangeEntries dir).trans h.allowed

/-- Opening makes the file. -/
theorem yields_openWriter (h : m.Room path dir name) (hopen : m.mayOpen = true)
    (hnul : path.hasNul = false) (how : OpenHow) (hsound : how.isSound = true)
    (hcreate : how.create = true) (hnamed : how.unnamed = false)
    (hwrites : how.file = OpenHow.making.file) {operation : Operation} {flags : OpenFlags}
    (hdelete : flags.has .deleteOnClose = false) (perm : UInt32) :
    Yields (fun m' => m' = m) (Posix.openWriter operation path how perm flags) fun w m' =>
      w = h.stage.writer ∧ h.stage.Open [] (m.masked perm) m' := by
  refine (Yields.checkNul hnul).bind fun _ => ?_
  refine (Yields.call (Q := fun file m' => file = h.stage.file
    ∧ h.stage.Open [] (m.masked perm) m') ?_).bind ?_
  · rintro _ rfl
    obtain ⟨m', hperform, hmade⟩ := h.opens hopen hsound hcreate hnamed hwrites perm
    exact ⟨_, m', hperform, rfl, hmade⟩
  · rintro file
    refine .pure ?_
    rintro m' ⟨rfl, hmade⟩
    rw [hdelete]
    exact ⟨rfl, hmade⟩

end Machine.Room

end PortableFiles
