import PortableFiles.Proofs.Kernel.Overlay
import PortableFiles.Proofs.Writing.Filling
import PortableFiles.Proofs.Writing.Permissions
set_option autoImplicit false

/-!
# The course of an atomic write

A run makes a new file or fails to; it fills the file and gives it its permissions, or gives up and
removes it; it renames the file over the destination, or is refused and removes it.  There is no
other course (`Writing.course_of_runs`).
-/

namespace PortableFiles

variable {fails : Call → Errno → Prop} {s : Stage} {m m' : Machine} {events : List Event}

/-! ## Renaming and removing -/

namespace Posix

/-- Renaming is one call, unless one of the paths cannot be asked for. -/
theorem rename_runs {source destination : Path} {outcome : Except Error Unit}
    (hrun : Routine.Runs fails (platform.rename source destination) m events outcome m') :
    (m' = m ∧ events = [] ∧ ∃ e, outcome = .error e)
      ∨ ∃ reply, (Call.rename source destination).Outcome fails m reply m'
          ∧ events = [⟨.rename source destination, reply, m, m'⟩]
          ∧ outcome = reply.mapError (.ofErrno .rename destination) := by
  rcases Routine.runs_bind_iff.1 hrun with
    ⟨e, rfl, hnul⟩ | ⟨first, rest, between, _, rfl, hnul, hrest⟩
  · obtain ⟨-, -, rfl, rfl⟩ := hnul.checkNul_error
    exact Or.inl ⟨rfl, rfl, e, rfl⟩
  obtain ⟨-, rfl, rfl⟩ := hnul.checkNul_ok
  rcases Routine.runs_bind_iff.1 hrest with
    ⟨e, rfl, hnul⟩ | ⟨first, last, after, _, rfl, hnul, hcall⟩
  · obtain ⟨-, -, rfl, rfl⟩ := hnul.checkNul_error
    exact Or.inl ⟨rfl, rfl, e, rfl⟩
  obtain ⟨-, rfl, rfl⟩ := hnul.checkNul_ok
  exact Or.inr (Routine.runs_call_iff.1 hcall)

/-- Removing is one call for a path that can be asked for, and nobody looks at its answer. -/
theorem removeFile_runs {path : Path} {value : Unit} (hnul : path.hasNul = false)
    (hrun : Program.Runs fails (platform.removeFile path).ignoringErrors m events value m') :
    ∃ reply, (Call.unlink path).Outcome fails m reply m'
      ∧ events = [⟨.unlink path, reply, m, m'⟩] := by
  obtain ⟨outcome, hremove⟩ := Routine.runs_ignoringErrors_iff.1 hrun
  rcases Routine.runs_bind_iff.1 hremove with
    ⟨e, rfl, hcheck⟩ | ⟨first, rest, between, _, rfl, hcheck, hcall⟩
  · obtain ⟨h, -⟩ := hcheck.checkNul_error
    rw [hnul] at h
    cases h
  obtain ⟨-, rfl, rfl⟩ := hcheck.checkNul_ok
  obtain ⟨reply, houtcome, rfl, -⟩ := Routine.runs_call_iff.1 hcall
  exact ⟨reply, houtcome, rfl⟩

end Posix

/-! ## Setting permissions -/

/-- Whether the process may give a file some permissions.  To let a file lend its group's rights
takes a member of the group, or privileges. -/
def Machine.MayGive (m : Machine) (node : Inode) (perm : UInt32) : Prop :=
  m.who.privileged = true ∨ m.who.gid = node.gid ∨ perm &&& 0o5777 = perm

/-- Whether a file has the permissions that it should: exactly these, where the process may give
them.  Elsewhere the one bit may be missing that lends the rights of the file's group. -/
structure Machine.Honours (m : Machine) (node : Inode) (perm : UInt32) : Prop where
  perm_eq : m.MayGive node perm → node.perm = perm
  lessened : node.perm = perm ∨ node.perm = perm &&& 0o5777

/-- A file does not have the permissions that it should only if the process is neither privileged
nor a member of its group. -/
theorem Machine.honours_iff {m : Machine} {node : Inode} {perm : UInt32} :
    m.Honours node perm ↔ node.perm = perm
      ∨ (m.who.privileged = false ∧ m.who.gid ≠ node.gid ∧ node.perm = perm &&& 0o5777) := by
  constructor
  · intro h
    by_cases hmay : m.MayGive node perm
    · exact Or.inl (h.perm_eq hmay)
    · have hprivileged : m.who.privileged = false := Bool.eq_false_iff.2 fun h => hmay (Or.inl h)
      have hgroup : m.who.gid ≠ node.gid := fun h => hmay (Or.inr (Or.inl h))
      exact h.lessened.imp_right fun hless => ⟨hprivileged, hgroup, hless⟩
  · rintro (h | ⟨hprivileged, hgroup, h⟩)
    · exact ⟨fun _ => h, Or.inl h⟩
    · refine ⟨?_, Or.inr h⟩
      rintro (hmay | hmay | hmay)
      · rw [hprivileged] at hmay
        cases hmay
      · exact absurd hmay hgroup
      · rw [h, hmay]

theorem Machine.Honours.of_who {m m' : Machine} {node : Inode} {perm : UInt32}
    (hwho : m'.who = m.who) (h : m'.Honours node perm) : m.Honours node perm := by
  rw [honours_iff, ← hwho]
  exact honours_iff.1 h

theorem Machine.granted_cases (m : Machine) (node : Inode) (perm : UInt32) :
    m.granted node perm = perm &&& permMask
      ∨ (m.who.privileged = false ∧ m.who.gid ≠ node.gid
          ∧ m.granted node perm = perm &&& permMask &&& 0o5777) := by
  unfold granted
  by_cases h : (m.who.privileged || m.who.gid = node.gid) = true
  · rw [if_pos h]
    exact Or.inl rfl
  · rw [if_neg h]
    simp only [Bool.or_eq_true, decide_eq_true_eq, not_or, Bool.not_eq_true] at h
    exact Or.inr ⟨h.1, h.2, rfl⟩

/-- Permissions that are set are had as far as the process may give them. -/
theorem Machine.Honours.of_granted {m : Machine} {node node' : Inode} {perm : UInt32}
    (hgid : node'.gid = node.gid) (hperm : node'.perm = m.granted node (perm &&& permMask)) :
    m.Honours node' (perm &&& permMask) := by
  have hmask : perm &&& permMask &&& permMask = perm &&& permMask := by
    rw [UInt32.and_assoc, UInt32.and_self]
  have hgranted := m.granted_cases node (perm &&& permMask)
  rw [hmask] at hgranted
  rw [honours_iff, hperm, hgid]
  exact hgranted

/-- The permissions of a file after they were set, unless it has them: those that the process may
give it. -/
def Machine.adjusted (m : Machine) (node : Inode) (perm : UInt32) : UInt32 :=
  if perm = node.perm then perm else m.granted node perm

theorem Machine.granted_and_permMask (m : Machine) (node : Inode) (perm : UInt32) :
    m.granted node (perm &&& permMask) = m.granted node perm := by
  rw [granted, granted, UInt32.and_assoc perm, UInt32.and_self]

/-- Permissions that are set unless the file has them are had as far as the process may give
them. -/
theorem Machine.Honours.of_adjusted {m : Machine} {node node' : Inode} {perm : UInt32}
    (hgid : node'.gid = node.gid) (hmask : node.perm &&& permMask = node.perm)
    (hperm : node'.perm = m.adjusted node perm) : m.Honours node' (perm &&& permMask) := by
  unfold adjusted at hperm
  split at hperm
  · rename_i hsame
    rw [← hsame] at hmask
    exact honours_iff.2 (Or.inl (hperm.trans hmask.symm))
  · refine .of_granted hgid ?_
    rw [granted_and_permMask, hperm]

theorem Machine.umask_eq_of_process {m m' : Machine} (h : m'.process = m.process) :
    m'.umask = m.umask := by
  rw [Machine.umask, Machine.umask]
  rw [show m'.mask = m.mask from congrArg Process.mask h,
    show m'.rememberedMask = m.rememberedMask from congrArg Process.rememberedMask h]

/-- Choosing permissions leaves the new file as it is. -/
theorem Stage.At.of_finalPerm {path : Path} {options : Options} {created perm : UInt32}
    {data : Bytes} {outcome : Except Error UInt32} (h : s.At data perm m)
    (hrun : Routine.Runs fails (Writing.finalPerm Posix.platform path options created) m events
      outcome m') : s.At data perm m' := by
  refine (Program.Runs.invariant ?_ (fun q m hm => hm.answer q) hrun Writing.uses_finalPerm h).1
  rintro c reply m m' rfl houtcome hm
  cases reply with
  | error e =>
    rw [houtcome.eq_of_error]
    exact hm
  | ok stat =>
    have hperform := houtcome.perform_eq_ok fun _ _ h => by cases h
    rw [Call.machine_perform_of_looks (by trivial) hperform]
    exact hm

namespace Writing

variable {path : Path} {options : Options} {created perm : UInt32} {data : Bytes}

/-- Sets the permissions of the new file unless it has them. -/
def adjustPerm (temp : Path) (created perm : UInt32) : Routine Unit :=
  if perm ≠ created then Posix.platform.chmod temp perm else pure ()

theorem publish_eq (temp : Path) :
    publish Posix.platform temp path options created =
      finalPerm Posix.platform path options created >>= fun perm =>
        adjustPerm temp created perm >>= fun _ => Posix.platform.rename temp path := by
  unfold publish adjustPerm
  refine congrArg _ (funext fun perm => ?_)
  by_cases h : perm = created
  · simp only [ne_eq, h]
    rfl
  · simp only [ne_eq, h]
    rfl

theorem uses_adjustPerm : Routine.Uses s.Concerns (adjustPerm s.path created perm) := by
  unfold adjustPerm
  split
  · exact Routine.uses_bind Routine.uses_checkNul fun _ => Routine.uses_call rfl
  · exact Routine.uses_pure _

/-- Afterwards the new file has the permissions that the process may give it. -/
theorem adjustPerm_ok (hat : s.At data created m)
    (hrun : Routine.Runs fails (adjustPerm s.path created perm) m events (.ok ()) m') :
    s.At data (s.start.adjusted (s.node data created) perm) m' ∧ m'.process = m.process
      ∧ ∀ e ∈ events, ∃ perm, e.call = .chmod s.path perm := by
  unfold Machine.adjusted
  rw [Stage.node_perm]
  unfold adjustPerm at hrun
  by_cases hsame : perm = created
  · rw [if_neg fun hother => hother hsame] at hrun
    obtain ⟨rfl, -, rfl⟩ := Routine.runs_pure_iff.1 hrun
    rw [if_pos hsame, hsame]
    exact ⟨hat, rfl, fun e he => by cases he⟩
  · rw [if_pos hsame] at hrun
    obtain ⟨first, rest, between, _, rfl, hnul, hcall⟩ := hrun.bind_ok
    obtain ⟨-, rfl, rfl⟩ := hnul.checkNul_ok
    obtain ⟨houtcome, rfl⟩ := hcall.call_ok
    have hchmod := hat.chmod (houtcome.perform_eq_ok fun _ _ h => by cases h)
    rw [Machine.granted_and_permMask] at hchmod
    rw [if_neg hsame]
    refine ⟨hchmod, houtcome.process, fun e he => ?_⟩
    obtain rfl := List.mem_singleton.1 he
    exact ⟨_, rfl⟩

/-! ## The permissions in the end -/

end Writing

namespace Machine

/-- The permissions that an atomic write leaves, given the directory of the new file, those kept of
the destination, and the bytes: the options choose them for the file as it was made and written. -/
def settledPerm (m : Machine) (dir : InodeId) (options : Options) (kept : Option UInt32)
    (data : Bytes) : UInt32 :=
  let asked := m.masked (options.defaultFileMode.getD Writing.tempPerm)
  let written := m.newInode dir (.file data) (m.permAfter data asked)
  m.adjusted written (options.chosenPerm kept m.umask written.perm)

variable {m m' : Machine} {dir : InodeId}

/-- Other entries of its directory make no difference to a new file. -/
theorem newInode_congr (hwho : m'.who = m.who)
    (hdir : ∃ f, m'.tree.inode? dir = (m.tree.inode? dir).map (Inode.mapEntries f)) :
    m'.newInode dir = m.newInode dir := by
  obtain ⟨f, hf⟩ := hdir
  funext content perm
  rw [newInode, hf, hwho, newInode]
  cases m.tree.inode? dir <;> simp

/-- The permissions that are left depend on the process and on the directory, and not on its
entries. -/
theorem settledPerm_congr (hwho : m'.who = m.who) (hmask : m'.mask = m.mask)
    (humask : m'.umask = m.umask)
    (hdir : ∃ f, m'.tree.inode? dir = (m.tree.inode? dir).map (Inode.mapEntries f)) :
    m'.settledPerm dir = m.settledPerm dir := by
  have hadjusted : m'.adjusted = m.adjusted := by
    funext node perm
    rw [adjusted, granted, hwho, adjusted, granted]
  have hwritten : m'.permAfter = m.permAfter := by
    funext data perm
    rw [permAfter, hwho, permAfter]
  funext options kept data
  rw [settledPerm, masked, hmask, humask, hadjusted, hwritten, newInode_congr hwho hdir,
    settledPerm, masked]

theorem Asked.umask (h : m.Asked m') : m'.umask = m.umask := by
  rw [Machine.umask, h.rememberedMask, h.mask, Machine.umask]

theorem Asked.settledPerm (h : m.Asked m') (dir : InodeId) :
    m'.settledPerm dir = m.settledPerm dir := by
  refine settledPerm_congr h.who h.mask h.umask ?_
  rw [h.tree]
  exact Inode.exists_eq_map_mapEntries _

end Machine

namespace Writing

variable {path : Path} {options : Options} {created perm : UInt32} {data : Bytes}

/-! ## The parts of a run -/

/-- What has happened when the new file is made. -/
structure Begun (m : Machine) (path : Path) (options : Options) (s : Stage) (opening : List Event)
    (made : Machine) : Prop where
  asked : m.Asked s.start
  mayOpen : m.mayOpen = true
  /-- It lies beside the destination, under a drawn name. -/
  first : FirstFree m path.parentDir (options.defaultFileMode.getD tempPerm) tempAttempts opening
    s.path
  noNul : s.path.hasNul = false
  empty : s.At [] (m.masked (options.defaultFileMode.getD tempPerm)) made
  process : made.process = s.start.process
  opens : ∀ e ∈ opening, e.Opens ∧ (e.after.tree = m.tree ∨ e.after = made)
  /-- Opening it is the last of the calls, and the first that changes anything. -/
  makes : ∃ first file before, opening = first
        ++ [⟨.openFile s.path .making (options.defaultFileMode.getD tempPerm), .ok file, before,
          made⟩]
      ∧ ∀ e ∈ first, e.after.tree = m.tree

theorem Begun.name {opening : List Event} {made : Machine}
    (h : Begun m path options s opening made) :
    ∃ k, s.path = path.parentDir.join (m.tempName k) := by
  obtain ⟨k, -, hpath, -⟩ := h.first
  exact ⟨m.drawn + k, hpath⟩

/-- What has happened when the new file is ready to be moved to its place: everything was written,
then brought to the device, then the file was closed; then the destination may have been looked at,
and the permissions were set. -/
structure Preparation (fails : Call → Errno → Prop) (m : Machine) (path : Path) (reader : Reader)
    (options : Options) (s : Stage) (ready : Machine) where
  writes : List Event
  written : Machine
  stat : Stat
  closed : Except Errno Unit
  checked : Machine
  looked : List Event
  kept : Option UInt32
  adjusting : List Event
  perm : UInt32
  appends : ∀ e ∈ writes, e.Writes s.file
  full : ∃ perm, s.At reader.delivered perm written
  isOpen : (written.file? s.file).isSome = true
  /-- A signal that comes while the file is closed does not keep it open. -/
  closes : closed = .ok () ∨ closed = .error .interrupted
  atLook : ∃ perm, s.At reader.delivered perm checked
  look : Looked fails path options checked looked kept
  adjusts : ∀ e ∈ adjusting, ∃ perm, e.call = .chmod s.path perm
  atEnd : s.At reader.delivered perm ready
  honours : s.start.Honours (s.node reader.delivered perm)
    (options.finalPerm kept m.umask m.mask)
  settled : perm = m.settledPerm s.dir options kept reader.delivered
  process : m.process.Agrees ready.process

/-- The events in which a file is prepared. -/
def Preparation.steps {reader : Reader} {ready : Machine}
    (p : Preparation fails m path reader options s ready) : List Event :=
  p.writes ++ (⟨.sync s.file, .ok (), p.written, p.written⟩
    :: ⟨.statOpen s.file, .ok p.stat, p.written, p.written⟩
    :: ⟨.close s.file, p.closed, p.written, p.checked⟩ :: (p.looked ++ p.adjusting))

/-- The four courses of an atomic write, with their events, outcomes and last machines. -/
inductive Course (fails : Call → Errno → Prop) (m : Machine) (path : Path) (reader : Reader)
    (options : Options) : List Event → Except Error Unit → Machine → Prop where
  /-- No file is made. -/
  | unmade {events : List Event} {e : Error} {m' : Machine} (htree : m'.tree = m.tree)
      (hevents : ∀ e ∈ events, e.Opens ∧ e.after.tree = m.tree) :
      Course fails m path reader options events (.error e) m'
  /-- A file is made, but it does not get ready. -/
  | abandoned {s : Stage} {opening working : List Event} {made between m' : Machine} {e : Error}
      {reply : Except Errno Unit} (hbegun : Begun m path options s opening made)
      (hworking : ∀ e ∈ working, s.Concerns e.call ∧ s.Holds e.before ∧ s.Holds e.after)
      (hbetween : s.Holds between)
      (hremoval : (Call.unlink s.path).Outcome fails between reply m') :
      Course fails m path reader options
        (opening ++ (working ++ [⟨.unlink s.path, reply, between, m'⟩])) (.error e) m'
  /-- The file is ready, but it cannot be moved. -/
  | refused {s : Stage} {opening : List Event} {made ready m' : Machine} {e : Error} {errno : Errno}
      {reply : Except Errno Unit} (hbegun : Begun m path options s opening made)
      (p : Preparation fails m path reader options s ready)
      (hworking : ∀ e ∈ p.steps, s.Concerns e.call ∧ s.Holds e.before ∧ s.Holds e.after)
      (hrename : (Call.rename s.path path).Outcome fails ready (.error errno) ready)
      (hremoval : (Call.unlink s.path).Outcome fails ready reply m') :
      Course fails m path reader options
        (opening ++ (p.steps ++ [⟨.rename s.path path, .error errno, ready, ready⟩,
          ⟨.unlink s.path, reply, ready, m'⟩])) (.error e) m'
  /-- The file is moved to its place. -/
  | published {s : Stage} {opening : List Event} {made ready m' : Machine}
      (hbegun : Begun m path options s opening made)
      (p : Preparation fails m path reader options s ready)
      (hworking : ∀ e ∈ p.steps, s.Concerns e.call ∧ s.Holds e.before ∧ s.Holds e.after)
      (hrename : ready.rename s.path path = .ok ((), m')) :
      Course fails m path reader options
        (opening ++ (p.steps ++ [⟨.rename s.path path, .ok (), ready, m'⟩])) (.ok ()) m'

/-! ## From runs to courses -/

/-- Filling, choosing and setting permissions that all succeed are a preparation. -/
theorem exists_preparation {reader : Reader} {opening filling choosing adjusting : List Event}
    {made checked chosen ready : Machine}
    (hquiet : reader.IsQuiet) (hbegun : Begun m path options s opening made)
    (hfill : Routine.Runs fails (fill Posix.platform s.writer reader) made filling (.ok created)
      checked)
    (hchoose : Routine.Runs fails (finalPerm Posix.platform path options created) checked choosing
      (.ok perm) chosen)
    (hadjust : Routine.Runs fails (adjustPerm s.path created perm) chosen adjusting (.ok ())
      ready) :
    ∃ p : Preparation fails m path reader options s ready,
      p.steps = filling ++ (choosing ++ adjusting) := by
  obtain ⟨writes, written, stat, closed, rfl, happended, hstat, hclose, hclosed, hcreated⟩ :=
    fill_ok hquiet hfill
  have hwritten := happended.at_end hbegun.empty
  have htrimmed := Trimmed.permAfter s.start reader.delivered
    (m.masked (options.defaultFileMode.getD tempPerm))
  obtain ⟨hopen, hperm⟩ := hwritten.statOpen hstat
  have hsame := htrimmed.and_permMask (m.masked_and_permMask _)
  obtain rfl : created = s.start.permAfter reader.delivered
      (m.masked (options.defaultFileMode.getD tempPerm)) := by rw [hcreated, hperm, hsame]
  have hchecked := hwritten.of_close hclose
  have hchosen := hchecked.of_finalPerm hchoose
  obtain ⟨kept, hlooked, rfl, hagrees⟩ := finalPerm_ok hchoose
  obtain ⟨hready, hadjusted, hadjusts⟩ := adjustPerm_ok hchosen hadjust
  have hprocess : checked.process = s.start.process :=
    (hclose.process.trans happended.process).trans hbegun.process
  have humask : checked.umask = m.umask :=
    (Machine.umask_eq_of_process hprocess).trans hbegun.asked.umask
  have hmayOpen : checked.mayOpen = true :=
    (congrArg Process.mayOpen hprocess).trans (hbegun.asked.mayOpen.trans hbegun.mayOpen)
  rw [humask] at hready
  refine ⟨⟨writes, written, stat, closed, checked, choosing, kept, adjusting, _,
    happended.writes, ⟨_, hwritten⟩, hopen, hclosed, ⟨_, hchecked⟩, hlooked, hadjusts,
    hready, ?_, ?_, ?_⟩, ?_⟩
  · rw [← chosenPerm_eq_finalPerm hlooked htrimmed]
    refine .of_adjusted ?_ ?_ Stage.node_perm
    · rfl
    · rw [Stage.node_perm, hsame]
  · rw [← hbegun.asked.settledPerm, Machine.settledPerm, hbegun.asked.masked, hbegun.asked.umask,
      Machine.newInode_file_perm]
    rfl
  · exact ((hbegun.asked.process.trans (.of_eq hprocess)).trans (hagrees hmayOpen)).trans
      (.of_eq hadjusted)
  · simp [Preparation.steps]

/-- Filling and publishing either do not get to the renaming, or they prepare the file and rename
it. -/
theorem working_runs {reader : Reader} {opening : List Event} {made : Machine}
    {outcome : Except Error Unit} (hquiet : reader.IsQuiet)
    (hbegun : Begun m path options s opening made)
    (hrun : Routine.Runs fails (do
      let created ← fill Posix.platform s.writer reader
      publish Posix.platform s.path path options created) made events outcome m') :
    ((∃ e, outcome = .error e) ∧ s.Holds m'
        ∧ ∀ e ∈ events, s.Concerns e.call ∧ s.Holds e.before ∧ s.Holds e.after)
      ∨ ∃ ready reply, ∃ p : Preparation fails m path reader options s ready,
          (∀ e ∈ p.steps, s.Concerns e.call ∧ s.Holds e.before ∧ s.Holds e.after)
          ∧ (Call.rename s.path path).Outcome fails ready reply m'
          ∧ events = p.steps ++ [⟨.rename s.path path, reply, ready, m'⟩]
          ∧ outcome = reply.mapError (.ofErrno .rename path) := by
  have hmade : s.Holds made := ⟨_, _, hbegun.empty⟩
  rcases Routine.runs_bind_iff.1 hrun with
    ⟨e, rfl, hfill⟩ | ⟨filling, rest, checked, created, rfl, hfill, hpublish⟩
  · exact Or.inl ⟨⟨e, rfl⟩, hmade.of_runs (uses_fill_concerns hquiet) hfill⟩
  obtain ⟨hchecked, hfilling⟩ := hmade.of_runs (uses_fill_concerns hquiet) hfill
  have hlooks : Routine.Uses s.Concerns (finalPerm Posix.platform path options created) := by
    refine Program.Uses.mono uses_finalPerm ?_
    rintro c rfl
    trivial
  rw [publish_eq] at hpublish
  rcases Routine.runs_bind_iff.1 hpublish with
    ⟨e, rfl, hchoose⟩ | ⟨choosing, rest, chosen, perm, rfl, hchoose, hrest⟩
  · obtain ⟨hend, hchoosing⟩ := hchecked.of_runs hlooks hchoose
    exact Or.inl ⟨⟨e, rfl⟩, hend, fun e he =>
      (List.mem_append.1 he).elim (hfilling e) (hchoosing e)⟩
  obtain ⟨hchosen, hchoosing⟩ := hchecked.of_runs hlooks hchoose
  rcases Routine.runs_bind_iff.1 hrest with
    ⟨e, rfl, hadjust⟩ | ⟨adjusting, last, ready, _, rfl, hadjust, hrename⟩
  · obtain ⟨hend, hadjusting⟩ := hchosen.of_runs uses_adjustPerm hadjust
    exact Or.inl ⟨⟨e, rfl⟩, hend, fun e he => (List.mem_append.1 he).elim (hfilling e) fun he =>
      (List.mem_append.1 he).elim (hchoosing e) (hadjusting e)⟩
  obtain ⟨hready, hadjusting⟩ := hchosen.of_runs uses_adjustPerm hadjust
  have hworking : ∀ e ∈ filling ++ (choosing ++ adjusting),
      s.Concerns e.call ∧ s.Holds e.before ∧ s.Holds e.after := fun e he =>
    (List.mem_append.1 he).elim (hfilling e) fun he =>
      (List.mem_append.1 he).elim (hchoosing e) (hadjusting e)
  rcases Posix.rename_runs hrename with ⟨rfl, rfl, he⟩ | ⟨reply, houtcome, rfl, rfl⟩
  · rw [List.append_nil]
    exact Or.inl ⟨he, hready, hworking⟩
  · obtain ⟨p, hsteps⟩ := exists_preparation hquiet hbegun hfill hchoose hadjust
    rw [← hsteps] at hworking
    refine Or.inr ⟨ready, reply, p, hworking, houtcome, ?_, rfl⟩
    rw [hsteps]
    simp

/-- Making a new file, where it succeeds, is the beginning of a course. -/
theorem begun_of_createNamed {made : Machine} {temp : Path × Writer}
    (hmake : Routine.Runs fails
      (createNamed Posix.platform path.parentDir (options.defaultFileMode.getD tempPerm)
        options.flags drawName tempAttempts) m events (.ok temp) made) :
    ∃ s : Stage, temp = (s.path, s.writer) ∧ Begun m path options s events made := by
  rcases createNamed_runs hmake with
    ⟨⟨_, h⟩, -⟩ | ⟨s, hasked, hname, hnul, h, hat, hprocess, hopens⟩
  · cases h
  cases h
  obtain ⟨hmayOpen, hfirst⟩ := firstFree_of_createNamed hmake
  obtain ⟨first, file, before, -, -, hlast, hunchanged⟩ := openFile_of_createNamed hmake
  exact ⟨s, rfl, hasked, hmayOpen, hfirst, hnul, hat, hprocess, hopens, first, file, before, hlast,
    fun e he => (hunchanged e he).2⟩

/-- Every run takes one of the four courses. -/
theorem course_of_runs {reader : Reader} {outcome : Except Error Unit} (hquiet : reader.IsQuiet)
    (hrun : Routine.Runs fails (atomicFromReader Posix.platform path reader options) m events
      outcome m') : Course fails m path reader options events outcome m' := by
  unfold atomicFromReader at hrun
  split at hrun
  · obtain ⟨rfl, rfl, rfl⟩ := Routine.runs_fail_iff.1 hrun
    exact .unmade rfl fun e he => by cases he
  rcases Routine.runs_bind_iff.1 hrun with
    ⟨e, rfl, hmake⟩ | ⟨opening, rest, made, temp, rfl, hmake, hrest⟩
  · rcases createNamed_runs hmake with ⟨-, htree, hevents⟩ | ⟨_, _, _, _, h, -⟩
    · exact .unmade htree hevents
    · cases h
  obtain ⟨s, rfl, hbegun⟩ := begun_of_createNamed hmake
  rcases Routine.runs_bind_iff.1 hrest with
    ⟨e, rfl, hcleaned⟩ | ⟨working, last, after, _, rfl, hcleaned, hlast⟩
  · rcases Routine.runs_withCleanup_iff.1 hcleaned with
      ⟨_, h, -⟩ | ⟨_, working, cleaning, between, h, rfl, hworking, hcleaning⟩
    · cases h
    cases h
    obtain ⟨removal, hremoval, rfl⟩ := Posix.removeFile_runs hbegun.noNul hcleaning
    rcases working_runs hquiet hbegun hworking with
      ⟨-, hbetween, hevents⟩ | ⟨ready, reply, p, hevents, hrename, rfl, houtcome⟩
    · exact .abandoned hbegun hevents hbetween hremoval
    · cases reply with
      | ok _ => cases houtcome
      | error errno =>
        obtain rfl := hrename.eq_of_error
        rw [List.append_assoc]
        exact .refused hbegun p hevents hrename hremoval
  · obtain ⟨rfl, rfl, rfl⟩ := Routine.runs_pure_iff.1 hlast
    rcases Routine.runs_withCleanup_iff.1 hcleaned with ⟨_, h, hworking⟩ | ⟨_, _, _, _, h, -⟩
    · rcases working_runs hquiet hbegun hworking with
        ⟨⟨_, h⟩, -⟩ | ⟨ready, reply, p, hevents, hrename, rfl, houtcome⟩
      · cases h
      · cases reply with
        | error errno => cases houtcome
        | ok _ =>
          rw [List.append_nil]
          exact .published hbegun p hevents (hrename.perform_eq_ok fun _ _ h => by cases h)
    · cases h

end Writing

end PortableFiles
