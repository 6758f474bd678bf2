import PortableFiles.Proofs.Writing.Beside
set_option autoImplicit false

/-!
# Atomic writes that succeed

After an atomic write that succeeds the destination is a new file with all the bytes of the reader
and the permissions that the options ask for, and nothing else is different
(`AtomicWrite.replaces_of_ok`).
-/

namespace PortableFiles

variable {fails : Call → Errno → Prop} {m m' : Machine} {events : List Event}

namespace Writing

variable {path : Path} {options : Options}

/-- What comes out is what the destination shows asks for, unless the look at it failed as if
nothing were there. -/
theorem Looked.exists_found {looked : List Event} {kept shown : Option UInt32}
    (h : Looked fails path options m looked kept)
    (hshown : options.keepFileMode = true → m.permAt path = shown) (umask mask : UInt32) :
    ∃ found, (found = shown ∨ (found = none ∧ fails (.stat path true) .noEntry))
      ∧ options.finalPerm kept umask mask = options.finalPerm found umask mask := by
  cases h with
  | spared hspared =>
    refine ⟨shown, Or.inl rfl, ?_⟩
    unfold Options.finalPerm
    rcases hspared with hmode | hkeep
    · obtain ⟨mode, hmode⟩ := Option.isSome_iff_exists.1 hmode
      simp [hmode]
    · simp [hkeep]
  | found hkeep hstat =>
    refine ⟨_, Or.inl ?_, rfl⟩
    rw [← hshown hkeep.2, Machine.permAt, hstat]
  | missing hkeep houtcome =>
    cases houtcome with
    | refused hperform =>
      refine ⟨_, Or.inl ?_, rfl⟩
      have hstat : m.stat path true = .error .noEntry := hperform
      rw [← hshown hkeep.2, Machine.permAt, hstat]
    | failed hfails => exact ⟨none, Or.inr ⟨rfl, hfails⟩, rfl⟩

end Writing

namespace AtomicWrite

/-- After an atomic write that succeeds the destination leads to a new file, which holds all that
the reader delivers.  It has the permissions that come out for what the destination showed before:
exactly these where the process may give them, and elsewhere these or what is left of them without
the bit that lends the group's rights.  Every other name and inode is as it was.  Of the flags only
the one for writing through counts. -/
theorem replaces_of_ok {w : AtomicWrite} (hm : m.WellFormed) (hquiet : w.reader.IsQuiet)
    (hdraws : w.options.keepFileMode = true → m.NeverDraws (fun _ => true) w.path)
    (hrun : Routine.Runs fails w.routine m events (.ok ()) m') :
    (∃ dir name node found, m.locate (fun _ => false) w.path = .ok (.entry dir name false)
        ∧ m.tree.Replaced dir name node m'.tree
        ∧ (found = m.permAt w.path ∨ (found = none ∧ fails (.stat w.path true) .noEntry))
        ∧ w.Leaves m found node
        ∧ (m.MayGive node (w.effective.finalPerm found m.umask m.mask) →
            node.perm = w.effective.finalPerm found m.umask m.mask))
      ∧ ∀ flags : OpenFlags, flags.only .sync = w.options.flags.only .sync →
          { w with options := { w.options with flags := flags } }.routine = w.routine := by
  refine ⟨?_, fun flags hflags => w.routine_of_flags hflags⟩
  rw [routine_eq] at hrun
  cases Writing.course_of_runs hquiet hrun with
  | published hbegun p hworking hrename =>
    obtain ⟨dir, name, hplace, hreplaced⟩ := hbegun.replaced hm p.atEnd hrename
    obtain ⟨perm, hat⟩ := p.atLook
    obtain ⟨found, hfound, hperm⟩ := p.look.exists_found
      (fun hkeep => hbegun.permAt_eq hm (hdraws hkeep) hat) m.umask m.mask
    obtain ⟨hcontent, hhonours⟩ := p.leaves hbegun
    rw [hperm] at hhonours
    exact ⟨dir, name, _, found, hplace, hreplaced, hfound, ⟨hcontent, hhonours⟩, hhonours.perm_eq⟩

/-- The small system with a file that a write can replace. -/
def stocked : Machine := (Machine.small fun _ => 7).create 9 [97] (.file [111, 108, 100]) 0o640

/-- A general write that keeps permissions, over that file. -/
def overStock : AtomicWrite where
  path := ⟨[97]⟩
  reader := [.bytes [110, 101, 119]]
  options := { Options.plain with keepFileMode := true }
  mode := some 0o666

/-- A write over a file with permissions of its own leaves them to the new file. -/
theorem replaces_stock : ∃ dir name node,
    stocked.tree.Replaced dir name node (overStock.routine.run stocked).2.tree
      ∧ node.content = .file [110, 101, 119] ∧ node.perm = 0o640 := by
  have hplace : stocked.locate (fun _ => true) overStock.path = .ok (.entry 9 [97] false) := rfl
  have hheld : stocked.tree.child? 9 [97] = some 33 := rfl
  have hpermAt : stocked.permAt overStock.path = some 0o640 := by decide +kernel
  have hm : stocked.WellFormed :=
    ⟨Tree.wellFormed_of_isWellFormed (by decide +kernel), by decide +kernel⟩
  have hquiet : overStock.reader.IsQuiet := by
    intro others h
    simp [overStock] at h
  have hdraws : stocked.NeverDraws (fun _ => true) overStock.path := by
    intro k dir name slash h hfree
    rw [hplace] at h
    cases h
    rw [hheld] at hfree
    cases hfree
  have hruns := Program.runs_run (fun _ _ => False) overStock.routine.outcome stocked
  have hisOk : (overStock.routine.outcome.run stocked).1.isOk = true := by decide +kernel
  have hok : (overStock.routine.outcome.run stocked).1 = .ok () := by
    cases h : (overStock.routine.outcome.run stocked).1 with
    | ok _ => rfl
    | error e =>
      rw [h] at hisOk
      cases hisOk
  rw [hok] at hruns
  obtain ⟨⟨dir, name, node, found, -, hreplaced, hfound, hleaves, hexact⟩, -⟩ :=
    replaces_of_ok hm hquiet (fun _ => hdraws) hruns
  refine ⟨dir, name, node, hreplaced, hleaves.content, ?_⟩
  rw [hpermAt] at hfound
  obtain rfl := hfound.resolve_right fun h => h.2
  exact hexact (Or.inr (Or.inr (by decide +kernel)))

/-- The small system for a member of another group, in a directory that passes its group on to the
files in it. -/
def passingOn : Machine :=
  { Machine.small fun _ => 7 with
    tree := Machine.smallTree.updateInode 9 fun node => { node with perm := 0o2755 }
    who := ⟨0, 100, false⟩ }

/-- A write that asks for a file which lends its group's rights. -/
def lending : AtomicWrite where
  path := ⟨[97]⟩
  reader := [.bytes [110, 101, 119]]
  options := { Options.plain with fileMode := some 0o2755 }
  mode := none

/-- A write whose new file somebody else opens to all, while the reader delivers. -/
def meddledWith : AtomicWrite where
  path := ⟨[97]⟩
  reader := [.bytes [110], .meanwhile (.call (.chmod ⟨[55]⟩ 0o644) false fun _ => .done ()),
    .bytes [119]]
  options := Options.plain
  mode := none

/-- Such a write succeeds in a directory of another group, and its file does not lend the group's
rights.  Where somebody else sets the permissions of the new file, they stay as well. -/
theorem replaces_passingOn :
    (lending.routine.run passingOn).1.isOk = true
      ∧ lending.effective.finalPerm none passingOn.umask passingOn.mask = 0o2755
      ∧ (lending.routine.run passingOn).2.permAt lending.path = some 0o755
      ∧ (meddledWith.routine.run (Machine.small fun _ => 7)).1.isOk = true
      ∧ meddledWith.effective.finalPerm none 0o022 0o022 = 0o600
      ∧ (meddledWith.routine.run (Machine.small fun _ => 7)).2.permAt meddledWith.path
        = some 0o644 := by
  decide +kernel

end AtomicWrite

end PortableFiles
