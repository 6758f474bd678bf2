import Mathlib.Data.Nat.Find
import PortableFiles.Proofs.Writing.AtomicSuccess
set_option autoImplicit false

/-!
# Writes to a path that is free

Where the destination does not exist yet and there is room for it, a write in place and an atomic
write both succeed, and both leave one new file with all the bytes (`Writing.fresh_path`).  They do
not choose its permissions alike.  An atomic write heeds all that the options say of the
permissions of a new file.  A write in place passes over the permissions for new files.
-/

namespace PortableFiles

/-- The permissions of a new file by the options: those for every file, else those for new files
without the bits of the mask, else the ones that the caller gives, without the bits of the mask. -/
def Options.newPerm (o : Options) (mode mask : UInt32) : UInt32 :=
  (o.fileMode.or (o.defaultFileMode.map (· &&& (mask ^^^ 0xFFFFFFFF)))).getD
    (mode &&& (mask ^^^ 0xFFFFFFFF))

namespace Machine

variable {m : Machine} {path : Path} {dir : InodeId} {name n : Name}

/-- Whether a routine succeeds and leaves a new file with the given bytes under a name, which has
the given permissions as far as nothing can take them away.  No other name leads to another
file. -/
def Leaves (m : Machine) (t : Routine Unit) (dir : InodeId) (name : Name) (data : Bytes)
    (perm : UInt32) : Prop :=
  ∃ node m', t.run m = (.ok (), m') ∧ m.tree.Replaced dir name node m'.tree
    ∧ node.content = .file data ∧ node.perm &&& m.sureBits = perm &&& m.sureBits

/-- What a routine leaves is determined. -/
theorem Leaves.perm_eq {t : Routine Unit} {data data' : Bytes} {perm perm' : UInt32}
    (h : m.Leaves t dir name data perm)
    (h' : m.Leaves t dir name data' perm') : perm &&& m.sureBits = perm' &&& m.sureBits := by
  obtain ⟨node, after, hrun, hreplaced, -, hperm⟩ := h
  obtain ⟨node', after', hrun', hreplaced', -, hperm'⟩ := h'
  rw [hrun] at hrun'
  cases hrun'
  have hnode := hreplaced.inode.symm.trans hreplaced'.inode
  cases hnode
  exact hperm.symm.trans hperm'

theorem masked_and_sureBits (m : Machine) (perm : UInt32) :
    m.masked perm &&& m.sureBits = perm &&& (m.mask ^^^ 0xFFFFFFFF) &&& m.sureBits := by
  rw [masked, UInt32.and_assoc perm, UInt32.and_comm permMask, ← UInt32.and_assoc,
    UInt32.and_assoc _ permMask, permMask_and_sureBits]

end Machine

namespace Machine.Room

open Routine (Yields)

variable {m : Machine} {path : Path} {dir : InodeId} {name : Name}

/-! ## In place -/

/-- The file is filled, gets the permissions for every file, and is closed. -/
theorem yields_filling {s : Stage} (hnul : s.path.hasNul = false) {reader : Reader}
    (hquiet : reader.IsQuiet) (hends : reader.Ends) (given : Option UInt32) (bits : UInt32) :
    Yields (s.Filled [] bits)
      (Routine.withCleanup (Posix.platform.abandon s.writer) (do
          let _ ← reader.copyTo s.path (Routine.writeAll s.path s.file)
          match given with
          | some mode => Posix.platform.chmod s.path mode
          | none => pure ()) >>= fun _ => Posix.close s.writer >>= fun _ => pure ())
      fun _ => s.Settled reader.delivered (given.getD bits) := by
  have hcopy : Yields (s.Filled [] bits) (reader.copyTo s.path (Routine.writeAll s.path s.file))
      fun _ => s.Filled reader.delivered bits := Stage.yields_copyTo hquiet hends
  refine (Yields.withCleanup (hcopy.bind fun _ => ?_)).bind fun _ =>
    Stage.yields_close.bind fun _ => .pure fun _ h => h
  cases given with
  | some mode => exact Stage.yields_chmod hnul mode
  | none => exact .pure fun _ h => h

/-- A write in place makes the file, fills it and gives it the permissions for every file. -/
theorem yields_inPlace (h : m.Room path dir name) (hopen : m.mayOpen = true)
    (hnul : path.hasNul = false) {reader : Reader} (hquiet : reader.IsQuiet) (hends : reader.Ends)
    {options : Options} (hflags : ∀ f, options.flags.has f = true → f = .sync) (mode : UInt32) :
    Yields (fun m' => m' = m)
      (Writing.fromReader Posix.platform path reader mode { options with atomically := false })
      fun _ => h.stage.Settled reader.delivered
        ({ options with defaultFileMode := none }.newPerm mode m.mask) := by
  have hnot : ∀ f : OpenFlag, f ≠ .sync → options.flags.has f = false := fun f hf =>
    Bool.eq_false_iff.2 fun hhas => hf (hflags f hhas)
  have hhow : Posix.howFor options.flags = .replacing := by
    rw [Posix.howFor, hnot .append (by decide), hnot .exclusive (by decide)]
    rfl
  have hmaking : Yields (fun m' => m' = m)
      (Posix.openWriter .openFile path .replacing (mode &&& permMask) options.flags) fun w m' =>
        w = h.stage.writer ∧ h.stage.Open [] (m.masked (mode &&& permMask)) m' :=
    h.yields_openWriter hopen hnul .replacing rfl rfl rfl rfl (hnot _ (by decide)) _
  have hperm : m.masked (mode &&& permMask) &&& m.sureBits
      = mode &&& (m.mask ^^^ 0xFFFFFFFF) &&& m.sureBits := by
    rw [Machine.masked_permMask, Machine.masked_and_sureBits]
  have hwriting := yields_filling (s := h.stage) hnul hquiet hends options.fileMode
    (mode &&& (m.mask ^^^ 0xFFFFFFFF))
  unfold Writing.fromReader
  rw [if_neg Bool.false_ne_true, isEmpty_of_locate h.located, if_neg Bool.false_ne_true]
  refine (Yields.pure (Q := fun _ m' => m' = m) fun _ h => h).bind fun _ => ?_
  change Yields _ (Posix.openWriter _ _ (Posix.howFor options.flags) _ _ >>= _) _
  rw [hhow]
  refine hmaking.bind ?_
  rintro w m' ⟨rfl, hmade⟩
  have hgiven : ({ options with defaultFileMode := none } : Options).newPerm mode m.mask
      = options.fileMode.getD (mode &&& (m.mask ^^^ 0xFFFFFFFF)) := by
    rw [Options.newPerm, Option.map_none, Option.or_none]
  rw [hgiven]
  exact hwriting m' ⟨_, hperm, hmade⟩

/-- A file that is made where there is room leaves everything else as it was. -/
theorem leaves_of_yields (h : m.Room path dir name) {t : Routine Unit} {data : Bytes}
    {bits : UInt32} (ht : Yields (fun m' => m' = m) t fun _ => h.stage.Settled data bits) :
    m.Leaves t dir name data bits := by
  obtain ⟨_, m', hrun, perm, hperm, hat⟩ := ht m rfl
  refine ⟨h.stage.node data perm, m', hrun, ?_, Stage.node_content, ?_⟩
  · exact .of_addEntry h.vacant.isDirectory Stage.node_content hat.tree
  · rw [Stage.node_perm]
    exact hperm

end Machine.Room

/-! ## Beside the destination -/

/-- Where a directory is short enough, has room for one name, and does not hold one of the next
drawn names, the first of them that it does not hold is found. -/
theorem Machine.Room.findsName {m : Machine} {path : Path} {dir : InodeId} {name : Name}
    (h : m.Room path dir name) (hshort : path.parentDir.bytes.length + 11 < Tree.maxPath)
    {attempts k : Nat} (hk : k < attempts)
    (hfree : m.tree.child? dir (m.tempName (m.drawn + k)) = none) :
    m.FindsName path.parentDir attempts := by
  have hexists : ∃ k, m.tree.child? dir (m.tempName (m.drawn + k)) = none := ⟨k, hfree⟩
  have hfirst := Nat.find_spec hexists
  have hbefore : Nat.find hexists < attempts :=
    Nat.lt_of_le_of_lt (Nat.find_min' hexists hfree) hk
  refine Machine.findsName_of_child? h.located hbefore ?_
    (Machine.vacant_drawn h.vacant _ hfirst)
    fun j hj => Option.ne_none_iff_exists'.1 (Nat.find_min hexists hj)
  intro j hj
  have hlength := m.length_tempName_le (m.drawn + j)
  have hjoined := path.parentDir.length_join_le (m.tempName (m.drawn + j))
  omega

/-- A file that is prepared beside a free path under another name can be moved there. -/
theorem Machine.Room.publishes {m : Machine} {path : Path} {dir : InodeId} {name : Name}
    (h : m.Room path dir name) {s : Stage} (hasked : m.Asked s.start) (hdir : s.dir = dir)
    (hother : name ≠ s.name) : s.Publishes path := by
  have hroom : s.start.Room path s.dir name := by
    rw [hdir]
    exact h.of_asked hasked
  constructor
  · rintro now ⟨data, perm, hat⟩
    exact Or.inr ((hat.room hroom hother).stat_eq true)
  · rintro now ⟨data, perm, hat⟩
    exact hat.rename_eq_ok hroom hother

namespace Writing

open Routine (Yields)

variable {m : Machine} {path : Path} {dir : InodeId} {name : Name}

/-- Where nothing was at the destination, the look at it keeps no permissions. -/
theorem Looked.kept_eq_none {fails : Call → Errno → Prop} {events : List Event}
    {options : Options} {kept : Option UInt32} (h : Looked fails path options m events kept)
    (hmissing : m.stat path true = .error .noEntry) : kept = none := by
  cases h with
  | found _ hstat =>
    rw [hmissing] at hstat
    cases hstat
  | _ => rfl

/-- An atomic write to a free path leaves a file with all the bytes. -/
theorem leaves_atomic (h : m.Room path dir name) (hm : m.WellFormed) (hopen : m.mayOpen = true)
    (hnul : path.hasNul = false) (hshort : path.parentDir.bytes.length + 11 < Tree.maxPath)
    (hdraws : ∀ k, m.tempName k ≠ name) {k : Nat} (hk : k < tempAttempts)
    (hfree : m.tree.child? dir (m.tempName (m.drawn + k)) = none)
    {reader : Reader} (hquiet : reader.IsQuiet) (hends : reader.Ends) (options : Options) :
    m.Leaves (atomicFromReader Posix.platform path reader options) dir name reader.delivered
      (options.finalPerm none m.umask m.mask) := by
  have hpublishes : ∀ s : Stage, m.Asked s.start → s.dir = dir → (∃ k, s.name = m.tempName k) →
      s.Publishes path := by
    rintro s hasked hdir ⟨k, hname⟩
    refine h.publishes hasked hdir ?_
    rw [hname]
    exact (hdraws k).symm
  obtain ⟨_, m', hrun, -⟩ := yields_atomic h.located h.allowed hopen hnul
    (h.findsName hshort hk hfree) hpublishes hquiet hends options m rfl
  have hruns := Program.runs_run (fun _ _ => False)
    (atomicFromReader Posix.platform path reader options).outcome m
  have hafter : (atomicFromReader Posix.platform path reader options).outcome.run m
      = (.ok (), m') := hrun
  rw [hafter] at hruns
  generalize (atomicFromReader Posix.platform path reader options).outcome.trace m = events at hruns
  cases course_of_runs hquiet hruns with
  | @published s opening made ready _ hbegun p hworking hrename =>
    obtain ⟨place, x, hplace, hreplaced⟩ := hbegun.replaced hm p.atEnd hrename
    rw [h.located] at hplace
    cases hplace
    obtain ⟨perm, hat⟩ := p.atLook
    have hdir : s.dir = dir := hbegun.dir_eq h.located
    obtain ⟨k, hname⟩ := hbegun.exists_name_eq
    have hother : name ≠ s.name := by
      rw [hname]
      exact (hdraws k).symm
    have hroom : s.start.Room path s.dir name := by
      rw [hdir]
      exact h.of_asked hbegun.asked
    have hkept := p.look.kept_eq_none ((hat.room hroom hother).stat_eq true)
    have hhonours : m.Honours (s.node reader.delivered p.perm)
        (options.finalPerm none m.umask m.mask) := by
      have hready := p.honours.of_who hbegun.asked.who
      rwa [hkept] at hready
    exact ⟨_, m', hrun, hreplaced, Stage.node_content, hhonours.and_sureBits⟩

/-- The permissions that an atomic write gives are those for a new file by its options. -/
theorem effective_finalPerm_and_sureBits (path : Path) (data : Bytes) (options : Options)
    (mode : UInt32) :
    (AtomicWrite.ofBytes path data options (some mode)).effective.finalPerm none m.umask m.mask
        &&& m.sureBits
      = options.newPerm mode m.umask &&& m.sureBits := by
  rw [Options.finalPerm, UInt32.and_assoc, Machine.permMask_and_sureBits, Options.newPerm, ite_self,
    Option.or_none]
  change ((options.fileMode.or ((options.defaultFileMode.or (some (mode &&& permMask))).map _)).getD
    _ &&& _) = _
  cases options.fileMode with
  | some given => rfl
  | none =>
    cases options.defaultFileMode with
    | some given => rfl
    | none =>
      change mode &&& permMask &&& (m.umask ^^^ 0xFFFFFFFF) &&& m.sureBits = _
      rw [UInt32.and_assoc mode, UInt32.and_comm permMask, ← UInt32.and_assoc mode,
        UInt32.and_assoc _ permMask, Machine.permMask_and_sureBits]
      rfl

/-- Both kinds of write to a free path succeed and leave one new file with all the bytes.  Written
in place, it has the permissions that the options give if those for new files are left out; an
atomic write heeds these as well.  So the two agree where the options have permissions for every
file, or none for new files. -/
theorem fresh_path (h : m.Room path dir name) (hm : m.WellFormed) (hopen : m.mayOpen = true)
    (hnul : path.hasNul = false) (hshort : path.parentDir.bytes.length + 11 < Tree.maxPath)
    (hdraws : ∀ k, m.tempName k ≠ name) {k : Nat} (hk : k < tempAttempts)
    (hfree : m.tree.child? dir (m.tempName (m.drawn + k)) = none) (data : Bytes) (mode : UInt32)
    {options : Options} (hflags : ∀ f, options.flags.has f = true → f = .sync) :
    m.Leaves (fromBytes Posix.platform path data mode { options with atomically := false })
        dir name data ({ options with defaultFileMode := none }.newPerm mode m.mask)
      ∧ m.Leaves (fromBytes Posix.platform path data mode { options with atomically := true })
        dir name data (options.newPerm mode m.umask)
      ∧ (options.fileMode.isSome = true ∨ options.defaultFileMode = none ∧ m.umask = m.mask →
        { options with defaultFileMode := none }.newPerm mode m.mask
          = options.newPerm mode m.umask) := by
  have hdelivered := AtomicWrite.delivered_ofBytes path data options (some mode)
  have hquiet := AtomicWrite.isQuiet_ofBytes path data options (some mode)
  have hends : (AtomicWrite.ofBytes path data options (some mode)).reader.Ends := Or.inr trivial
  refine ⟨?_, ?_, ?_⟩
  · have hplaced := h.leaves_of_yields (h.yields_inPlace hopen hnul hquiet hends hflags mode)
    rw [hdelivered] at hplaced
    exact hplaced
  · have hmoved := leaves_atomic h hm hopen hnul hshort hdraws hk hfree hquiet hends
      (AtomicWrite.ofBytes path data options (some mode)).effective
    have hroutine := (AtomicWrite.ofBytes path data options (some mode)).routine_eq
    rw [AtomicWrite.routine_ofBytes] at hroutine
    obtain ⟨node, m', hrun, hreplaced, hcontent, hperm⟩ := hmoved
    refine ⟨node, m', ?_, hreplaced, ?_, ?_⟩
    · exact (congrArg (Routine.run · m) hroutine).trans hrun
    · rw [hcontent, hdelivered]
    · rw [hperm, effective_finalPerm_and_sureBits]
  · rintro (hgiven | ⟨hnone, hmask⟩)
    · obtain ⟨given, hgiven⟩ := Option.isSome_iff_exists.1 hgiven
      rw [Options.newPerm, Options.newPerm, hgiven]
      rfl
    · rw [Options.newPerm, Options.newPerm, hnone, hmask]

/-- On the small system there is room in the working directory. -/
theorem room_small : (Machine.small fun _ => 7).Room ⟨[97]⟩ 9 [97] where
  located := rfl
  vacant := ⟨rfl, rfl⟩
  allowed := by
    have hlinked : Machine.smallTree.isLinked 9 = true := by decide +kernel
    have hfixed : (Machine.smallTree.inode? 9).any (·.fixed = .everything) = false := by
      decide +kernel
    have hmay : (Machine.small fun _ => 7).may 9 .write = true := by decide +kernel
    change (if !Machine.smallTree.isLinked 9 then _ else
      if (Machine.smallTree.inode? 9).any (·.fixed = .everything) then _ else _) = _
    rw [hlinked, hfixed, hmay]
    rfl

theorem tempName_small (k : Nat) : (Machine.small fun _ => 7).tempName k ≠ [97] := by
  change Bytes.ofString (Text.Numeral.decimalString 7) ≠ [97]
  decide +kernel

/-- Options with permissions for new files. -/
def guarded : Options := Options.plain.withDefaultFileMode 0o600

theorem flags_guarded (f : OpenFlag) (hf : guarded.flags.has f = true) : f = .sync := by
  cases f with
  | sync => rfl
  | _ => exact absurd hf (by decide)

/-- A file that is written atomically gets the permissions for new files, and one that is written in
place does not. -/
theorem fresh_path_guarded :
    (Machine.small fun _ => 7).Leaves
        (fromBytes Posix.platform ⟨[97]⟩ [120] 0o644 { guarded with atomically := false })
        9 [97] [120] 0o644
      ∧ (Machine.small fun _ => 7).Leaves
        (fromBytes Posix.platform ⟨[97]⟩ [120] 0o644 { guarded with atomically := true })
        9 [97] [120] 0o600 := by
  obtain ⟨hplaced, hmoved, -⟩ := fresh_path room_small (Machine.wellFormed_small _) rfl
    rfl (by decide) tempName_small (k := 0) (by decide) (by decide +kernel) [120] 0o644 flags_guarded
  exact ⟨hplaced, hmoved⟩

/-- So what is written in place has other permissions than those for a new file by its options. -/
theorem not_leaves_newPerm : ¬ (Machine.small fun _ => 7).Leaves
    (fromBytes Posix.platform ⟨[97]⟩ [120] 0o644 { guarded with atomically := false }) 9 [97] [120]
    (guarded.newPerm 0o644 0o022) := by
  intro hpromised
  have hquiet := AtomicWrite.isQuiet_ofBytes ⟨[97]⟩ [120] guarded (some 0o644)
  have hplaced := room_small.leaves_of_yields
    (room_small.yields_inPlace rfl rfl hquiet (Or.inr trivial) flags_guarded 0o644)
  exact absurd (hplaced.perm_eq hpromised) (by decide +kernel)

end Writing

end PortableFiles
