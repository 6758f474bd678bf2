import PortableFiles.Proofs.Writing.Copy
import PortableFiles.Platform.Posix
set_option autoImplicit false

/-!
# Requests for atomic writes

An atomic write is asked for as such, or with the options of a general write, which then has
permissions for a missing file.  Both are one routine with different options
(`AtomicWrite.routine_eq`), and of the flags only the one for writing through counts
(`AtomicWrite.routine_of_flags`).
-/

namespace PortableFiles

namespace Writing

variable {path : Path} {reader : Reader} {options options' : Options}

/-- Making a new file looks at one flag. -/
theorem createNamed_congr {directory : Path} {perm : UInt32} {flags flags' : OpenFlags}
    {nextName : Program Bytes} (h : flags.only .sync = flags'.only .sync) (attempts : Nat) :
    createNamed Posix.platform directory perm flags nextName attempts
      = createNamed Posix.platform directory perm flags' nextName attempts := by
  induction attempts with
  | zero => rfl
  | succ attempts ih => rw [createNamed, createNamed, h, ih]

theorem finalPerm_congr (hmode : options.fileMode = options'.fileMode)
    (hdefault : options.defaultFileMode = options'.defaultFileMode)
    (hkeep : options.keepFileMode = options'.keepFileMode) (created : UInt32) :
    finalPerm Posix.platform path options created
      = finalPerm Posix.platform path options' created := by
  unfold finalPerm
  rw [hmode, hdefault, hkeep]

/-- An atomic write looks at three choices and one flag. -/
theorem atomicFromReader_congr (hmode : options.fileMode = options'.fileMode)
    (hdefault : options.defaultFileMode = options'.defaultFileMode)
    (hkeep : options.keepFileMode = options'.keepFileMode)
    (hflags : options.flags.only .sync = options'.flags.only .sync) :
    atomicFromReader Posix.platform path reader options
      = atomicFromReader Posix.platform path reader options' := by
  have hpublish : ∀ temp created, publish Posix.platform temp path options created
      = publish Posix.platform temp path options' created := by
    intro temp created
    unfold publish
    rw [finalPerm_congr hmode hdefault hkeep]
    rfl
  unfold atomicFromReader
  rw [hdefault]
  simp only [createNamed_congr hflags, hpublish]
  rfl

end Writing

/-- A write that publishes its content with a renaming. -/
structure AtomicWrite where
  path : Path
  reader : Reader
  options : Options
  /-- The permissions for a missing file, where a general write is asked for. -/
  mode : Option UInt32

namespace AtomicWrite

variable (w : AtomicWrite)

/-- What is done: an atomic write, or a general write whose options ask for an atomic one. -/
def routine : Routine Unit :=
  match w.mode with
  | none => Writing.atomicFromReader Posix.platform w.path w.reader w.options
  | some mode =>
    Writing.fromReader Posix.platform w.path w.reader mode { w.options with atomically := true }

/-- The request to write bytes. -/
def ofBytes (path : Path) (data : Bytes) (options : Options) (mode : Option UInt32) :
    AtomicWrite := ⟨path, [.bytes data], options, mode⟩

/-- The options as they count: permissions for a missing file are those for a new file where the
options have none. -/
def effective : Options :=
  { w.options with
    defaultFileMode := w.options.defaultFileMode.or (w.mode.map fun mode => mode &&& permMask) }

theorem routine_eq :
    w.routine = Writing.atomicFromReader Posix.platform w.path w.reader w.effective := by
  unfold routine
  cases hmode : w.mode with
  | none => exact Writing.atomicFromReader_congr rfl (by simp [effective, hmode]) rfl rfl
  | some mode =>
    unfold Writing.fromReader
    simp only [if_true]
    cases hdefault : w.options.defaultFileMode with
    | none =>
      simp only [Option.isNone_none, if_true]
      exact Writing.atomicFromReader_congr rfl
        (by simp [effective, hmode, hdefault, Options.withDefaultFileMode]) rfl rfl
    | some perm =>
      simp only [Option.isNone_some, Bool.false_eq_true, if_false]
      exact Writing.atomicFromReader_congr rfl (by simp [effective, hdefault]) rfl rfl

/-- Flags besides the one for writing through make no difference. -/
theorem routine_of_flags {flags : OpenFlags} (h : flags.only .sync = w.options.flags.only .sync) :
    { w with options := { w.options with flags := flags } }.routine = w.routine := by
  rw [routine_eq, routine_eq]
  exact Writing.atomicFromReader_congr rfl rfl rfl h

/-- Bytes are written as a reader's that delivers them at once. -/
theorem routine_ofBytes (path : Path) (data : Bytes) (options : Options) (mode : Option UInt32) :
    (ofBytes path data options mode).routine =
      match mode with
      | none => Writing.atomicFromBytes Posix.platform path data options
      | some mode =>
        Writing.fromBytes Posix.platform path data mode { options with atomically := true } := by
  cases mode <;> rfl

theorem delivered_ofBytes (path : Path) (data : Bytes) (options : Options)
    (mode : Option UInt32) : (ofBytes path data options mode).reader.delivered = data := by
  by_cases h : data = []
  · simp [ofBytes, Reader.delivered, h]
  · simp [ofBytes, Reader.delivered, h]

theorem isQuiet_ofBytes (path : Path) (data : Bytes) (options : Options) (mode : Option UInt32) :
    (ofBytes path data options mode).reader.IsQuiet := by
  intro others h
  cases List.mem_singleton.1 h

end AtomicWrite

end PortableFiles
