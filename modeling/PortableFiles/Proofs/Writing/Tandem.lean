import PortableFiles.Operations
import PortableFiles.Platform.Wasi
import PortableFiles.Proofs.Kernel.InStep
import PortableFiles.Proofs.Writing.Filling
set_option autoImplicit false

/-!
# Two platforms in step

On machines that are alike, every function of the POSIX platform that a write or a renaming uses
goes in step with that of the WebAssembly platform: opening, writing, closing and removing, and also
setting permissions on the one and looking for the file on the other.  So do a write in place
(`Writing.inStep_fromReader`) and a renaming (`Operations.inStep_rename`).
-/

namespace PortableFiles

open Routine (InStep EndTogether)

variable {ρ : Renaming} {m m' : Machine} {path path' : Path} {file : Descriptor}

/-- Whether two machines are alike and have a file open. -/
def Renaming.Opened (ρ : Renaming) (file : Descriptor) (m m' : Machine) : Prop :=
  m.Alike ρ m' ∧ (m.file? file).isSome = true

/-! ## Checks of paths -/

theorem Renaming.Paths.isEmpty_eq (hpath : ρ.Paths path path') : path.isEmpty = path'.isEmpty := by
  rw [Bool.eq_iff_iff, Path.isEmpty, Path.isEmpty, List.isEmpty_iff, List.isEmpty_iff,
    hpath.nil_iff]

/-- A path that cannot be asked for is an error of one kind wherever it is checked; after the check,
routines that go in step do. -/
theorem inStep_checked {α α' : Type} {I : Machine → Machine → Prop} {t : Routine α}
    {t' : Routine α'} {Q : α → α' → Machine → Machine → Prop}
    (hpath : path.hasNul = path'.hasNul) {e e' : Error}
    (hkind : e.kind = e'.kind) (h : path.hasNul = false → InStep I t t' Q I) :
    InStep I ((if path.hasNul then Routine.fail e else pure ()) >>= fun _ => t)
      ((if path'.hasNul then Routine.fail e' else pure ()) >>= fun _ => t') Q I := by
  rw [← hpath]
  cases hnul : path.hasNul with
  | true => exact .fail hkind
  | false => exact h hnul

/-! ## Writing -/

namespace Routine

/-- All of some bytes are written on both machines, or the same error ends the writing. -/
theorem inStep_writeAll (data : Bytes) :
    InStep (ρ.Opened file) (writeAll path file data) (writeAll path' file data)
      (fun _ _ => ρ.Opened file) (ρ.Opened file) := by
  fun_induction writeAll path file data with
  | case1 =>
    rw [writeAll, dif_pos rfl]
    exact .pure fun _ _ h => h
  | case2 data hdata ih =>
    rintro m m' ⟨hm, hopen⟩
    have hagree : Agree (fun r r' => r.1 = r'.1 ∧ ρ.Opened file r.2 r'.2)
        ((Call.write file data).perform m) ((Call.write file data).perform m') :=
      (hm.write file data).and_eq.mono fun _ _ h =>
        ⟨h.1.1, h.1.2, Machine.isSome_file?_of_write h.2⟩
    rw [writeAll, dif_neg hdata]
    change EndTogether _ _ (Program.run _ ((Call.write file data).reply m).2)
      (Program.run _ ((Call.write file data).reply m').2)
    rw [Call.reply, Call.reply]
    generalize (Call.write file data).perform m = r, (Call.write file data).perform m' = r'
      at hagree
    cases hagree with
    | error e => exact .error rfl ⟨hm, hopen⟩
    | @ok r r' h =>
      obtain ⟨count, n⟩ := r
      obtain ⟨count', n'⟩ := r'
      obtain ⟨rfl, hopened⟩ := h
      simp only
      split
      · exact .error rfl hopened
      · rename_i hcount
        exact ih count hcount n n' hopened

/-- Passing some parts on to sinks that go in step. -/
theorem inStep_forIn {I : Machine → Machine → Prop} {sink sink' : Bytes → Routine Unit}
    (hsink : ∀ part, InStep I (sink part) (sink' part) (fun _ _ => I) I) (parts : List Bytes) :
    InStep I
      (forIn parts PUnit.unit fun part _ => do
        sink part
        pure (ForInStep.yield PUnit.unit))
      (forIn parts PUnit.unit fun part _ => do
        sink' part
        pure (ForInStep.yield PUnit.unit))
      (fun _ _ => I) I := by
  induction parts with
  | nil => exact .pure fun _ _ h => h
  | cons part parts ih =>
    rw [List.forIn_cons, List.forIn_cons]
    refine InStep.bind (Q := fun step step' m m' =>
      step = ForInStep.yield PUnit.unit ∧ step' = ForInStep.yield PUnit.unit ∧ I m m')
      ((hsink part).bind fun _ _ => .pure fun _ _ h => ⟨rfl, rfl, h⟩) ?_
    rintro step step' m m' ⟨rfl, rfl, h⟩
    exact ih m m' h

end Routine

/-- Streams are copied in step where nobody else does anything meanwhile. -/
theorem Reader.inStep_copyTo {I : Machine → Machine → Prop} {sink sink' : Bytes → Routine Unit}
    (hsink : ∀ part, InStep I (sink part) (sink' part) (fun _ _ => I) I) {reader : Reader}
    (hquiet : reader.IsQuiet) (path path' : Path) :
    InStep I (copyTo path sink reader) (copyTo path' sink' reader) (fun _ _ => I) I := by
  induction reader with
  | nil => exact .pure fun _ _ h => h
  | cons chunk rest ih =>
    have hrest := ih hquiet.tail
    cases chunk with
    | bytes data =>
      rw [copyTo, copyTo]
      split
      · exact .pure fun _ _ h => h
      · exact (Routine.inStep_forIn hsink _).bind fun _ _ => hrest.bind fun _ _ =>
          .pure fun _ _ h => h
    | failure e =>
      rw [copyTo, copyTo]
      split
      · exact hrest
      · exact .fail rfl
    | meanwhile others => exact absurd (List.mem_cons_self ..) (hquiet others)

/-! ## Opening, closing, removing -/

/-- A file is opened on both machines, under one number. -/
theorem inStep_openWriter {I : Machine → Machine → Prop} (hI : ∀ m m', I m m' → m.Alike ρ m')
    (hpath : ρ.Paths path path') {how how' : OpenHow} (hnamed : how.unnamed = false)
    (hhow : ∀ (m : Machine) perm, m.openFile path' how' perm = m.openFile path' how perm)
    (operation operation' : Operation) (perm : UInt32) {flags : OpenFlags} {deleteOnClose : Bool}
    (hdelete : flags.has .deleteOnClose = deleteOnClose) :
    InStep I (Posix.openWriter operation path how perm flags)
      (Wasi.openWriter operation' path' how' deleteOnClose)
      (fun w w' m m' => ∃ (file : Descriptor) (n : Machine), w = ⟨file, path, deleteOnClose⟩
        ∧ w' = ⟨file, path', deleteOnClose⟩ ∧ path.hasNul = false
        ∧ n.openFile path how perm = .ok (file, m) ∧ m.Alike ρ m') I := by
  refine inStep_checked hpath.hasNul rfl fun hnul => ?_
  refine InStep.bind (Q := fun (file file' : Descriptor) m m' => file' = file
    ∧ ∃ n : Machine, n.openFile path how perm = .ok (file, m) ∧ m.Alike ρ m') (.call ?_) ?_
  · intro m m' hm
    change Agree _ (m.openFile path how perm) (m'.openFile path' how' Wasi.hostPerm)
    rw [hhow]
    exact ((hI m m' hm).openFile hpath hnamed perm Wasi.hostPerm).and_eq.mono fun _ _ h =>
      ⟨h.1.1.symm, m, h.2, h.1.2⟩
  · rintro file file'
    rw [hdelete]
    refine .pure ?_
    rintro m m' ⟨rfl, n, hopened, hm⟩
    exact ⟨file', n, rfl, rfl, hnul, hopened, hm⟩

/-- Of a file that must be new there is nothing to cut. -/
theorem openFile_howFor (m : Machine) (path : Path) (flags : OpenFlags) (perm : UInt32) :
    m.openFile path (Wasi.howFor flags) perm = m.openFile path (Posix.howFor flags) perm := by
  unfold Wasi.howFor Posix.howFor
  cases flags.has .exclusive <;> cases flags.has .append <;> rfl

theorem inStep_removeFile (hpath : ρ.Paths path path') :
    InStep (Machine.Alike ρ) (Posix.removeFile path) (Wasi.removeFile path')
      (fun _ _ => Machine.Alike ρ) (Machine.Alike ρ) := by
  refine inStep_checked hpath.hasNul rfl fun _ => .call fun m m' hm => ?_
  exact (hm.unlink hpath).mono fun _ _ h => h.2

/-- A file that is open is closed on both machines. -/
theorem run_close (h : ρ.Opened file m m') :
    ∃ n n', m.close file = .ok ((), n) ∧ m'.close file = .ok ((), n') ∧ n.Alike ρ n' := by
  have hclose : ∃ n, m.close file = .ok ((), n) := by
    obtain ⟨f, hf⟩ := Option.isSome_iff_exists.1 h.2
    rw [Machine.close, hf]
    exact ⟨_, rfl⟩
  obtain ⟨n, hclose⟩ := hclose
  have hagree := h.1.close file
  rw [hclose] at hagree
  generalize m'.close file = r' at hagree ⊢
  cases hagree with
  | @ok _ r' h => exact ⟨n, r'.2, hclose, rfl, h.2⟩

theorem run_perform_close {n : Machine} (h : m.close file = .ok ((), n)) :
    (Program.perform (.close file)).run m = (.ok (), n) := by
  change (Call.close file).reply m = _
  rw [Call.reply, Call.perform, h]

/-- What is left of a file whose writing has failed. -/
theorem alike_abandon (w w' : Writer) (h : ρ.Opened w.file m m') (hfile : w'.file = w.file) :
    ((Posix.platform.abandon w).run m).2.Alike ρ ((Wasi.platform.abandon w').run m').2 := by
  obtain ⟨n, n', hclose, hclose', halike⟩ := run_close h
  have hleft := run_perform_close hclose
  have hright := run_perform_close hclose'
  change ((Program.perform (.close w.file)).run m).2.Alike ρ
    ((Program.perform (.close w'.file)).run m').2
  rw [hfile, hleft, hright]
  exact halike

/-- Files are closed in step, and removed in step where that was asked. -/
theorem inStep_close (hpath : ρ.Paths path path') (file : Descriptor) (deleteOnClose : Bool) :
    InStep (ρ.Opened file) (Posix.platform.close ⟨file, path, deleteOnClose⟩)
      (Wasi.platform.close ⟨file, path', deleteOnClose⟩) (fun _ _ => Machine.Alike ρ)
      (Machine.Alike ρ) := by
  intro m m' h
  obtain ⟨n, n', hclose, hclose', halike⟩ := run_close h
  have hremove : EndTogether (fun _ _ => Machine.Alike ρ) (Machine.Alike ρ)
      (Routine.run (if deleteOnClose then Posix.removeFile path else pure ()) n)
      (Routine.run (if deleteOnClose then Wasi.removeFile path' else pure ()) n') := by
    split
    · exact inStep_removeFile hpath n n' halike
    · exact .ok halike
  have hleft : (Posix.platform.close ⟨file, path, deleteOnClose⟩).run m
      = Routine.run (if deleteOnClose then Posix.removeFile path else pure ()) n := by
    change (Posix.close _).run m = _
    rw [Posix.close, Routine.run_bind, Routine.run_lift, run_perform_close hclose]
  have hright : (Wasi.platform.close ⟨file, path', deleteOnClose⟩).run m'
      = Routine.run (if deleteOnClose then Wasi.removeFile path' else pure ()) n' := by
    change (Routine.lift (Program.perform (.close file)) >>= fun _ =>
      if deleteOnClose then Wasi.removeFile path' else pure ()).run m' = _
    rw [Routine.run_bind, Routine.run_lift, run_perform_close hclose']
  rw [hleft, hright]
  exact hremove

/-! ## Permissions -/

/-- Setting permissions goes in step with looking for the file. -/
theorem inStep_chmod (hpath : ρ.Paths path path') (perm perm' : UInt32) :
    InStep (ρ.Opened file) (Posix.platform.chmod path perm) (Wasi.platform.chmod path' perm')
      (fun _ _ => ρ.Opened file) (ρ.Opened file) := by
  have hstep : InStep (ρ.Opened file) (Posix.platform.chmod path perm)
      (Wasi.statPath .stat true path') (fun _ _ => ρ.Opened file) (ρ.Opened file) := by
    refine inStep_checked hpath.hasNul rfl fun _ => ?_
    refine InStep.map_right (Q := fun _ _ => ρ.Opened file) (.call ?_) fun _ _ _ _ h => h
    rintro m m' ⟨hm, hopen⟩
    refine (hm.chmod_stat hpath (perm &&& permMask)).mono fun r r' h => ?_
    rw [h.2.1]
    refine ⟨h.1, ?_⟩
    rw [Machine.file?, h.2.2]
    exact hopen
  exact hstep.map_right fun _ _ _ _ h => h

/-! ## Whole operations -/

/-- Writes in place go in step. -/
theorem Writing.inStep_fromReader (hpath : ρ.Paths path path') {reader : Reader}
    (hquiet : reader.IsQuiet) (mode : UInt32) {options : Options}
    (hplace : options.atomically = false) :
    InStep (Machine.Alike ρ) (fromReader Posix.platform path reader mode options)
      (fromReader Wasi.platform path' reader mode options) (fun _ _ => Machine.Alike ρ)
      (Machine.Alike ρ) := by
  have hnamed : (Posix.howFor options.flags).unnamed = false := by
    unfold Posix.howFor
    split <;> rfl
  unfold fromReader
  simp only [hplace, hpath.isEmpty_eq, Bool.false_eq_true, if_false]
  split
  · exact .fail rfl
  refine InStep.bind (Q := fun _ _ => Machine.Alike ρ) (.pure fun _ _ h => h) fun _ _ => ?_
  refine (inStep_openWriter (fun _ _ h => h) hpath hnamed
    (fun m perm => openFile_howFor m path' options.flags perm) .openFile .openFile
    (mode &&& permMask) rfl).bind ?_
  rintro w w' m m' ⟨file, n, rfl, rfl, -, hopened, hm⟩
  have hopen : ρ.Opened file m m' := ⟨hm, Machine.isSome_file?_of_openFile hopened⟩
  refine InStep.bind (I := ρ.Opened file) (Q := fun _ _ => ρ.Opened file) ?_ ?_ m m' hopen
  · refine InStep.withCleanup (F := ρ.Opened file) ?_ ?_
    · refine (Reader.inStep_copyTo (fun part => Routine.inStep_writeAll part) hquiet _ _).bind
        fun _ _ => ?_
      cases options.fileMode with
      | none => exact .pure fun _ _ h => h
      | some mode => exact inStep_chmod hpath mode mode
    · intro m m' h
      exact alike_abandon _ _ h rfl
  · intro _ _
    exact (inStep_close hpath file _).bind fun _ _ => .pure fun _ _ h => h

/-- Entries are moved in step. -/
theorem inStep_move {source source' destination destination' : Path}
    (hsource : ρ.Paths source source') (hdestination : ρ.Paths destination destination') :
    InStep (Machine.Alike ρ) (Posix.platform.rename source destination)
      (Wasi.platform.rename source' destination') (fun _ _ => Machine.Alike ρ)
      (Machine.Alike ρ) := by
  refine inStep_checked hsource.hasNul rfl fun _ => ?_
  refine inStep_checked hdestination.hasNul rfl fun _ => ?_
  exact .call fun m m' hm => (hm.rename hsource hdestination).mono fun _ _ h => h.2

/-- Renamings go in step. -/
theorem Operations.inStep_rename {source source' destination destination' : Path}
    (hsource : ρ.Paths source source') (hdestination : ρ.Paths destination destination') :
    InStep (Machine.Alike ρ) (rename Posix.platform source destination)
      (rename Wasi.platform source' destination') (fun _ _ => Machine.Alike ρ)
      (Machine.Alike ρ) := by
  unfold rename
  rw [hsource.isEmpty_eq, hdestination.isEmpty_eq]
  split
  · exact .fail rfl
  · exact inStep_move hsource hdestination

end PortableFiles
