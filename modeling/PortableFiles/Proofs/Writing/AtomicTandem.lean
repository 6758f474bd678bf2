import PortableFiles.Proofs.Kernel.Pairing
import PortableFiles.Proofs.Writing.Success
import PortableFiles.Proofs.Writing.Tandem
set_option autoImplicit false

/-!
# Atomic writes in step

Two platforms whose processes draw different names make two new files of one kind.  What the write
does with them goes in step (`Writing.inStep_atomicFromReader`), and afterwards the machines are
alike up to these names (`Machine.Paired`).  Setting permissions may be left out on one platform, as
it cannot fail for the new file (`Renaming.Drafted.chmod`).
-/

namespace PortableFiles

open Routine (InStep EndTogether)
open Renaming (keeping pairing Pair)

variable {ρ : Renaming} {P : Name → Prop} {s : Stage} {m m' : Machine} {path path' temp' : Path}

/-! ## A file that is prepared on two machines -/

/-- Whether two machines are alike and on the first one a file is being prepared. -/
def Renaming.Drafted (ρ : Renaming) (s : Stage) (m m' : Machine) : Prop :=
  m.Alike ρ m' ∧ s.Holds m

/-- A routine whose calls concern the file leaves it in preparation. -/
theorem Routine.InStep.holding {α α' : Type} {I F : Machine → Machine → Prop} {t : Routine α}
    {t' : Routine α'} {Q : α → α' → Machine → Machine → Prop} (h : InStep I t t' Q F)
    (huses : Routine.Uses s.Concerns t) :
    InStep (fun m m' => I m m' ∧ s.Holds m) t t' (fun a a' m m' => Q a a' m m' ∧ s.Holds m)
      fun m m' => F m m' ∧ s.Holds m :=
  (h.mono_pre fun _ _ hm => hm.1).and_left fun m _ hm =>
    (hm.2.of_runs huses (Program.runs_run (fun _ _ => False) t.outcome m)).1

/-- Files are brought to the device in step. -/
theorem inStep_sync {file : Descriptor} (path path' : Path) :
    InStep (ρ.Opened file) (Routine.call .sync path (.sync file))
      (Routine.call .sync path' (.sync file)) (fun _ _ => ρ.Opened file) (ρ.Opened file) := by
  refine InStep.call ?_
  rintro m m' ⟨hm, hopen⟩
  refine (hm.sync file).and_eq.mono fun r r' h => ⟨h.1.2, ?_⟩
  rw [Call.machine_perform_of_looks (c := .sync file) (by trivial) h.2]
  exact hopen

/-- The permissions of the file can be read on the one platform, and are fixed on the other. -/
theorem inStep_perm {F : Machine → Machine → Prop} :
    InStep (fun m m' => ρ.Opened s.file m m' ∧ s.Holds m) (Posix.platform.perm s.writer)
      (Wasi.platform.perm ⟨s.file, temp', false⟩) (fun _ _ => ρ.Opened s.file) F := by
  rintro m m' ⟨hopened, data, perm, hat⟩
  obtain ⟨stat, hstat, -⟩ := (Stage.Open.mk hat hopened.2).statOpen
  have hrun : (Posix.platform.perm s.writer).run m = (.ok (stat.perm &&& permMask), m) := by
    change (Routine.call .fstat s.path (.statOpen s.file) >>= fun stat =>
      pure (stat.perm &&& permMask)).run m = _
    rw [Routine.run_bind, Routine.run_call, Call.reply, Call.perform, hstat]
    rfl
  rw [hrun]
  exact .ok hopened

namespace Writing

/-- Filling goes in step. -/
theorem inStep_fill (hpath : ρ.Paths s.path temp') {reader : Reader} (hquiet : reader.IsQuiet) :
    InStep (fun m m' => ρ.Opened s.file m m' ∧ s.Holds m) (fill Posix.platform s.writer reader)
      (fill Wasi.platform ⟨s.file, temp', false⟩ reader) (fun _ _ => ρ.Drafted s)
      (ρ.Drafted s) := by
  have hfill : InStep (fun m m' => ρ.Opened s.file m m' ∧ s.Holds m)
      (fill Posix.platform s.writer reader) (fill Wasi.platform ⟨s.file, temp', false⟩ reader)
      (fun _ _ => Machine.Alike ρ) (Machine.Alike ρ) := by
    refine InStep.bind (Q := fun _ _ => ρ.Opened s.file) ?_ fun _ _ => ?_
    · refine InStep.withCleanup (F := ρ.Opened s.file) ?_ fun m m' h => alike_abandon _ _ h rfl
      refine InStep.bind (Q := fun _ _ m m' => ρ.Opened s.file m m' ∧ s.Holds m) ?_ fun _ _ => ?_
      · have hcopy : InStep (ρ.Opened s.file)
            (reader.copyTo s.path (Posix.platform.writeAll s.writer))
            (reader.copyTo temp' (Wasi.platform.writeAll ⟨s.file, temp', false⟩))
            (fun _ _ => ρ.Opened s.file) (ρ.Opened s.file) :=
          Reader.inStep_copyTo (fun part => Routine.inStep_writeAll part) hquiet _ _
        exact (hcopy.holding (Reader.uses_copyTo (Routine.uses_writeAll fun _ => rfl)
          hquiet)).mono_error fun _ _ h => h.1
      · have hsync : InStep (ρ.Opened s.file) (Posix.platform.sync s.writer)
            (Wasi.platform.sync ⟨s.file, temp', false⟩) (fun _ _ => ρ.Opened s.file)
            (ρ.Opened s.file) := inStep_sync s.path temp'
        exact ((hsync.holding (Routine.uses_call rfl)).mono_error fun _ _ h => h.1).bind
          fun _ _ => inStep_perm
    · exact (inStep_close hpath s.file false).bind fun _ _ => .pure fun _ _ h => h
  exact hfill.and_left fun m _ hm =>
    (hm.2.of_runs (uses_fill_concerns hquiet) (Program.runs_run (fun _ _ => False) _ m)).1

end Writing

/-! ## The choice of permissions -/

/-- Metadata are looked for in step. -/
theorem inStep_stat (hpath : ρ.Paths path path') :
    InStep (Machine.Alike ρ) (Posix.platform.stat path) (Wasi.platform.stat path')
      (fun _ _ => Machine.Alike ρ) (Machine.Alike ρ) := by
  refine inStep_checked hpath.hasNul rfl fun _ => ?_
  refine InStep.bind (Q := fun _ _ => Machine.Alike ρ) (.call ?_) fun _ _ => .pure fun _ _ h => h
  intro m m' hm
  refine (hm.stat hpath true).mono fun r r' h => ?_
  rw [h.1, h.2]
  exact hm

namespace Umask

theorem run_readSystem (m : Machine) :
    ∃ value mask, readSystem.run m = (value, { m with mask := mask }) := by
  rw [readSystem, Program.run_bind, readStatus_run]
  by_cases hopen : m.mayOpen = true
  · rw [if_pos hopen]
    exact ⟨_, _, rfl⟩
  · rw [if_neg hopen]
    exact ⟨_, _, rfl⟩

theorem run_recall (m : Machine) :
    (Program.question .recallMask).run m = (m.rememberedMask, m) := rfl

/-- Asking the system for the mask changes masks at most. -/
theorem run_ofSystem (m : Machine) :
    ∃ mask remembered,
      (ofSystem.run m).2 = { m with mask := mask, rememberedMask := remembered } := by
  rw [ofSystem, Program.run_bind, run_recall]
  cases m.rememberedMask with
  | some _ => exact ⟨m.mask, m.rememberedMask, rfl⟩
  | none =>
    obtain ⟨value, mask, hread⟩ := run_readSystem m
    rw [Program.run_bind, hread]
    exact ⟨_, _, rfl⟩

/-- Asking the process for the mask changes what is remembered at most. -/
theorem run_ofProcess (m : Machine) :
    ∃ remembered, (ofProcess.run m).2 = { m with rememberedMask := remembered } := by
  rw [ofProcess, Program.run_bind, run_recall]
  cases m.rememberedMask with
  | some _ => exact ⟨m.rememberedMask, rfl⟩
  | none => exact ⟨_, rfl⟩

end Umask

namespace Writing

/-- Permissions are chosen in step. -/
theorem inStep_finalPerm (hpath : ρ.Paths path path') (options : Options)
    (created created' : UInt32) :
    InStep (Machine.Alike ρ) (finalPerm Posix.platform path options created)
      (finalPerm Wasi.platform path' options created') (fun _ _ => Machine.Alike ρ)
      (Machine.Alike ρ) := by
  unfold finalPerm
  cases options.fileMode with
  | some mode => exact .pure fun _ _ h => h
  | none =>
    refine InStep.bind (Q := fun kept kept' m m' => kept.isSome = kept'.isSome ∧ m.Alike ρ m')
      ?_ fun kept kept' => ?_
    · split
      · refine InStep.bind (inStep_stat hpath).attempt fun o o' => ?_
        intro m m' hends
        cases hends with
        | ok h => exact .ok ⟨rfl, h⟩
        | error hkind h =>
          simp only [hkind]
          split
          · exact .ok ⟨rfl, h⟩
          · exact .error hkind h
      · exact .pure fun _ _ h => ⟨rfl, h⟩
    · rintro m m' ⟨hkept, hm⟩
      obtain ⟨mask, remembered, hleft⟩ := Umask.run_ofSystem m
      obtain ⟨remembered', hright⟩ := Umask.run_ofProcess m'
      cases kept with
      | some perm =>
        obtain ⟨perm', rfl⟩ := Option.isSome_iff_exists.1 hkept.symm
        exact .ok hm
      | none =>
        obtain rfl : kept' = none := by simpa using hkept.symm
        cases options.defaultFileMode with
        | none => exact .ok hm
        | some mode =>
          simp only
          rw [Routine.run_bind, Routine.run_bind, Routine.run_lift, Routine.run_lift]
          change EndTogether _ _ (_, (Umask.ofSystem.run m).2) (_, (Umask.ofProcess.run m').2)
          rw [hleft, hright]
          exact .ok { hm with }

end Writing

/-! ## Setting permissions and publishing -/

/-- Where there is a file, nothing more is asked of it. -/
theorem Wasi.run_chmod {stat : Stat} (hnul : path.hasNul = false)
    (hstat : m.stat path true = .ok (stat, m)) (perm : UInt32) :
    (platform.chmod path perm).run m = (.ok (), m) := by
  have hcall : (Routine.call .stat path (.stat path true)).run m = (.ok stat, m) := by
    rw [Routine.run_call, Call.reply, Call.perform, hstat]
    rfl
  have hlook : (statPath .stat true path).run m
      = (.ok (.ofRecord path true (record stat)), m) := by
    rw [statPath, Routine.run_checkNul_bind hnul, Routine.run_bind, hcall]
    rfl
  change (statPath .stat true path >>= fun _ => pure ()).run m = _
  rw [Routine.run_bind, hlook]
  rfl

/-- Permissions of the new file can be set on the first platform, and the file is found on the other
one.  Neither makes a difference. -/
theorem Renaming.Drafted.chmod (h : ρ.Drafted s m m') (hpath : ρ.Paths s.path temp')
    (hnul : s.path.hasNul = false) (perm perm' : UInt32) :
    (∃ n, (Posix.platform.chmod s.path perm).run m = (.ok (), n) ∧ ρ.Drafted s n m')
      ∧ (Wasi.platform.chmod temp' perm').run m' = (.ok (), m') := by
  obtain ⟨hm, data, bits, hat⟩ := h
  obtain ⟨n, hchmod, hat', -⟩ := hat.chmod_eq_ok (perm &&& permMask)
  have hagree := hm.chmod_stat hpath (perm &&& permMask)
  rw [hchmod] at hagree
  cases hstat : m'.stat temp' true with
  | error e =>
    rw [hstat] at hagree
    cases hagree
  | ok r =>
    rw [hstat] at hagree
    obtain ⟨stat, n'⟩ := r
    cases hagree with
    | ok hnext =>
      obtain ⟨halike, rfl, -⟩ := hnext
      exact ⟨⟨n, Posix.run_chmod hnul hchmod, halike, _, _, hat'⟩,
        Wasi.run_chmod (hpath.hasNul ▸ hnul) hstat perm'⟩

namespace Writing

/-- Publishing chooses permissions, sets them unless the file has them, and moves the file. -/
theorem publish_eq_bind (p : Platform) (temp path : Path) (options : Options) (created : UInt32) :
    publish p temp path options created =
      finalPerm p path options created >>= fun perm =>
        (if perm ≠ created then p.chmod temp perm else pure ()) >>= fun _ =>
          p.prepareDestination path options >>= fun _ => p.rename temp path := by
  unfold publish
  refine congrArg _ (funext fun perm => ?_)
  by_cases h : perm = created
  · simp only [ne_eq, h]
    rfl
  · simp only [ne_eq, h]
    rfl

/-- Publishing goes in step. -/
theorem inStep_publish (hpath : ρ.Paths s.path temp') (hnul : s.path.hasNul = false)
    (hdestination : ρ.Paths path path') (options : Options) (created created' : UInt32) :
    InStep (ρ.Drafted s) (publish Posix.platform s.path path options created)
      (publish Wasi.platform temp' path' options created') (fun _ _ => Machine.Alike ρ)
      (Machine.Alike ρ) := by
  rw [publish_eq_bind, publish_eq_bind]
  refine InStep.bind (Q := fun _ _ => ρ.Drafted s) ?_ fun perm perm' => ?_
  · refine ((inStep_finalPerm hdestination options created created').holding
      (Program.Uses.mono uses_finalPerm ?_)).mono_error fun _ _ h => h.1
    rintro c rfl
    trivial
  refine InStep.bind (Q := fun _ _ => ρ.Drafted s) ?_ fun _ _ => ?_
  · intro m m' h
    obtain ⟨⟨n, hleft, hn⟩, hright⟩ := h.chmod hpath hnul perm perm'
    split
    · rw [hleft]
      split
      · rw [hright]
        exact .ok hn
      · exact .ok hn
    · split
      · rw [hright]
        exact .ok h
      · exact .ok h
  · refine InStep.bind (Q := fun _ _ => Machine.Alike ρ) (.pure fun _ _ h => h.1) fun _ _ => ?_
    exact inStep_move hpath hdestination

end Writing

/-! ## Drawn names -/

namespace Machine

/-- A drawn name is one that a new file can have. -/
theorem isProper_tempName (m : Machine) (k : Nat) : Renaming.IsProper (m.tempName k) where
  isPlain := Path.isPlain_decimalString _
  step := Path.stepOf_decimalString _
  noNul h := absurd ((Bytes.ofString_decimalString _).2 0 h).1 (by decide)
  short := Nat.le_trans (m.length_tempName_le k) (by decide)

/-- Whether two machines hold the same, and their processes draw names of no kept kind, with which
paths in a directory are too long on both machines or on neither. -/
structure DrawApart (P : Name → Prop) (directory : Path) (m m' : Machine) : Prop where
  alike : m.Alike (keeping P) m'
  left_new : ∀ k, ¬ P (m.tempName k)
  right_new : ∀ k, ¬ P (m'.tempName k)
  long_iff : ∀ k, (directory.join (m.tempName k)).bytes.length ≥ Tree.maxPath
    ↔ (directory.join (m'.tempName k)).bytes.length ≥ Tree.maxPath

/-- Whether two machines are alike up to one pair of names. -/
def Paired (P : Name → Prop) (m m' : Machine) : Prop := ∃ p : Pair P, m.Alike (pairing p) m'

variable {directory : Path}

/-- The names that two processes make of words drawn at the same time. -/
def DrawApart.pair (h : DrawApart P directory m m') (k : Nat) : Pair P where
  left := m.tempName k
  right := m'.tempName k
  left_new := h.left_new k
  right_new := h.right_new k
  left_proper := m.isProper_tempName k
  right_proper := m'.isProper_tempName k

theorem DrawApart.paired (h : DrawApart P directory m m') : Paired P m m' :=
  ⟨h.pair 0, h.alike.mono fun _ _ => Renaming.rel_pairing _⟩

end Machine

/-! ## Whole writes -/

namespace Writing

variable {directory : Path}

/-- Whether two files have been made, of which the first is being prepared. -/
def Made (P : Name → Prop) (made made' : Path × Writer) (m m' : Machine) : Prop :=
  ∃ (p : Pair P) (s : Stage) (temp' : Path), made = (s.path, s.writer)
    ∧ made' = (temp', ⟨s.file, temp', false⟩) ∧ s.path.hasNul = false
    ∧ (pairing p).Paths s.path temp' ∧ (pairing p).Opened s.file m m' ∧ s.Holds m

/-- New files are made in step, under names that may be different. -/
theorem inStep_createNamed (hdir : directory.Named P) (hne : directory.bytes ≠ []) (perm : UInt32)
    (flags : OpenFlags) (attempts : Nat) :
    InStep (Machine.DrawApart P directory)
      (createNamed Posix.platform directory perm flags drawName attempts)
      (createNamed Wasi.platform directory perm flags drawName attempts) (Made P)
      (Machine.DrawApart P directory) := by
  induction attempts with
  | zero => exact .fail rfl
  | succ attempts ih =>
    refine InStep.bind (Q := fun name name' m m' => Machine.DrawApart P directory m m'
      ∧ ∃ k, name = m.tempName k ∧ name' = m'.tempName k) (.lift ?_) fun name name' => ?_
    · intro m m' h
      refine ⟨{ h with alike := { h.alike with drawn := congrArg (· + 1) h.alike.drawn } },
        m.drawn, rfl, ?_⟩
      rw [h.alike.drawn]
      rfl
    · rintro m m' ⟨h, k, rfl, rfl⟩
      have hpaths := Renaming.paths_pairing hdir hne (h.pair k) (h.long_iff k)
      have halike : ∀ n n', Machine.DrawApart P directory n n' → n.Alike (pairing (h.pair k)) n' :=
        fun _ _ h' => h'.alike.mono fun _ _ => Renaming.rel_pairing (h.pair k)
      have hopens := inStep_openWriter halike hpaths
        (show OpenHow.making.unnamed = false from rfl) (fun _ _ => rfl) .createTemp .createTemp perm
        (deleteOnClose_only_sync flags)
      refine InStep.bind hopens.attempt ?_ m m' h
      intro o o' n n' hends
      cases hends with
      | ok hopened =>
        obtain ⟨file, before, rfl, rfl, hnul, hopened, halike⟩ := hopened
        obtain ⟨s, -, hpath, rfl, hat⟩ := Stage.of_openFile hopened
        rw [← hpath] at hnul hpaths
        have hopen := Machine.isSome_file?_of_openFile hopened
        refine .ok ⟨h.pair k, s, _, ?_, rfl, hnul, hpaths, ⟨halike, hopen⟩, _, _, hat⟩
        rw [Stage.writer, hpath]
        rfl
      | error hkind h =>
        simp only [hkind]
        split
        · exact ih n n' h
        · exact .error hkind h

/-- Atomic writes go in step, up to the names of the files that they make. -/
theorem inStep_atomicFromReader (hpath : path.Named P) {reader : Reader} (hquiet : reader.IsQuiet)
    (options : Options) :
    InStep (Machine.DrawApart P path.parentDir)
      (atomicFromReader Posix.platform path reader options)
      (atomicFromReader Wasi.platform path reader options) (fun _ _ => Machine.Paired P)
      (Machine.Paired P) := by
  unfold atomicFromReader
  split
  · exact InStep.mono_error (.fail rfl) fun _ _ h => h.paired
  refine InStep.bind ((inStep_createNamed hpath.parentDir (Path.parentDir_ne_nil path) _ _
    _).mono_error fun _ _ h => h.paired) fun made made' => ?_
  rintro m m' ⟨p, s, temp', rfl, rfl, hnul, hpaths, hopened, hholds⟩
  have hdestination : (pairing p).Paths path path :=
    (Renaming.paths_keeping hpath).mono fun _ _ => Renaming.rel_pairing p
  have hworking := ((inStep_fill hpaths hquiet).mono_error fun _ _ h => h.1).bind
    fun created created' => inStep_publish hpaths hnul hdestination options created created'
  refine InStep.bind (I := fun m m' => (pairing p).Opened s.file m m' ∧ s.Holds m)
    (Q := fun _ _ => Machine.Paired P) ?_ (fun _ _ => .pure fun _ _ h => h) m m' ⟨hopened, hholds⟩
  exact (hworking.withCleanup fun _ _ h => (inStep_removeFile hpaths).ignoringErrors h).mono
    (fun _ _ h => h) (fun _ _ _ _ h => ⟨p, h⟩) fun _ _ h => ⟨p, h⟩

end Writing

end PortableFiles
