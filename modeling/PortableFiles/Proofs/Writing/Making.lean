import PortableFiles.Platform.Posix
import PortableFiles.Proofs.Writing.Copy
set_option autoImplicit false

/-!
# Making the new file

Under the first of the drawn names that is free, a new file is made beside the destination.  One
attempt of that search ends it, or finds that a name is taken (`NameSearch.tried_of_runs`).  Where
the search fails, the tree is the one before; where it succeeds, the preparation of the file begins
(`Writing.createNamed_runs`).
-/

namespace PortableFiles

/-- The name that the process makes of its `k`-th random word. -/
def Machine.tempName (m : Machine) (k : Nat) : Name :=
  Bytes.ofString (Text.Numeral.decimalString (m.draws k).toNat)

/-- The machine after some words were drawn. -/
def Machine.drew (m : Machine) (count : Nat) : Machine := { m with drawn := m.drawn + count }

theorem Machine.drew_drew (m : Machine) (count count' : Nat) :
    (m.drew count).drew count' = m.drew (count + count') := by
  rw [drew, drew, drew, Nat.add_assoc]

/-- The machine with a process that draws other words. -/
def Machine.drawing (m : Machine) (draws : Nat → UInt32) : Machine := { m with draws := draws }

/-- Whether a machine is as another one was, apart from what questions change. -/
structure Machine.Asked (m m' : Machine) : Prop where
  tree : m'.tree = m.tree
  files : m'.files = m.files
  cwd : m'.cwd = m.cwd
  who : m'.who = m.who
  mask : m'.mask = m.mask
  rememberedMask : m'.rememberedMask = m.rememberedMask
  mayOpen : m'.mayOpen = m.mayOpen
  draws : m'.draws = m.draws

namespace Machine.Asked

variable {m m' m'' : Machine}

theorem trans (h : Asked m m') (h' : Asked m' m'') : Asked m m'' :=
  ⟨h'.tree.trans h.tree, h'.files.trans h.files, h'.cwd.trans h.cwd, h'.who.trans h.who,
    h'.mask.trans h.mask, h'.rememberedMask.trans h.rememberedMask, h'.mayOpen.trans h.mayOpen,
    h'.draws.trans h.draws⟩

/-- Drawing words concerns nothing else. -/
theorem drew (m : Machine) (count : Nat) : m.Asked (m.drew count) :=
  ⟨rfl, rfl, rfl, rfl, rfl, rfl, rfl, rfl⟩

theorem symm (h : Asked m m') : Asked m' m :=
  ⟨h.tree.symm, h.files.symm, h.cwd.symm, h.who.symm, h.mask.symm, h.rememberedMask.symm,
    h.mayOpen.symm, h.draws.symm⟩

/-- In all that an atomic write looks at, the process is as it was. -/
theorem process (h : Asked m m') : m.process.Agrees m'.process where
  cwd := h.cwd
  who := h.who
  mask := h.mask
  umask := by
    change m'.rememberedMask.getD m'.mask = m.rememberedMask.getD m.mask
    rw [h.rememberedMask, h.mask]
  mayOpen := h.mayOpen
  draws := h.draws

/-- A path leads where it led. -/
theorem locate (h : Asked m m') (follow : Bool → Bool) (path : Path) :
    m'.locate follow path = m.locate follow path := by
  rw [Machine.locate, h.tree, h.who, h.cwd, Machine.locate]

/-- The entries of a directory may be changed as before. -/
theorem mayChangeEntries (h : Asked m m') (dir : InodeId) :
    m'.mayChangeEntries dir = m.mayChangeEntries dir := by
  rw [Machine.mayChangeEntries, Machine.may, h.tree, h.who, Machine.mayChangeEntries, Machine.may]

/-- What is in the way was in the way. -/
theorem taken (h : Asked m m') {path : Path} (htaken : m'.Taken path) : m.Taken path := by
  unfold Machine.Taken at htaken ⊢
  rwa [h.locate, h.tree] at htaken

theorem masked (h : Asked m m') (perm : UInt32) : m'.masked perm = m.masked perm := by
  rw [Machine.masked, h.mask, Machine.masked]

/-- A new inode of a directory is as it would have been. -/
theorem newInode (h : Asked m m') (dir : InodeId) : m'.newInode dir = m.newInode dir := by
  funext content perm
  rw [Machine.newInode, h.tree, h.who, Machine.newInode]

theorem tempName (h : Asked m m') (k : Nat) : m'.tempName k = m.tempName k := by
  rw [Machine.tempName, h.draws, Machine.tempName]

end Machine.Asked

/-! ## Classes of errors -/

/-- Where a class of failures has one number, an error of this class has that number. -/
theorem Error.errno_eq_of_kind {operation : Operation} {path : Path} {errno : Errno}
    {kind : ErrorKind} {code : Int} (hkind : kind ≠ .crossDevice ∧ kind ≠ .other)
    (hrows : ∀ row ∈ Errno.table, ErrorKind.ofIoKind row.1 = kind → row.2 = [code])
    (h : (Error.ofErrno operation path errno).kind = kind) : errno = ⟨code⟩ := by
  have hclass : (if errno = .crossDevice then ErrorKind.crossDevice else .ofIoKind errno.kind)
      = kind := by simpa [ofErrno, ofIo, ErrorKind.classify, IoError.errno?,
        ErrnoClasses.posix, IoError.kind] using h
  split at hclass
  · exact absurd hclass.symm hkind.1
  unfold Errno.kind at hclass
  split at hclass
  · rename_i row hrow
    have hcode := List.find?_some hrow
    rw [hrows row (List.mem_of_find?_eq_some hrow) hclass] at hcode
    cases errno
    simpa using hcode
  · exact absurd hclass.symm hkind.2

/-- The class "not found" has one number. -/
theorem Error.kind_ofErrno_eq_notFound_iff {operation : Operation} {path : Path} {errno : Errno} :
    (Error.ofErrno operation path errno).kind = .notFound ↔ errno = .noEntry := by
  refine ⟨errno_eq_of_kind (by decide) (by decide), ?_⟩
  rintro rfl
  rfl

/-- So has the class "already exists". -/
theorem Error.kind_ofErrno_eq_alreadyExists_iff {operation : Operation} {path : Path}
    {errno : Errno} :
    (Error.ofErrno operation path errno).kind = .alreadyExists ↔ errno = .entryExists := by
  refine ⟨errno_eq_of_kind (by decide) (by decide), ?_⟩
  rintro rfl
  rfl

/-! ## Opening -/

/-- Whether a call opens a file. -/
def Event.Opens (e : Event) : Prop := ∃ path how perm, e.call = .openFile path how perm

/-- Attempts to open a file in vain leave the machine as it is. -/
theorem Call.Attempts.opens {fails : Call → Errno → Prop} {restarts : Bool} {m : Machine}
    {tries : List Event} {path : Path} {how : OpenHow} {perm : UInt32} {errno : Errno}
    (h : (Call.openFile path how perm).Attempts fails restarts m tries (.error errno) m)
    {e : Event} (he : e ∈ tries) : e.Opens ∧ e.after = m := by
  rcases h.eq_of_mem he with rfl | ⟨rfl, -⟩
  · exact ⟨⟨_, _, _, rfl⟩, rfl⟩
  · exact ⟨⟨_, _, _, rfl⟩, rfl⟩

namespace Routine

variable {fails : Call → Errno → Prop} {m m' : Machine} {events : List Event}
  {operation : Operation} {path : Path}

/-- Where a path passes the check, nothing has happened. -/
theorem Runs.checkNul_ok (h : Runs fails (checkNul operation path) m events (.ok ()) m') :
    path.hasNul = false ∧ events = [] ∧ m' = m := by
  unfold checkNul at h
  split at h
  · obtain ⟨-, h, -⟩ := runs_fail_iff.1 h
    cases h
  · rename_i hnul
    obtain ⟨hevents, -, hm⟩ := runs_pure_iff.1 h
    exact ⟨by simpa using hnul, hevents, hm⟩

/-- Where a path does not pass the check, nothing has happened either. -/
theorem Runs.checkNul_error {e : Error}
    (h : Runs fails (checkNul operation path) m events (.error e) m') :
    path.hasNul = true ∧ e = .nulInPath operation path ∧ events = [] ∧ m' = m := by
  unfold checkNul at h
  split at h
  · rename_i hnul
    obtain ⟨hevents, he, hm⟩ := runs_fail_iff.1 h
    cases he
    exact ⟨hnul, rfl, hevents, hm⟩
  · obtain ⟨-, h, -⟩ := runs_pure_iff.1 h
    cases h

/-- The check makes no call. -/
theorem uses_checkNul {C : Call → Prop} : Uses C (checkNul operation path) := by
  unfold checkNul
  split
  · exact uses_fail _
  · exact uses_pure _

end Routine

namespace Posix

variable {fails : Call → Errno → Prop} {m m' : Machine} {events : List Event} {path : Path}
  {perm : UInt32} {flags : OpenFlags}

/-- A file that is opened for writing is open under the number that the writer holds. -/
theorem openWriter_ok {operation : Operation} {how : OpenHow} {w : Writer}
    (hrun : Routine.Runs fails (openWriter operation path how perm flags) m events (.ok w) m') :
    path.hasNul = false ∧ ∃ file, w = ⟨file, path, flags.has .deleteOnClose⟩
      ∧ m.openFile path how perm = .ok (file, m')
      ∧ (Call.openFile path how perm).Attempts fails true m events (.ok file) m' := by
  obtain ⟨first, rest, between, _, rfl, hnul, hrest⟩ := hrun.bind_ok
  obtain ⟨hpath, rfl, rfl⟩ := hnul.checkNul_ok
  obtain ⟨first, last, after, file, rfl, hopen, hlast⟩ := hrest.bind_ok
  obtain ⟨rfl, h, rfl⟩ := Routine.runs_pure_iff.1 hlast
  cases h
  have hattempts := hopen.callWith_ok
  have hperform := hattempts.outcome.perform_eq_ok fun _ _ h => by cases h
  rw [List.append_nil]
  exact ⟨hpath, file, rfl, hperform, hattempts⟩

/-- Where no file is opened for writing, nothing has happened: the path cannot be asked for, or the
system does not open it. -/
theorem openWriter_error {operation : Operation} {how : OpenHow} {e : Error}
    (hrun : Routine.Runs fails (openWriter operation path how perm flags) m events (.error e) m') :
    m' = m ∧ ((events = [] ∧ path.hasNul = true ∧ e = .nulInPath operation path) ∨
      ∃ errno, (Call.openFile path how perm).Attempts fails true m events (.error errno) m
        ∧ e = .ofErrno operation path errno) := by
  rcases Routine.runs_bind_iff.1 hrun with
    ⟨_, h, hnul⟩ | ⟨first, rest, between, _, rfl, hnul, hrest⟩
  · cases h
    obtain ⟨hpath, rfl, rfl, rfl⟩ := hnul.checkNul_error
    exact ⟨rfl, Or.inl ⟨rfl, hpath, rfl⟩⟩
  obtain ⟨-, rfl, rfl⟩ := hnul.checkNul_ok
  rcases Routine.runs_bind_iff.1 hrest with ⟨_, h, hopen⟩ | ⟨_, _, _, _, -, -, hlast⟩
  · cases h
    obtain ⟨errno, hattempts, rfl⟩ := hopen.callWith_error
    obtain rfl := hattempts.outcome.eq_of_error
    exact ⟨rfl, Or.inr ⟨errno, hattempts, rfl⟩⟩
  · obtain ⟨-, h, -⟩ := Routine.runs_pure_iff.1 hlast
    cases h

end Posix

namespace Writing

variable {fails : Call → Errno → Prop} {m m' : Machine} {events : List Event}

/-- A name that is spelled from the next random word. -/
def drawSpelled (spell : UInt32 → Name) : Program Name := do
  return spell (← Program.question .draw)

/-- Drawing a name spells it from the next word, and concerns nothing else. -/
theorem drawSpelled_runs {spell : UInt32 → Name} {name : Name}
    (hrun : Program.Runs fails (drawSpelled spell) m events name m') :
    events = [] ∧ name = spell (m.draws m.drawn) ∧ m' = m.drew 1 := by
  obtain ⟨first, rest, between, word, rfl, hword, hrest⟩ := Program.runs_bind_iff.1 hrun
  obtain ⟨rfl, rfl, rfl⟩ := Program.runs_question_iff.1 hword
  obtain ⟨rfl, rfl, rfl⟩ := Program.runs_done_iff.1 hrest
  exact ⟨rfl, rfl, rfl⟩

theorem deleteOnClose_only_sync (flags : OpenFlags) :
    (flags.only .sync).has .deleteOnClose = false := by
  have hbits : OpenFlag.sync.bit &&& OpenFlag.deleteOnClose.bit = 0 := by decide
  have hbit : ¬ (0 : UInt32) = OpenFlag.deleteOnClose.bit := by decide
  simp [OpenFlags.has, OpenFlags.only, UInt32.and_assoc, hbits, hbit]

/-! ## One name after the other -/

/-- A search for a free name: where the file shall be, how the names are spelled, and how the file
is made. -/
structure NameSearch where
  directory : Path
  spell : UInt32 → Name
  perm : UInt32
  flags : OpenFlags

namespace NameSearch

variable {s : NameSearch} {attempts : Nat} {outcome : Except Error (Path × Writer)}

/-- The path with the name that is spelled from the `k`-th of the next words. -/
def path (s : NameSearch) (m : Machine) (k : Nat) : Path :=
  s.directory.join (s.spell (m.draws (m.drawn + k)))

theorem path_drew (s : NameSearch) (m : Machine) (count k : Nat) :
    s.path (m.drew count) k = s.path m (count + k) := by
  rw [path, path, ← Nat.add_assoc]
  rfl

/-- The search, in which at most so many names are tried. -/
def routine (s : NameSearch) (attempts : Nat) : Routine (Path × Writer) :=
  createNamed Posix.platform s.directory s.perm s.flags (drawSpelled s.spell) attempts

/-- The search for one of the names that an atomic write draws. -/
def drawing (directory : Path) (perm : UInt32) (flags : OpenFlags) : NameSearch where
  directory := directory
  spell word := Bytes.ofString (Text.Numeral.decimalString word.toNat)
  perm := perm
  flags := flags

/-- The ways in which making a file at a path is refused, other than that something is there: the
path cannot be asked for, and no call is made, or the system does not open the file. -/
inductive Refuses (fails : Call → Errno → Prop) (m : Machine) (path : Path) (perm : UInt32) :
    List Event → Error → Prop where
  | nul (hnul : path.hasNul = true) : Refuses fails m path perm [] (.nulInPath .createTemp path)
  | system {tries : List Event} {errno : Errno} (hother : errno ≠ .entryExists)
      (hcall : (Call.openFile path .making perm).Attempts fails true m tries (.error errno) m) :
      Refuses fails m path perm tries (.ofErrno .createTemp path errno)

theorem Refuses.opens {path : Path} {perm : UInt32} {e : Error}
    (h : Refuses fails m path perm events e) : ∀ event ∈ events, event.Opens ∧ event.after = m := by
  intro event hevent
  cases h with
  | nul _ => cases hevent
  | system _ hcall => exact hcall.opens hevent

/-- The calls that try the next name and find that something is in the way. -/
def Collides (fails : Call → Errno → Prop) (s : NameSearch) (m : Machine) (tries : List Event) :
    Prop :=
  (Call.openFile (s.path m 0) .making s.perm).Attempts fails true (m.drew 1) tries
    (.error .entryExists) (m.drew 1)

theorem Collides.opens {tries : List Event} (h : s.Collides fails m tries) :
    ∀ e ∈ tries, e.Opens ∧ e.after.tree = m.tree := by
  intro e he
  obtain ⟨hopens, hafter⟩ := Call.Attempts.opens h he
  exact ⟨hopens, by rw [hafter]; rfl⟩

/-- What comes of a search in which the next name is tried: it ends with a new file there, or with
an error, or something is there and the search goes on with one attempt less. -/
inductive Tried (fails : Call → Errno → Prop) (s : NameSearch) (attempts : Nat) (m : Machine) :
    List Event → Except Error (Path × Writer) → Machine → Prop where
  | made {tries : List Event} {file : Descriptor} {m' : Machine}
      (hnul : (s.path m 0).hasNul = false)
      (hopen : (m.drew 1).openFile (s.path m 0) .making s.perm = .ok (file, m'))
      (hcall : (Call.openFile (s.path m 0) .making s.perm).Attempts fails true (m.drew 1) tries
        (.ok file) m') :
      Tried fails s attempts m tries (.ok (s.path m 0, ⟨file, s.path m 0, false⟩)) m'
  | refused {events : List Event} {e : Error}
      (hrefuses : Refuses fails (m.drew 1) (s.path m 0) s.perm events e) :
      Tried fails s attempts m events (.error e) (m.drew 1)
  | taken {tries rest : List Event} {outcome : Except Error (Path × Writer)} {m' : Machine}
      (htaken : s.Collides fails m tries)
      (hrest : Routine.Runs fails (s.routine attempts) (m.drew 1) rest outcome m') :
      Tried fails s attempts m (tries ++ rest) outcome m'

/-- One attempt of a search. -/
theorem tried_of_runs (hrun : Routine.Runs fails (s.routine (attempts + 1)) m events outcome m') :
    Tried fails s attempts m events outcome m' := by
  rcases Routine.runs_bind_iff.1 hrun with
    ⟨e, -, hname⟩ | ⟨first, rest, asked, name, rfl, hname, hmaking⟩
  · obtain ⟨_, h, -⟩ := Routine.runs_lift_iff.1 hname
    cases h
  obtain ⟨_, h, hname⟩ := Routine.runs_lift_iff.1 hname
  cases h
  obtain ⟨rfl, rfl, rfl⟩ := drawSpelled_runs hname
  rw [List.nil_append]
  rcases Routine.runs_bind_iff.1 hmaking with
    ⟨e, -, hattempt⟩ | ⟨first, rest, between, result, rfl, hattempt, hrest⟩
  · obtain ⟨_, h, -⟩ := Routine.runs_attempt_iff.1 hattempt
    cases h
  obtain ⟨_, h, hattempt⟩ := Routine.runs_attempt_iff.1 hattempt
  cases h
  clear hrun hmaking
  cases result with
  | ok w =>
    obtain ⟨hnul, file, rfl, hopen, hcall⟩ := Posix.openWriter_ok hattempt
    obtain ⟨rfl, rfl, rfl⟩ := Routine.runs_pure_iff.1 hrest
    rw [deleteOnClose_only_sync, List.append_nil]
    exact .made hnul hopen hcall
  | error e =>
    obtain ⟨rfl, hcause⟩ := Posix.openWriter_error hattempt
    simp only at hrest
    split at hrest
    · -- The name is taken, and another one is tried.
      rename_i hkind
      obtain ⟨rfl, -, rfl⟩ | ⟨errno, hcall, rfl⟩ := hcause
      · cases hkind
      obtain rfl := Error.kind_ofErrno_eq_alreadyExists_iff.1 hkind
      exact .taken hcall hrest
    · rename_i hkind
      obtain ⟨rfl, rfl, rfl⟩ := Routine.runs_fail_iff.1 hrest
      rw [List.append_nil]
      obtain ⟨rfl, hnul, rfl⟩ | ⟨errno, hcall, rfl⟩ := hcause
      · exact .refused (.nul hnul)
      · refine .refused (.system ?_ hcall)
        rintro rfl
        exact hkind rfl

end NameSearch

/-- Making a new file under a drawn name fails, and the tree is the one before, or it begins the
preparation of the file. -/
theorem createNamed_runs {directory : Path} {perm : UInt32} {flags : OpenFlags} {attempts : Nat}
    {outcome : Except Error (Path × Writer)}
    (hrun : Routine.Runs fails
      (createNamed Posix.platform directory perm flags drawName attempts) m events outcome m') :
    ((∃ e, outcome = .error e) ∧ m'.tree = m.tree ∧ ∀ e ∈ events, e.Opens ∧ e.after.tree = m.tree)
      ∨ ∃ s : Stage, m.Asked s.start ∧ (∃ k, s.path = directory.join (m.tempName k))
          ∧ s.path.hasNul = false ∧ outcome = .ok (s.path, ⟨s.file, s.path, false⟩)
          ∧ s.At [] (m.masked perm) m' ∧ m'.process = s.start.process
          ∧ ∀ e ∈ events, e.Opens ∧ (e.after.tree = m.tree ∨ e.after = m') := by
  induction attempts generalizing m events with
  | zero =>
    obtain ⟨rfl, rfl, rfl⟩ := Routine.runs_fail_iff.1 hrun
    exact Or.inl ⟨⟨_, rfl⟩, rfl, fun e he => by cases he⟩
  | succ attempts ih =>
    cases NameSearch.tried_of_runs (s := .drawing directory perm flags) hrun with
    | @made tries file _ hnul hopen hcall =>
      obtain ⟨s, hstart, hpath, rfl, hat⟩ := Stage.of_openFile hopen
      refine Or.inr ⟨s, hstart ▸ .drew m 1, ⟨m.drawn, hpath⟩, hpath ▸ hnul, by rw [hpath], hat,
        hstart ▸ Machine.process_openFile hopen, fun e he => ?_⟩
      rcases hcall.eq_of_mem he with rfl | ⟨rfl, -⟩
      · exact ⟨⟨_, _, _, rfl⟩, Or.inr rfl⟩
      · exact ⟨⟨_, _, _, rfl⟩, Or.inl rfl⟩
    | refused hrefuses =>
      refine Or.inl ⟨⟨_, rfl⟩, rfl, fun e he => ?_⟩
      obtain ⟨hopens, hafter⟩ := hrefuses.opens e he
      exact ⟨hopens, by rw [hafter]; rfl⟩
    | taken htaken hrest =>
      have hopens := htaken.opens
      rcases ih hrest with
        ⟨he, htree, hevents⟩ | ⟨s, hstart, hpath, hnul, rfl, hat, hprocess, hevents⟩
      · exact Or.inl ⟨he, htree, List.forall_mem_append.2 ⟨hopens, hevents⟩⟩
      · exact Or.inr ⟨s, (Machine.Asked.drew m 1).trans hstart, hpath, hnul, rfl, hat, hprocess,
          List.forall_mem_append.2 ⟨fun e he => (hopens e he).imp_right Or.inl, hevents⟩⟩

/-- Whether a path is that of the first drawn name for which opening did not say that it is taken,
of so many that are tried. -/
def FirstFree (m : Machine) (directory : Path) (perm : UInt32) (attempts : Nat)
    (events : List Event) (path : Path) : Prop :=
  ∃ k < attempts, path = directory.join (m.tempName (m.drawn + k))
    ∧ ∀ j < k, ∃ asked, m.Asked asked
      ∧ ⟨.openFile (directory.join (m.tempName (m.drawn + j))) .making perm, .error .entryExists,
          asked, asked⟩ ∈ events

/-- Making a new file, where it succeeds, tries the next drawn name: opening it is the last call, or
it is taken and the others follow. -/
theorem createNamed_succ_ok {directory : Path} {perm : UInt32} {flags : OpenFlags} {attempts : Nat}
    {made : Path × Writer}
    (hrun : Routine.Runs fails
      (createNamed Posix.platform directory perm flags drawName (attempts + 1)) m events (.ok made)
      m') :
    ∃ asked, m.Asked asked ∧ asked.drawn = m.drawn + 1 ∧
      ((∃ file, made.1 = directory.join (m.tempName m.drawn)
          ∧ asked.openFile made.1 .making perm = .ok (file, m')
          ∧ (Call.openFile made.1 .making perm).Attempts fails true asked events (.ok file) m')
        ∨ ∃ tries rest, events = tries ++ rest
            ∧ (Call.openFile (directory.join (m.tempName m.drawn)) .making perm).Attempts fails true
                asked tries (.error .entryExists) asked
            ∧ Routine.Runs fails
              (createNamed Posix.platform directory perm flags drawName attempts) asked rest
              (.ok made) m') := by
  refine ⟨m.drew 1, .drew m 1, rfl, ?_⟩
  generalize houtcome : (Except.ok made : Except Error (Path × Writer)) = outcome at hrun
  cases NameSearch.tried_of_runs (s := .drawing directory perm flags) hrun with
  | made _ hopen hcall =>
    cases houtcome
    exact Or.inl ⟨_, rfl, hopen, hcall⟩
  | refused _ => cases houtcome
  | taken htaken hrest =>
    subst houtcome
    exact Or.inr ⟨_, _, rfl, htaken, hrest⟩

/-- A new file is made by a process that may open files, under the first name that is not taken. -/
theorem firstFree_of_createNamed {directory : Path} {perm : UInt32} {flags : OpenFlags}
    {attempts : Nat} {made : Path × Writer}
    (hrun : Routine.Runs fails
      (createNamed Posix.platform directory perm flags drawName attempts) m events (.ok made) m') :
    m.mayOpen = true ∧ FirstFree m directory perm attempts events made.1 := by
  induction attempts generalizing m events with
  | zero =>
    obtain ⟨-, h, -⟩ := Routine.runs_fail_iff.1 hrun
    cases h
  | succ attempts ih =>
    obtain ⟨asked, hasked, hdrawn, ⟨file, hmade, hopen, -⟩ | ⟨tries, rest, rfl, hcall, hrest⟩⟩ :=
      createNamed_succ_ok hrun
    · have hmay := Machine.mayOpen_of_openFile hopen
      exact ⟨hasked.mayOpen.symm.trans hmay, 0, Nat.succ_pos _, hmade, fun j hj => by omega⟩
    · -- The name is taken, and another one is tried.
      obtain ⟨hmay, k, hk, hmade, htaken⟩ := ih hrest
      refine ⟨hasked.mayOpen.symm.trans hmay, k + 1, by omega, ?_, ?_⟩
      · rw [hmade, hasked.tempName, hdrawn, Nat.add_assoc, Nat.add_comm 1]
      · intro j hj
        cases j with
        | zero => exact ⟨asked, hasked, List.mem_append_left _ hcall.last_mem⟩
        | succ j =>
          obtain ⟨asked', hasked', hmem⟩ := htaken j (by omega)
          rw [hasked.tempName, hdrawn, Nat.add_assoc, Nat.add_comm 1] at hmem
          exact ⟨asked', hasked.trans hasked', List.mem_append_right _ hmem⟩

/-- Making a new file ends with the call that opens it.  Until then the tree stays as it is. -/
theorem openFile_of_createNamed {directory : Path} {perm : UInt32} {flags : OpenFlags}
    {attempts : Nat} {made : Path × Writer}
    (hrun : Routine.Runs fails
      (createNamed Posix.platform directory perm flags drawName attempts) m events (.ok made) m') :
    ∃ opening file before, m.Asked before
      ∧ before.openFile made.1 .making perm = .ok (file, m')
      ∧ events = opening ++ [⟨.openFile made.1 .making perm, .ok file, before, m'⟩]
      ∧ ∀ e ∈ opening, e.Opens ∧ e.after.tree = m.tree := by
  induction attempts generalizing m events with
  | zero =>
    obtain ⟨-, h, -⟩ := Routine.runs_fail_iff.1 hrun
    cases h
  | succ attempts ih =>
    obtain ⟨asked, hasked, -, ⟨file, -, hopen, hcall⟩ | ⟨tries, rest, rfl, hcall, hrest⟩⟩ :=
      createNamed_succ_ok hrun
    · obtain ⟨earlier, rfl, hearlier⟩ := hcall.exists_append
      refine ⟨earlier, file, asked, hasked, hopen, rfl, fun e he => ?_⟩
      obtain ⟨rfl, -⟩ := hearlier e he
      exact ⟨⟨_, _, _, rfl⟩, hasked.tree⟩
    · obtain ⟨opening, file, before, hbefore, hopen, rfl, hopening⟩ := ih hrest
      rw [hasked.tree] at hopening
      refine ⟨tries ++ opening, file, before, hasked.trans hbefore, hopen,
        (List.append_assoc ..).symm, List.forall_mem_append.2 ⟨fun e he => ?_, hopening⟩⟩
      obtain ⟨hopens, hafter⟩ := hcall.opens he
      exact ⟨hopens, by rw [hafter]; exact hasked.tree⟩

end Writing

end PortableFiles
