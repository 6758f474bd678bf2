import PortableFiles.Proofs.Writing.Course
import PortableFiles.Proofs.Writing.Site
set_option autoImplicit false

/-!
# The course of a write in place

A run opens the destination or fails to, and then nothing has happened.  It copies the stream and
sets the permissions that are given, then closes the file and removes the entry if that was asked;
or it breaks off on the way and closes the file.  There is no other course
(`Writing.inPlaceCourse_of_runs`).
-/

namespace PortableFiles

variable {fails : Call → Errno → Prop} {m m' : Machine} {events : List Event}

/-! ## Setting permissions, closing and removing -/

/-- A call for a path that is looked at first: nothing has happened, or the call was made. -/
theorem Routine.checked_runs {operation : Operation} {path : Path} {c : Call}
    (hwrite : ∀ file data, c ≠ .write file data) {outcome : Except Error c.Value}
    (hrun : Runs fails (checkNul operation path >>= fun _ => call operation path c) m events outcome
      m') :
    (m' = m ∧ ∃ e, outcome = .error e ∧ e.operation = operation)
      ∨ ∃ value, outcome = .ok value ∧ c.perform m = .ok (value, m') := by
  rcases runs_bind_iff.1 hrun with ⟨e, rfl, hnul⟩ | ⟨first, rest, between, _, rfl, hnul, hcall⟩
  · obtain ⟨-, rfl, -, rfl⟩ := hnul.checkNul_error
    exact Or.inl ⟨rfl, _, rfl, rfl⟩
  obtain ⟨-, rfl, rfl⟩ := hnul.checkNul_ok
  obtain ⟨reply, houtcome, -, rfl⟩ := runs_call_iff.1 hcall
  cases reply with
  | error errno => exact Or.inl ⟨houtcome.eq_of_error, _, rfl, rfl⟩
  | ok value => exact Or.inr ⟨value, rfl, houtcome.perform_eq_ok hwrite⟩

namespace Posix

/-- How the flags ask for a destination to be opened. -/
theorem howFor_eq (flags : OpenFlags) : howFor flags =
    { write := true
      create := true
      exclusive := flags.has .exclusive
      truncate := !flags.has .append
      append := flags.has .append } := by
  unfold howFor
  cases flags.has .append <;> rfl

end Posix

/-- Whether a file that had some permissions has the ones that it should: those that are given,
exactly these where the process may give them, or else the ones that it had, apart from bits that
writing takes away. -/
def Machine.Grants (m : Machine) (given : Option UInt32) (before : UInt32) (node : Inode) : Prop :=
  match given with
  | some perm => m.Honours node (perm &&& permMask)
  | none => Trimmed before node.perm

namespace Site

variable {s : Site} {reader : Reader} {given : Option UInt32}

/-- The writer of the file. -/
def writer (s : Site) (removes : Bool) : Writer := ⟨s.file, s.path, removes⟩

/-- Whether a file was opened on a machine at a path. -/
structure Opens (s : Site) (m : Machine) (path : Path) (how : OpenHow) (asked : UInt32) : Prop where
  path : s.path = path
  process : s.start.process = m.process
  begun : s.Begun m how asked

/-- Where the writing of a file broke off. -/
inductive Broken (s : Site) (reader : Reader) (e : Error) (m : Machine) : Prop where
  /-- The reader failed, after which all that came before is written. -/
  | unread {perm : UInt32} (hends : ¬ reader.Ends) (he : e.operation = .read)
      (hperm : Trimmed s.node.perm perm) (hat : s.At reader.delivered perm m) : Broken s reader e m
  /-- A write failed. -/
  | unwritten {done : Bytes} {perm : UInt32} (hdone : done <+: reader.delivered)
      (he : e.operation = .write) (hperm : Trimmed s.node.perm perm) (hat : s.At done perm m) :
      Broken s reader e m
  /-- Everything is written, but the permissions were not set, the file was not closed, or its
  entry was not removed. -/
  | unfinished {perm : UInt32} (hends : reader.Ends)
      (he : e.operation = .chmod ∨ e.operation = .close ∨ e.operation = .remove)
      (hat : s.At reader.delivered perm m) : Broken s reader e m

/-- The file is still there, with what was written to it, which is less than everything only where a
write failed. -/
theorem Broken.exists_at {e : Error} (h : s.Broken reader e m) :
    ∃ done perm, s.At done perm m ∧ done <+: reader.delivered
      ∧ (e.operation = .write ∨ done = reader.delivered) := by
  cases h with
  | unread _ _ _ hat => exact ⟨_, _, hat, List.prefix_rfl, Or.inr rfl⟩
  | unwritten hdone he _ hat => exact ⟨_, _, hat, hdone, Or.inl he⟩
  | unfinished _ _ hat => exact ⟨_, _, hat, List.prefix_rfl, Or.inr rfl⟩

/-- Once closed, the file stays as it is. -/
theorem Broken.of_close {e : Error} {reply : Except Errno Unit} (h : s.Broken reader e m)
    (houtcome : (Call.close s.file).Outcome fails m reply m') : s.Broken reader e m' := by
  cases h with
  | unread hends he hperm hat => exact .unread hends he hperm (hat.of_close houtcome)
  | unwritten hdone he hperm hat => exact .unwritten hdone he hperm (hat.of_close houtcome)
  | unfinished hends he hat => exact .unfinished hends he (hat.of_close houtcome)

/-- Copying a stream to the file and setting the permissions that are given. -/
theorem fill_runs (hquiet : reader.IsQuiet) {outcome : Except Error Unit}
    (hrun : Routine.Runs fails (do
      let _ ← reader.copyTo s.path (Routine.writeAll s.path s.file)
      match given with
      | some perm => Posix.platform.chmod s.path perm
      | none => pure ()) s.start events outcome m') :
    (∃ e, outcome = .error e ∧ s.Broken reader e m')
      ∨ (outcome = .ok () ∧ reader.Ends ∧ ∃ perm, s.At reader.delivered perm m'
          ∧ s.start.Grants given s.node.perm (s.after reader.delivered perm)) := by
  rcases Routine.runs_bind_iff.1 hrun with
    ⟨e, rfl, hcopy⟩ | ⟨first, rest, between, count, rfl, hcopy, hrest⟩
  · cases Reader.copyTo_runs (Site.Appended.transfers s) hquiet hcopy with
    | unread hfails h =>
      obtain ⟨perm, hperm, hat⟩ := h (.start s)
      have hends : ¬ reader.Ends := by simp [Reader.ends_iff, hfails]
      exact Or.inl ⟨_, rfl, .unread hends rfl hperm hat⟩
    | unwritten hdone h he =>
      obtain ⟨perm, hperm, hat⟩ := h (.start s)
      exact Or.inl ⟨e, rfl, .unwritten hdone he hperm hat⟩
  · cases Reader.copyTo_runs (Site.Appended.transfers s) hquiet hcopy with
    | all hends h =>
      obtain ⟨perm, hperm, hat⟩ := h (.start s)
      rw [List.nil_append] at hat
      rw [← Reader.ends_iff] at hends
      cases given with
      | none =>
        obtain ⟨-, rfl, rfl⟩ := Routine.runs_pure_iff.1 hrest
        exact Or.inr ⟨rfl, hends, perm, hat, hperm⟩
      | some mode =>
        rcases Routine.checked_runs (fun _ _ h => by cases h) hrest with
          ⟨rfl, e, rfl, he⟩ | ⟨_, rfl, hchmod⟩
        · exact Or.inl ⟨e, rfl, .unfinished hends (Or.inl he) hat⟩
        · exact Or.inr ⟨rfl, hends, _, hat.chmod hchmod, .of_granted rfl rfl⟩

/-- Closing the file and, if that was asked, removing its entry. -/
theorem close_runs {removes : Bool} {perm : UInt32} (hends : reader.Ends)
    (hat : s.At reader.delivered perm m) {outcome : Except Error Unit}
    (hrun : Routine.Runs fails (Posix.close (s.writer removes)) m events outcome m') :
    (∃ e, outcome = .error e ∧ s.Broken reader e m')
      ∨ (outcome = .ok () ∧ ∃ written, s.At reader.delivered perm written ∧
          if removes then written.unlink s.path = .ok ((), m') else m' = written) := by
  obtain ⟨reply, _, closed, -, houtcome, hcases⟩ := Posix.close_runs hrun
  have hclosed := hat.of_close houtcome
  obtain ⟨-, hrest⟩ | ⟨-, rfl, e, rfl, he⟩ := hcases
  · cases removes with
    | false =>
      obtain ⟨-, rfl, rfl⟩ := Routine.runs_pure_iff.1 hrest
      exact Or.inr ⟨rfl, _, hclosed, rfl⟩
    | true =>
      rcases Routine.checked_runs (fun _ _ h => by cases h) hrest with
        ⟨rfl, e, rfl, he⟩ | ⟨_, rfl, hunlink⟩
      · exact Or.inl ⟨e, rfl, .unfinished hends (Or.inr (Or.inr he)) hclosed⟩
      · exact Or.inr ⟨rfl, closed, hclosed, hunlink⟩
  · exact Or.inl ⟨e, rfl, .unfinished hends (Or.inr (Or.inl he)) hclosed⟩

end Site

namespace Writing

open Posix (howFor)

/-- The four courses of a write in place, with their outcomes and last machines. -/
inductive InPlaceCourse (fails : Call → Errno → Prop) (m : Machine) (path : Path) (reader : Reader)
    (mode : UInt32) (options : Options) : Except Error Unit → Machine → Prop where
  /-- There is no path. -/
  | nowhere (hpath : path.isEmpty = true) :
      InPlaceCourse fails m path reader mode options (.error (.emptyPath .openFile)) m
  /-- The file is not opened. -/
  | unopened {e : Error}
      (hwhy : (path.hasNul = true ∧ e = .nulInPath .openFile path) ∨
        ∃ errno, (Call.openFile path (howFor options.flags) (mode &&& permMask)).Outcome fails m
          (.error errno) m ∧ e = .ofErrno .openFile path errno) :
      InPlaceCourse fails m path reader mode options (.error e) m
  /-- The file is opened, and its writing breaks off. -/
  | broken {s : Site} {e : Error} {m' : Machine}
      (hopens : s.Opens m path (howFor options.flags) (mode &&& permMask))
      (h : s.Broken reader e m') :
      InPlaceCourse fails m path reader mode options (.error e) m'
  /-- The file is written and closed, and its entry is removed if that was asked. -/
  | finished {s : Site} {perm : UInt32} {written m' : Machine}
      (hopens : s.Opens m path (howFor options.flags) (mode &&& permMask)) (hends : reader.Ends)
      (hat : s.At reader.delivered perm written)
      (hperm : s.start.Grants options.fileMode s.node.perm (s.after reader.delivered perm))
      (hend : if options.flags.has .deleteOnClose then written.unlink s.path = .ok ((), m')
        else m' = written) :
      InPlaceCourse fails m path reader mode options (.ok ()) m'

variable {path : Path} {reader : Reader} {mode : UInt32} {options : Options}

/-- What is opened for a write in place is a file at the path. -/
theorem exists_opens {file : Descriptor}
    (h : m.openFile path (howFor options.flags) (mode &&& permMask) = .ok (file, m')) :
    ∃ s : Site, s.start = m' ∧ s.file = file
      ∧ s.Opens m path (howFor options.flags) (mode &&& permMask) := by
  have hprocess := Machine.process_openFile h
  have hhow := Posix.howFor_eq options.flags
  obtain ⟨s, rfl, rfl, rfl, hbegun⟩ := Site.of_openFile (by rw [hhow]) (by rw [hhow]) (by rw [hhow])
    (by rw [hhow]) (by rw [hhow]; simp) h
  exact ⟨s, rfl, rfl, rfl, hprocess, hbegun⟩

/-- Writing to a file that is open ends in one of two courses. -/
theorem inPlaceCourse_of_opens {s : Site}
    (hopens : s.Opens m path (howFor options.flags) (mode &&& permMask)) (hquiet : reader.IsQuiet)
    {outcome : Except Error Unit}
    (hrun : Routine.Runs fails (do
      Routine.withCleanup (Posix.platform.abandon (s.writer (options.flags.has .deleteOnClose))) do
        let _ ← reader.copyTo s.path (Routine.writeAll s.path s.file)
        match options.fileMode with
        | some perm => Posix.platform.chmod s.path perm
        | none => pure ()
      Posix.close (s.writer (options.flags.has .deleteOnClose))
      Posix.platform.finishDestination s.path options) s.start events outcome m') :
    InPlaceCourse fails m path reader mode options outcome m' := by
  rcases Routine.runs_bind_iff.1 hrun with ⟨e, rfl, hfill⟩ | ⟨_, _, filled, _, -, hfill, hrest⟩
  · rcases Routine.runs_withCleanup_iff.1 hfill with ⟨_, h, -⟩ | ⟨_, _, _, _, h, -, hfill, hclose⟩
    · cases h
    cases h
    rcases Site.fill_runs hquiet hfill with ⟨_, h, hbroken⟩ | ⟨h, -⟩
    · cases h
      obtain ⟨_, _, between, _, -, hcall, hdone⟩ := Program.runs_bind_iff.1 hclose
      obtain ⟨houtcome, -⟩ := Program.runs_perform_iff.1 hcall
      obtain ⟨-, -, rfl⟩ := Program.runs_done_iff.1 hdone
      exact .broken hopens (hbroken.of_close houtcome)
    · cases h
  rcases Routine.runs_withCleanup_iff.1 hfill with ⟨_, -, hfill⟩ | ⟨_, _, _, _, h, -⟩
  · rcases Site.fill_runs hquiet hfill with ⟨_, h, -⟩ | ⟨-, hends, perm, hat, hperm⟩
    · cases h
    rcases Routine.runs_bind_iff.1 hrest with ⟨e, rfl, hclose⟩ | ⟨_, _, _, _, -, hclose, hlast⟩
    · rcases Site.close_runs hends hat hclose with ⟨_, h, hbroken⟩ | ⟨h, -⟩
      · cases h
        exact .broken hopens hbroken
      · cases h
    · obtain ⟨-, rfl, rfl⟩ := Routine.runs_pure_iff.1 hlast
      rcases Site.close_runs hends hat hclose with ⟨_, h, -⟩ | ⟨-, written, hwritten, hend⟩
      · cases h
      · exact .finished hopens hends hwritten hperm hend
  · cases h

/-- Every run takes one of the four courses. -/
theorem inPlaceCourse_of_runs (hplain : options.atomically = false) (hquiet : reader.IsQuiet)
    {outcome : Except Error Unit}
    (hrun : Routine.Runs fails (fromReader Posix.platform path reader mode options) m events outcome
      m') : InPlaceCourse fails m path reader mode options outcome m' := by
  unfold fromReader at hrun
  rw [if_neg (by simp [hplain])] at hrun
  split at hrun
  · rename_i hpath
    obtain ⟨-, rfl, rfl⟩ := Routine.runs_fail_iff.1 hrun
    exact .nowhere hpath
  rcases Routine.runs_bind_iff.1 hrun with ⟨_, _, hready⟩ | ⟨_, _, _, _, -, hready, hrest⟩
  · obtain ⟨-, h, -⟩ := Routine.runs_pure_iff.1 hready
    cases h
  obtain ⟨-, -, rfl⟩ := Routine.runs_pure_iff.1 hready
  rcases Routine.runs_bind_iff.1 hrest with ⟨e, rfl, hopen⟩ | ⟨_, _, _, w, -, hopen, hwriting⟩
  · obtain ⟨rfl, ⟨-, hwhy⟩ | ⟨errno, hcall, rfl⟩⟩ := Posix.openWriter_error hopen
    · exact .unopened (Or.inl hwhy)
    · exact .unopened (Or.inr ⟨errno, hcall.outcome, rfl⟩)
  · obtain ⟨-, file, rfl, hopened, -⟩ := Posix.openWriter_ok hopen
    obtain ⟨s, rfl, rfl, hopens⟩ := exists_opens hopened
    obtain rfl := hopens.path
    exact inPlaceCourse_of_opens hopens hquiet hwriting

end Writing

end PortableFiles
