import PortableFiles.Proofs.Writing.Making
import PortableFiles.Writing.InPlace
set_option autoImplicit false

/-!
# Filling the new file

Filling writes all that the reader delivers, then brings the file to the device, then closes it
(`Writing.fill_ok`).  Whether or not that succeeds, nothing but the new file changes
(`Writing.uses_fill_concerns` with `Stage.Holds.of_runs`).
-/

namespace PortableFiles

variable {fails : Call → Errno → Prop} {s : Stage} {m m' : Machine} {events : List Event}

/-- While a routine makes only calls that concern the file, all else stays as it was. -/
theorem Stage.Holds.of_runs {α : Type} {t : Routine α} {outcome : Except Error α}
    (h : s.Holds m) (huses : Routine.Uses s.Concerns t)
    (hrun : Routine.Runs fails t m events outcome m') :
    s.Holds m' ∧ ∀ e ∈ events, s.Concerns e.call ∧ s.Holds e.before ∧ s.Holds e.after := by
  refine Program.Runs.invariant ?_ ?_ hrun huses h
  · intro c reply m m' hc houtcome hm
    exact hm.of_outcome hc houtcome
  · rintro q m ⟨data, perm, hat⟩
    exact ⟨data, perm, hat.answer q⟩

/-- The writer of the file. -/
def Stage.writer (s : Stage) : Writer := ⟨s.file, s.path, false⟩

/-! ## Filling -/

namespace Posix

/-- What closing makes of the answer of the system. -/
def closed (path : Path) : Except Errno Unit → Routine Unit
  | .ok () => pure ()
  | .error errno =>
    if errno = .interrupted then pure () else Routine.fail (.ofErrno .close path errno)

theorem close_eq (file : Descriptor) (path : Path) :
    close ⟨file, path, false⟩ = Routine.lift (Program.perform (.close file)) >>= closed path := by
  unfold close
  refine congrArg _ (funext fun reply => ?_)
  cases reply with
  | ok _ => rfl
  | error errno =>
    unfold closed
    by_cases h : errno = .interrupted
    · simp only [h]
      rfl
    · simp only [ne_eq, h]
      rfl

theorem close_writer :
    close s.writer = Routine.lift (Program.perform (.close s.file)) >>= closed s.path :=
  close_eq s.file s.path

theorem uses_close {C : Call → Prop} (hclose : C (.close s.file)) :
    Routine.Uses C (close s.writer) := by
  rw [close_writer]
  refine Routine.uses_bind (Routine.uses_lift ⟨hclose, fun _ => trivial⟩) ?_
  intro reply
  cases reply with
  | ok _ => exact Routine.uses_pure ()
  | error errno =>
    rw [closed]
    split
    · exact Routine.uses_pure ()
    · exact Routine.uses_fail _

/-- Closing asks the system to close the file.  Where it did, or a signal came while it did, the
entry of the file may be removed. -/
theorem close_runs {w : Writer} {outcome : Except Error Unit}
    (hrun : Routine.Runs fails (close w) m events outcome m') :
    ∃ reply rest between, events = ⟨.close w.file, reply, m, between⟩ :: rest
      ∧ (Call.close w.file).Outcome fails m reply between
      ∧ (((reply = .ok () ∨ reply = .error .interrupted)
          ∧ Routine.Runs fails (if w.deleteOnClose then removeFile w.path else pure ()) between rest
            outcome m')
        ∨ (rest = [] ∧ m' = between ∧ ∃ e, outcome = .error e ∧ e.operation = .close)) := by
  rcases Routine.runs_bind_iff.1 hrun with
    ⟨_, _, hlift⟩ | ⟨first, rest, _, reply, rfl, hlift, hrest⟩
  · obtain ⟨_, h, -⟩ := Routine.runs_lift_iff.1 hlift
    cases h
  obtain ⟨_, h, hcall⟩ := Routine.runs_lift_iff.1 hlift
  cases h
  obtain ⟨houtcome, rfl⟩ := Program.runs_perform_iff.1 hcall
  refine ⟨reply, rest, _, rfl, houtcome, ?_⟩
  cases reply with
  | ok _ => exact Or.inl ⟨Or.inl rfl, hrest⟩
  | error errno =>
    simp only at hrest
    split at hrest
    · rcases Routine.runs_bind_iff.1 hrest with ⟨e, rfl, hfail⟩ | ⟨_, _, _, _, -, hfail, -⟩
      · obtain ⟨rfl, h, rfl⟩ := Routine.runs_fail_iff.1 hfail
        cases h
        exact Or.inr ⟨rfl, rfl, _, rfl, rfl⟩
      · obtain ⟨-, h, -⟩ := Routine.runs_fail_iff.1 hfail
        cases h
    · rename_i hinterrupted
      exact Or.inl ⟨Or.inr (congrArg Except.error (Decidable.not_not.1 hinterrupted)), hrest⟩

/-- Closing succeeds where the system closes the file, or where a signal came while it did. -/
theorem close_ok (hrun : Routine.Runs fails (close s.writer) m events (.ok ()) m') :
    ∃ reply, (Call.close s.file).Outcome fails m reply m'
      ∧ (reply = .ok () ∨ reply = .error .interrupted)
      ∧ events = [⟨.close s.file, reply, m, m'⟩] := by
  obtain ⟨reply, rest, between, rfl, houtcome, ⟨hreply, hrest⟩ | ⟨-, -, _, h, -⟩⟩ := close_runs hrun
  · obtain ⟨rfl, -, rfl⟩ := Routine.runs_pure_iff.1 hrest
    exact ⟨reply, houtcome, hreply, rfl⟩
  · cases h

end Posix

namespace Writing

/-- Filling writes to the file, brings it to the device, describes it and closes it. -/
theorem uses_fill {C : Call → Prop} (hwrite : ∀ data, C (.write s.file data))
    (hsync : C (.sync s.file)) (hstat : C (.statOpen s.file)) (hclose : C (.close s.file))
    {reader : Reader} (hquiet : reader.IsQuiet) :
    Routine.Uses C (fill Posix.platform s.writer reader) := by
  have hwriting : Routine.Uses C (do
      let _ ← reader.copyTo s.path (Routine.writeAll s.path s.file)
      Posix.platform.sync s.writer
      Posix.platform.perm s.writer) := by
    refine Routine.uses_bind
      (Reader.uses_copyTo (Routine.uses_writeAll hwrite) hquiet) fun _ => ?_
    refine Routine.uses_bind (Routine.uses_call hsync) ?_
    intro _
    exact Routine.uses_bind (Routine.uses_call hstat) fun _ => Routine.uses_pure _
  refine Routine.uses_bind (Routine.uses_withCleanup ⟨hclose, fun _ => trivial⟩ hwriting) ?_
  intro _
  exact Routine.uses_bind (Posix.uses_close hclose) fun _ => Routine.uses_pure _

theorem uses_fill_concerns {reader : Reader} (hquiet : reader.IsQuiet) :
    Routine.Uses s.Concerns (fill Posix.platform s.writer reader) := by
  refine uses_fill ?_ ?_ ?_ ?_ hquiet
  · exact fun _ => rfl
  all_goals rfl

/-- Filling that succeeds has written everything, brought it to the device and closed the file, in
this order. -/
theorem fill_ok {reader : Reader} (hquiet : reader.IsQuiet) {created : UInt32}
    (hrun : Routine.Runs fails (fill Posix.platform s.writer reader) m events (.ok created) m') :
    ∃ writes written stat reply,
      events = writes ++ [⟨.sync s.file, .ok (), written, written⟩,
        ⟨.statOpen s.file, .ok stat, written, written⟩, ⟨.close s.file, reply, written, m'⟩]
      ∧ s.Appended reader.delivered m writes written
      ∧ written.statOpen s.file = .ok (stat, written)
      ∧ (Call.close s.file).Outcome fails written reply m'
      ∧ (reply = .ok () ∨ reply = .error .interrupted)
      ∧ created = stat.perm &&& permMask := by
  obtain ⟨first, rest, between, perm, rfl, hfirst, hrest⟩ := hrun.bind_ok
  obtain ⟨closing, last, closed, _, rfl, hclosing, hlast⟩ := hrest.bind_ok
  obtain ⟨rfl, h, rfl⟩ := Routine.runs_pure_iff.1 hlast
  cases h
  obtain ⟨reply, hclose, hreply, rfl⟩ := Posix.close_ok hclosing
  rcases Routine.runs_withCleanup_iff.1 hfirst with ⟨_, h, hwriting⟩ | ⟨_, _, _, _, h, -⟩
  · cases h
    obtain ⟨writes, rest, written, count, rfl, hcopy, hchecking⟩ := hwriting.bind_ok
    have happended := Reader.copyTo_ok (Stage.Appended.transfers s) hquiet hcopy
    obtain ⟨syncing, looking, synced, _, rfl, hsync, hlooking⟩ := hchecking.bind_ok
    obtain ⟨hsynced, rfl⟩ := hsync.call_ok
    have hperform := hsynced.perform_eq_ok fun _ _ h => by cases h
    obtain rfl := Call.machine_perform_of_looks (by trivial) hperform
    obtain ⟨looking, last, looked, stat, rfl, hstat, hlast⟩ := hlooking.bind_ok
    obtain ⟨hlooked, rfl⟩ := hstat.call_ok
    have hperform := hlooked.perform_eq_ok fun _ _ h => by cases h
    obtain rfl := Call.machine_perform_of_looks (by trivial) hperform
    obtain ⟨rfl, h, rfl⟩ := Routine.runs_pure_iff.1 hlast
    cases h
    refine ⟨writes, _, stat, reply, ?_, happended, hperform, hclose, hreply, rfl⟩
    simp [Stage.writer]
  · cases h

end Writing

end PortableFiles
