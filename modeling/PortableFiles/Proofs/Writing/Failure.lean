import PortableFiles.Proofs.Writing.Beside
set_option autoImplicit false

/-!
# Atomic writes that fail

Whatever makes an atomic write fail, at whatever call, nothing is different afterwards and no file
is left over (`AtomicWrite.unchanged_of_error`).
-/

namespace PortableFiles

variable {fails : Call → Errno → Prop} {s : Stage} {m m' : Machine} {events : List Event}

/-- The removal of the new file, which can fail only if removals do, leaves it without a name. -/
theorem Writing.Begun.same_of_removal {path : Path} {options : Options} {opening : List Event}
    {made between : Machine} {reply : Except Errno Unit}
    (h : Begun m path options s opening made) (hbetween : s.Holds between)
    (hremoves : ∀ path errno, ¬ fails (.unlink path) errno)
    (hremoval : (Call.unlink s.path).Outcome fails between reply m') :
    ∃ data perm, m'.tree.Same (m.tree.addInode (s.node data perm)) := by
  obtain ⟨data, perm, hat⟩ := hbetween
  cases reply with
  | ok _ => exact ⟨data, perm, h.same_of_unlink hat hremoval⟩
  | error errno =>
    obtain ⟨removed, hunlink, -⟩ := hat.unlink
    have hperform : between.unlink s.path = .error errno :=
      hremoval.perform_eq_error (hremoves _ _)
    rw [hunlink] at hperform
    cases hperform

theorem Writing.Begun.unchanged_of_removal {path : Path} {options : Options} {opening : List Event}
    {made between : Machine} {reply : Except Errno Unit}
    (h : Begun m path options s opening made) (hbetween : s.Holds between)
    (hremoves : ∀ path errno, ¬ fails (.unlink path) errno)
    (hremoval : (Call.unlink s.path).Outcome fails between reply m') :
    m.tree.Unchanged m'.tree := by
  obtain ⟨data, perm, hsame⟩ := h.same_of_removal hbetween hremoves hremoval
  exact .of_addInode Stage.node_content hsame

/-- A course that ends with an error leaves everything as it was. -/
theorem Writing.Course.unchanged {path : Path} {reader : Reader} {options : Options} {e : Error}
    (h : Course fails m path reader options events (.error e) m')
    (hremoves : ∀ path errno, ¬ fails (.unlink path) errno) : m.tree.Unchanged m'.tree := by
  cases h with
  | unmade htree _ =>
    rw [htree]
    exact .of_same (.refl _)
  | abandoned hbegun _ hbetween hremoval =>
    exact hbegun.unchanged_of_removal hbetween hremoves hremoval
  | refused hbegun p _ _ hremoval =>
    exact hbegun.unchanged_of_removal ⟨_, _, p.atEnd⟩ hremoves hremoval

namespace AtomicWrite

/-- After an atomic write that fails every name, inode, content, permission and link target is as
it was, and no name is new.  Any call may have failed, apart from the removal of the new file. -/
theorem unchanged_of_error {w : AtomicWrite} {e : Error} (hquiet : w.reader.IsQuiet)
    (hremoves : ∀ path errno, ¬ fails (.unlink path) errno)
    (hrun : Routine.Runs fails w.routine m events (.error e) m') : m.tree.Unchanged m'.tree := by
  rw [routine_eq] at hrun
  exact (Writing.course_of_runs hquiet hrun).unchanged hremoves

/-- A write whose reader fails after two bytes. -/
def cutShort : AtomicWrite where
  path := ⟨[97]⟩
  reader := [.bytes [104, 105], .failure (.bare .other)]
  options := { Options.plain with keepFileMode := true }
  mode := none

/-- A reader that fails after two bytes leaves nothing behind. -/
theorem unchanged_of_cutShort : ∃ e,
    (cutShort.routine.run (Machine.small fun _ => 7)).1 = .error e
      ∧ (Machine.small fun _ => 7).tree.Unchanged
          (cutShort.routine.run (Machine.small fun _ => 7)).2.tree := by
  have hfails : (cutShort.routine.run (Machine.small fun _ => 7)).1.isOk = false := by
    decide +kernel
  have hquiet : cutShort.reader.IsQuiet := by
    intro others h
    simp [cutShort] at h
  cases hrun : (cutShort.routine.run (Machine.small fun _ => 7)).1 with
  | ok _ =>
    rw [hrun] at hfails
    cases hfails
  | error e =>
    refine ⟨e, rfl, ?_⟩
    have hruns := Program.runs_run (fun _ _ => False) cutShort.routine.outcome
      (Machine.small fun _ => 7)
    change Routine.Runs _ _ _ _ (cutShort.routine.run (Machine.small fun _ => 7)).1 _ at hruns
    rw [hrun] at hruns
    exact unchanged_of_error hquiet (fun _ _ h => h) hruns

end AtomicWrite

end PortableFiles
