import PortableFiles.Proofs.Kernel.Runs
import PortableFiles.Proofs.Text.Masks
import PortableFiles.Proofs.Text.Splitting
set_option autoImplicit false

/-!
# The mask in the status of a process

The system writes the mask of a process into its status, among other lines, and the mask is read
from there.  Whatever the other lines are, what is read is what was written
(`Umask.shown?_text`).  So reading the status of a process that can open a file gives its mask
(`Umask.readStatus_runs`).
-/

namespace PortableFiles.Umask

open Text Text.Numeral

variable {mark line front digits : List Char} {n : Nat}

/-- A line that does not begin with a mark says nothing after it. -/
theorem marked?_eq_none (h : ¬ mark <+: line) : marked? mark line = none := by
  rw [marked?, if_neg]
  rwa [List.isPrefixOf_iff_prefix]

/-- A line says after a mark what was written after it. -/
theorem marked?_append (mark value : List Char) : marked? mark (mark ++ value) = some value := by
  rw [marked?, if_pos (List.isPrefixOf_iff_prefix.2 (List.prefix_append mark value)),
    List.drop_left]

/-- A line that ends with digits ends with no carriage return. -/
theorem withoutReturn_append (hdigits : Spells 8 digits n) :
    withoutReturn (front ++ digits) = front ++ digits := by
  rw [withoutReturn, if_neg]
  intro hreturn
  rw [List.getLast?_append, List.getLast?_eq_some_getLast (spells_ne_nil hdigits)] at hreturn
  have hmem : '\r' ∈ digits := Option.some.inj hreturn ▸ List.getLast_mem _
  exact absurd (toNat_of_mem_digits hdigits hmem).1 (by decide)

/-- Digits with a tabulator before them are read. -/
theorem read_digits (hdigits : Spells 8 digits n) (hn : n < 4294967296) :
    unsigned? 8 4294967296 (trim ('\t' :: digits)) = some n := by
  have hmark : IsMark [] := Or.inl rfl
  have hblank := isBlank_eq_false_of_mem hmark hdigits
  have htab : ∀ c ∈ ['\t'], isBlank c = true := List.forall_mem_singleton.2 rfl
  have htrim : trim (['\t'] ++ digits ++ []) = digits :=
    trim_append htab (spells_ne_nil hdigits) hblank (List.forall_mem_nil _)
  rw [List.append_nil, List.singleton_append] at htrim
  rw [htrim, unsigned?_eq_some_iff (by decide)]
  exact ⟨Or.inl hdigits, hn⟩

/-- The digits in which a mask is written. -/
theorem spells_mask (mask : UInt32) : Spells 8 (padded 4 (octal mask.toNat)) mask.toNat :=
  (spells_toDigits (by decide) _).padded 4

/-- The lines of a status are those that were written. -/
theorem lines_text (s : StatusLines) (mask : UInt32) :
    lines (s.text mask).toList = s.above.map withoutReturn
      ++ ("Umask:\t".toList ++ padded 4 (octal mask.toNat)) :: lines s.below := by
  have hdigits := spells_mask mask
  have hfree : ∀ line ∈ s.above ++ ["Umask:\t".toList ++ padded 4 (octal mask.toNat)],
      '\n' ∉ line := by
    intro line hline
    rcases List.mem_append.1 hline with hline | hline
    · exact (s.apart line hline).1
    · rw [List.mem_singleton.1 hline, List.mem_append, not_or]
      exact ⟨by decide, fun h => absurd (toNat_of_mem_digits hdigits h).1 (by decide)⟩
  refine (congrArg lines String.toList_ofList).trans ((lines_flatMap hfree s.below).trans ?_)
  rw [List.map_append, List.map_singleton, withoutReturn_append hdigits, List.append_assoc,
    List.singleton_append]

/-- The mask that is written into a status is the mask that is read from it. -/
theorem shown?_text (s : StatusLines) (mask : UInt32) : shown? (s.text mask) = some mask := by
  -- No line above says anything after the mark.
  have habove : (s.above.map withoutReturn).findSome? (marked? "Umask:".toList) = none := by
    rw [List.findSome?_eq_none_iff]
    intro line hline
    obtain ⟨written, hwritten, rfl⟩ := List.mem_map.1 hline
    exact marked?_eq_none fun h =>
      (s.apart written hwritten).2 (h.trans (withoutReturn_begins written))
  have hline : marked? "Umask:".toList ("Umask:\t".toList ++ padded 4 (octal mask.toNat))
      = some ('\t' :: padded 4 (octal mask.toNat)) :=
    marked?_append "Umask:".toList ('\t' :: padded 4 (octal mask.toNat))
  rw [shown?, lines_text, List.findSome?_append, habove, Option.none_or, List.findSome?_cons,
    hline, Option.bind_some, read_digits (spells_mask mask) mask.toNat_lt, Option.map_some,
    UInt32.ofNat_toNat]

/-- Reading the status of a process gives its mask, where a file can be opened, and changes
nothing. -/
theorem readStatus_runs {fails : Call → Errno → Prop} {m m' : Machine} {events : List Event}
    {shown : Option UInt32} (hrun : Program.Runs fails readStatus m events shown m') :
    events = [] ∧ shown = (if m.mayOpen then some m.mask else none) ∧ m' = m := by
  obtain ⟨asking, rest, asked, status, rfl, hstatus, hrest⟩ := Program.runs_bind_iff.1 hrun
  obtain ⟨rfl, rfl, rfl⟩ := Program.runs_question_iff.1 hstatus
  obtain ⟨rfl, rfl, rfl⟩ := Program.runs_done_iff.1 hrest
  refine ⟨rfl, ?_, rfl⟩
  simp only [Query.answer]
  split
  · rw [Option.bind_some, shown?_text]
  · rfl

theorem readStatus_run (m : Machine) :
    readStatus.run m = (if m.mayOpen then some m.mask else none, m) := by
  obtain ⟨-, hshown, hmachine⟩ :=
    readStatus_runs (Program.runs_run (fun _ _ => False) readStatus m)
  exact Prod.ext hshown hmachine

end PortableFiles.Umask
