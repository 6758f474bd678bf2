import PortableFiles.Proofs.Path.LastName
import PortableFiles.Proofs.Writing.Beside
set_option autoImplicit false

/-!
# Where the new file is made

A path is split into the directory in which its entry lives and the last element as written.  An
atomic write makes its new file in the first under a name of its own, and this is the directory of
the destination (`Writing.makesBeside_of_runs`), however the path is written.
-/

namespace PortableFiles

/-- Whether the first thing that events bring about on a machine is a new empty file in a directory,
beside a path.  The name of the file was free. -/
def Machine.MakesBeside (m : Machine) (path : Path) (perm : UInt32) (dir : InodeId)
    (events : List Event) : Prop :=
  ∃ opening rest name file before made,
    events = opening
        ++ ⟨.openFile (path.parentDir.join name) .making perm, .ok file, before, made⟩ :: rest
      ∧ (∀ e ∈ opening, e.after.tree = m.tree)
      ∧ m.locate (fun _ => false) (path.parentDir.join name) = .ok (.entry dir name false)
      ∧ m.tree.child? dir name = none
      ∧ made.tree.Same (m.tree.addEntry dir name (m.newInode dir (.file []) (m.masked perm)))

namespace Writing

variable {fails : Call → Errno → Prop} {m m' : Machine} {path : Path} {reader : Reader}
  {options : Options} {events : List Event} {outcome : Except Error Unit} {dir : InodeId}
  {name : Name} {slash : Bool}

/-- An atomic write fails and has changed nothing, or it makes its new file in the directory of the
destination. -/
theorem makesBeside_of_runs (hplace : m.locate (fun _ => false) path = .ok (.entry dir name slash))
    (hrun : Routine.Runs fails (atomicFromReader Posix.platform path reader options) m events
      outcome m') :
    ((∃ e, outcome = .error e) ∧ m'.tree = m.tree)
      ∨ m.MakesBeside path (options.defaultFileMode.getD tempPerm) dir events := by
  unfold atomicFromReader at hrun
  split at hrun
  · obtain ⟨-, rfl, rfl⟩ := Routine.runs_fail_iff.1 hrun
    exact Or.inl ⟨⟨_, rfl⟩, rfl⟩
  rcases Routine.runs_bind_iff.1 hrun with
    ⟨e, rfl, hmake⟩ | ⟨opening, rest, made, temp, rfl, hmake, -⟩
  · rcases createNamed_runs hmake with ⟨he, htree, -⟩ | ⟨_, _, _, _, h, -⟩
    · exact Or.inl ⟨⟨e, rfl⟩, htree⟩
    · cases h
  obtain ⟨-, k, -, htemp, -⟩ := firstFree_of_createNamed hmake
  obtain ⟨opening, file, before, hasked, hopen, rfl, hopening⟩ := openFile_of_createNamed hmake
  obtain ⟨s, rfl, hpath, -, hat⟩ := Stage.of_openFile hopen
  -- The name was drawn, and so it leads into the directory of the destination.
  have hplain := Path.isPlain_decimalString (m.draws (m.drawn + k)).toNat
  have hstep := Path.stepOf_decimalString (m.draws (m.drawn + k)).toNat
  have hlocated := s.located
  rw [hasked.locate, hpath, htemp] at hlocated
  have hname := Machine.name_eq_of_locate_join hplain hstep hlocated
  obtain rfl := Machine.eq_of_sibling hplain hstep hplace hlocated
  rw [hname] at hlocated
  have hvacant := s.vacant.child?
  have htree := hat.tree
  rw [hname, hasked.tree] at hvacant
  rw [Stage.tree, Stage.node, hname, hasked.masked, hasked.newInode, hasked.tree] at htree
  refine Or.inr ⟨opening, rest, _, file, s.start, made, ?_, fun e he => (hopening e he).2, hlocated,
    hvacant, htree⟩
  rw [htemp, List.append_assoc]
  rfl

end Writing

namespace Path

/-- The last element of a path as written and the directory of the path split it.  The last element
is a name or, for separators only, one separator; separators behind it make no difference, and it is
its own last element.  Joined with the directory it has the components of the path, where `.` may
come to stand in front, and a new file beside the path is made in the directory in which the path
ends. -/
theorem baseName_and_parentDir (path : Path) :
    path.baseName ≠ []
      ∧ (path.baseName = [slash] ↔ path.bytes ≠ [] ∧ ∀ b ∈ path.bytes, b = slash)
      ∧ (path.baseName ≠ [slash] → slash ∉ path.baseName)
      ∧ (∀ count, (∃ b ∈ path.bytes, b ≠ slash) →
          baseName ⟨path.bytes ++ List.replicate count slash⟩ = path.baseName)
      ∧ baseName ⟨path.baseName⟩ = path.baseName
      ∧ (∀ name, name ≠ [] → slash ∉ name → baseName ⟨path.bytes ++ slash :: name⟩ = name)
      ∧ (path.baseName ≠ [dot] → path.baseName ≠ [slash] →
          (path.parentDir.join path.baseName).components = path.components
            ∨ (path.parentDir.join path.baseName).components = .current :: path.components)
      ∧ ∀ {fails : Call → Errno → Prop} {reader : Reader} {options : Options} {m m' : Machine}
          {events : List Event} {outcome : Except Error Unit} {dir : InodeId} {name : Name}
          {slashed : Bool}, m.locate (fun _ => false) path = .ok (.entry dir name slashed) →
          Routine.Runs fails (Writing.atomicFromReader Posix.platform path reader options) m events
            outcome m' →
          ((∃ e, outcome = .error e) ∧ m'.tree = m.tree)
            ∨ m.MakesBeside path (options.defaultFileMode.getD Writing.tempPerm) dir events := by
  refine ⟨baseName_ne_nil path, baseName_eq_slash_iff, slash_notMem_baseName, ?_,
    baseName_baseName path, ?_, components_join_baseName, Writing.makesBeside_of_runs⟩
  · rintro count ⟨b, hb, hne⟩
    exact baseName_append_slashes (fun hall => hne (hall b hb)) count
  · intro name hne hname
    exact baseName_append_name path.bytes ⟨hne, fun b hb h => hname (h ▸ hb)⟩

/-- A path to `n` in a directory `d`, with separators and `.` to spare. -/
def spacious : Path := ⟨[100, slash, slash, dot, slash, 110]⟩

/-- The small system with a directory `d`. -/
def furnished : Machine := (Machine.small fun _ => 7).create 9 [100] (.directory 9 .empty) 0o755

/-- The last element of that path is `n`, and an atomic write makes its new file in `d`. -/
theorem baseName_and_parentDir_spacious :
    slash ∉ spacious.baseName
      ∧ baseName ⟨spacious.bytes ++ List.replicate 2 slash⟩ = [110]
      ∧ baseName ⟨spacious.bytes ++ slash :: [98]⟩ = [98]
      ∧ (spacious.parentDir.join spacious.baseName).components = spacious.components
      ∧ furnished.MakesBeside spacious Writing.tempPerm 33
          ((Writing.atomicFromReader Posix.platform spacious [.bytes [104, 105]]
            Options.plain).outcome.trace furnished) := by
  have hname : spacious.baseName = [110] := by decide
  have hplace : furnished.locate (fun _ => false) spacious = .ok (.entry 33 [110] false) := rfl
  have hruns := Routine.runs_run (fun _ _ => False)
    (Writing.atomicFromReader Posix.platform spacious [.bytes [104, 105]] Options.plain) furnished
  have hisOk : ((Writing.atomicFromReader Posix.platform spacious [.bytes [104, 105]]
      Options.plain).run furnished).1.isOk = true := by decide +kernel
  obtain ⟨-, -, hnone, hmore, -, hbelow, hjoin, hmakes⟩ := baseName_and_parentDir spacious
  refine ⟨hnone (by decide), (hmore 2 ⟨100, by decide, by decide⟩).trans hname,
    hbelow [98] (by decide) (by decide), ?_, ?_⟩
  · exact (hjoin (by decide) (by decide)).resolve_right (by decide)
  · refine (hmakes hplace hruns).resolve_left ?_
    rintro ⟨⟨e, he⟩, -⟩
    rw [he] at hisOk
    cases hisOk

end Path

end PortableFiles
