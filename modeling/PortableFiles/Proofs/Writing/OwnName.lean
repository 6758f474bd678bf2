import PortableFiles.Proofs.Writing.Publication
set_option autoImplicit false

/-!
# A new file under the name of the destination

The name of the new file is drawn, and a drawn name is passed over only if something has it.  So
nothing keeps the process from making the new file under the name of a destination that is missing.
Then the new file is the destination from the call that makes it on, and whoever opens the
destination meanwhile sees what is written so far.  This is the only case in which the new file is
not apart from the destination (`AtomicWrite.apart_unless_own_name`).
-/

namespace PortableFiles

variable {fails : Call → Errno → Prop} {m m' : Machine} {events : List Event}

/-- Whether two paths name one entry of a directory.  Links at their ends are not followed. -/
def Machine.SameEntry (m : Machine) (path path' : Path) : Prop :=
  ∃ dir name slash slash', m.locate (fun _ => false) path = .ok (.entry dir name slash)
    ∧ m.locate (fun _ => false) path' = .ok (.entry dir name slash')

namespace AtomicWrite

open Writing

/-! ## What the drawn name decides -/

/-- The path of the new file under the `k`th word that is drawn. -/
def tempPath (w : AtomicWrite) (m : Machine) (k : Nat) : Path :=
  w.path.parentDir.join (m.tempName k)

/-- Whether the destination is missing and the `k`th word that is drawn is its name. -/
def DrawsOwn (w : AtomicWrite) (m : Machine) (k : Nat) : Prop :=
  ∃ dir slash, m.locate (fun _ => false) w.path = .ok (.entry dir (m.tempName k) slash)
    ∧ m.tree.child? dir (m.tempName k) = none

/-- Whether the new file is made at a path, as the first thing that changes the tree. -/
def Makes (w : AtomicWrite) (m : Machine) (temp : Path) (made : Machine) (events : List Event) :
    Prop :=
  ∃ opening file before rest, events = opening
      ++ ⟨.openFile temp .making (w.effective.defaultFileMode.getD tempPerm), .ok file, before,
        made⟩ :: rest
    ∧ ∀ e ∈ opening, e.after.tree = m.tree

/-- Whether the destination, which was missing, is a new file with some bytes in it. -/
def Bares (w : AtomicWrite) (m : Machine) (data : Bytes) (now : Machine) : Prop :=
  ∃ dir name slash node, m.locate (fun _ => false) w.path = .ok (.entry dir name slash)
    ∧ m.tree.child? dir name = none
    ∧ now.tree.held dir name = some (m.tree.nextId, some node) ∧ node.content = .file data

/-- What follows for a run in which the new file is made under the `k`th word that is drawn. -/
structure MadeUnder (w : AtomicWrite) (m : Machine) (events : List Event) (k : Nat)
    (made : Machine) : Prop where
  makes : w.Makes m (w.tempPath m k) made events
  /-- The new file is the destination exactly if the word is its name and it is missing. -/
  same_iff : m.SameEntry (w.tempPath m k) w.path ↔ w.DrawsOwn m k
  /-- Otherwise the destination is at every moment what it was or the finished file. -/
  apart : ¬ w.DrawsOwn m k → w.Publication m events
  /-- If it is, then it is there with nothing in it as soon as the new file is made, and with what
  is written so far after every write. -/
  bare : w.DrawsOwn m k → w.Bares m [] made
    ∧ ∀ e ∈ events, (∃ file, e.Writes file) → ∃ data, w.Bares m data e.after

variable {w : AtomicWrite} {s : Stage} {opening rest : List Event} {made : Machine} {k : Nat}

/-- A run in which the new file is made has a call that makes it. -/
theorem Makes.of_begun (hbegun : Begun m w.path w.effective s opening made) :
    w.Makes m s.path made (opening ++ rest) := by
  obtain ⟨first, file, before, rfl, hfirst⟩ := hbegun.makes
  exact ⟨first, file, before, rest, List.append_assoc _ _ _, hfirst⟩

theorem not_isApart_iff :
    ¬ w.IsApart m s ↔ ∃ slash, m.locate (fun _ => false) w.path = .ok (.entry s.dir s.name slash) :=
  Classical.not_forall_not

/-- The new file has the place of the destination exactly if its own name was drawn. -/
theorem not_isApart_iff_drawsOwn (hbegun : Begun m w.path w.effective s opening made)
    (hpath : s.path = w.tempPath m k) : ¬ w.IsApart m s ↔ w.DrawsOwn m k := by
  have hname : s.name = m.tempName k := Stage.name_eq_tempName hpath
  rw [not_isApart_iff]
  constructor
  · rintro ⟨slash, hplace⟩
    have hmissing := hbegun.child?
    rw [hname] at hplace hmissing
    exact ⟨s.dir, slash, hplace, hmissing⟩
  · rintro ⟨dir, slash, hplace, -⟩
    obtain rfl := hbegun.dir_eq hplace
    exact ⟨slash, hname ▸ hplace⟩

/-- The paths of the new file and of the destination name one entry exactly if the own name of the
destination was drawn. -/
theorem sameEntry_iff (hbegun : Begun m w.path w.effective s opening made)
    (hpath : s.path = w.tempPath m k) :
    m.SameEntry (w.tempPath m k) w.path ↔ w.DrawsOwn m k := by
  rw [← not_isApart_iff_drawsOwn hbegun hpath, not_isApart_iff, ← hpath]
  constructor
  · rintro ⟨dir, name, slash, slash', htemp, hplace⟩
    rw [hbegun.located] at htemp
    cases htemp
    exact ⟨slash', hplace⟩
  · rintro ⟨slash, hplace⟩
    exact ⟨s.dir, s.name, false, slash, hbegun.located, hplace⟩

/-- A new file in the place of the destination is what a reader of the destination finds. -/
theorem Bares.of_at {data : Bytes} {perm : UInt32} {now : Machine}
    (hbegun : Begun m w.path w.effective s opening made) (hplace : ¬ w.IsApart m s)
    (hat : s.At data perm now) : w.Bares m data now := by
  obtain ⟨slash, hplace⟩ := not_isApart_iff.1 hplace
  exact ⟨s.dir, s.name, slash, s.node data perm, hplace, hbegun.child?,
    (hbegun.replaced_of_at hat).held, Stage.node_content⟩

/-- A run that changes anything makes the new file under a drawn name, which is the destination
exactly if this is the name of a destination that is missing.  Only then the destination is seen
before it is finished. -/
theorem apart_unless_own_name {outcome : Except Error Unit} (hm : m.WellFormed)
    (hquiet : w.reader.IsQuiet) (hrun : Routine.Runs fails w.routine m events outcome m') :
    (∀ e ∈ events, e.after.tree = m.tree)
      ∨ ∃ k < tempAttempts, ∃ made, w.MadeUnder m events (m.drawn + k) made := by
  rw [routine_eq] at hrun
  rcases publication_of_course hm (course_of_runs hquiet hrun) with
    ⟨htree, -⟩ | ⟨s, opening, made, rest, hbegun, rfl, hwritten, hpublication⟩
  · exact Or.inl htree
  obtain ⟨k, hk, hpath, -⟩ := hbegun.first
  have hown := not_isApart_iff_drawsOwn hbegun hpath
  refine Or.inr ⟨k, hk, made, ?_, sameEntry_iff hbegun hpath, fun hother => ?_, fun hdrawn => ?_⟩
  · rw [tempPath, ← hpath]
    exact .of_begun hbegun
  · exact hpublication (Classical.not_not.1 fun hplace => hother (hown.1 hplace))
  · refine ⟨.of_at hbegun (hown.2 hdrawn) hbegun.empty, fun e he hwrites => ?_⟩
    rcases List.mem_append.1 he with he | he
    · obtain ⟨⟨_, _, _, hopen⟩, -⟩ := hbegun.opens e he
      obtain ⟨_, _, hcall⟩ := hwrites
      rw [hopen] at hcall
      cases hcall
    · obtain ⟨data, perm, hat⟩ := hwritten e he hwrites
      exact ⟨data, .of_at hbegun (hown.2 hdrawn) hat⟩

/-! ## A name that is drawn -/

/-- A write of two bytes, one after the other, to the missing file `5`. -/
def digit : AtomicWrite := ⟨⟨[53]⟩, [.bytes [97], .bytes [98]], Options.plain, none⟩

/-- The small system, on which every word that is drawn is 5. -/
def fives : Machine := .small fun _ => 5

theorem locate_digit : fives.locate (fun _ => false) digit.path = .ok (.entry 9 [53] false) := rfl

theorem tempName_fives (k : Nat) : fives.tempName k = [53] :=
  (by decide +kernel : Bytes.ofString (Text.Numeral.decimalString 5) = [53])

theorem drawsOwn_digit (k : Nat) : digit.DrawsOwn fives k := by
  refine ⟨9, false, ?_, ?_⟩
  · rw [tempName_fives, locate_digit]
  · rw [tempName_fives]
    rfl

/-- When every word is 5, the new file is made in the place of the file `5`. -/
theorem apart_unless_own_name_digit :
    ∃ k made, digit.Makes fives (digit.tempPath fives k) made (digit.routine.outcome.trace fives)
      ∧ fives.SameEntry (digit.tempPath fives k) digit.path ∧ digit.Bares fives [] made := by
  have hquiet : digit.reader.IsQuiet := by simp [digit]
  have hruns := Program.runs_run (fun _ _ => False) digit.routine.outcome fives
  rcases apart_unless_own_name (Machine.wellFormed_small _) hquiet hruns with
    htree | ⟨k, -, made, hmade⟩
  · -- The file is there after some of the calls.
    have hany : (digit.routine.outcome.trace fives).any
        (fun e => (e.after.tree.child? 9 [53]).isSome) = true := by decide +kernel
    obtain ⟨e, he, hchild⟩ := List.any_eq_true.1 hany
    rw [htree e he] at hchild
    cases hchild
  · exact ⟨_, made, hmade.makes, hmade.same_iff.2 (drawsOwn_digit _),
      (hmade.bare (drawsOwn_digit _)).1⟩

/-- Then there is a moment in which the destination has the first of the two bytes in it. -/
theorem bares_digit :
    fives.SameEntry (digit.tempPath fives fives.drawn) digit.path
      ∧ digit.reader.delivered = [97, 98]
      ∧ ∃ e ∈ digit.routine.outcome.trace fives, digit.Bares fives [97] e.after := by
  refine ⟨⟨9, [53], false, false, ?_, locate_digit⟩, rfl, ?_⟩
  · rw [tempPath, tempName_fives]
    rfl
  · have hany : (digit.routine.outcome.trace fives).any (fun e =>
        decide (e.after.tree.held 9 [53]
          = some (33, some (fives.newInode 9 (.file [97]) 0o600)))) = true := by decide +kernel
    obtain ⟨e, he, hheld⟩ := List.any_eq_true.1 hany
    exact ⟨e, he, 9, [53], false, _, locate_digit, rfl, of_decide_eq_true hheld, rfl⟩

end AtomicWrite

end PortableFiles
