import PortableFiles.Proofs.Kernel.Opening
import PortableFiles.Proofs.Writing.Success
set_option autoImplicit false

/-!
# Atomic writes that cannot fail

Where one of the next names that are drawn is free and those before it are taken
(`Machine.FindsName`), the new file is made, and it can be filled.  Where the destination can then
be looked at and the file can be moved to it (`Stage.Publishes`), the whole write succeeds
(`Writing.yields_atomic`).
-/

namespace PortableFiles

open Routine (Yields)

/-! ## Drawn names -/

namespace Machine

variable {m : Machine} {path : Path} {dir d id : InodeId} {name n : Name} {slash : Bool}

/-- Whether among the next drawn names there is a free one in a directory, and those before it are
taken. -/
def FindsName (m : Machine) (directory : Path) (attempts : Nat) : Prop :=
  ∃ k < attempts,
    (∃ place, m.vacancy (directory.join (m.tempName (m.drawn + k))) false = .ok place)
      ∧ ∀ j < k, ∃ id,
        m.resolve (fun _ => false) (directory.join (m.tempName (m.drawn + j))) = .ok id

/-- A place for a file is a free name in a directory. -/
theorem vacancy_eq_ok_iff : m.vacancy path false = .ok (dir, name) ↔
    m.locate (fun _ => false) path = .ok (.entry dir name false)
      ∧ m.tree.find dir name = .ok none := by
  constructor
  · intro h
    obtain ⟨place, hplace, h⟩ := bind_eq_ok_iff.1 h
    cases place with
    | reached _ => cases h
    | dots _ _ => cases h
    | entry dir' name' slash =>
      obtain ⟨found, hfound, h⟩ := bind_eq_ok_iff.1 h
      cases found with
      | some _ => cases h
      | none =>
        obtain ⟨hslash, h⟩ := ite_error_eq_ok_iff.1 h
        obtain rfl : slash = false := by simpa using hslash
        cases h
        exact ⟨hplace, hfound⟩
  · rintro ⟨hplace, hfound⟩
    exact bind_eq_ok_iff.2 ⟨_, hplace, bind_eq_ok_iff.2 ⟨_, hfound, rfl⟩⟩

/-- Beside a path that leads to a name, a drawn name leads to the same directory. -/
theorem locate_drawn (hplace : m.locate (fun _ => false) path = .ok (.entry dir name slash))
    (k : Nat) (hshort : (path.parentDir.join (m.tempName k)).bytes.length < Tree.maxPath) :
    m.locate (fun _ => false) (path.parentDir.join (m.tempName k))
      = .ok (.entry dir (m.tempName k) false) :=
  locate_sibling (Path.isPlain_decimalString _) (Path.stepOf_decimalString _) hshort hplace

/-- A drawn name is free where the directory has room for another name and does not hold it. -/
theorem vacant_drawn (h : m.tree.Vacant dir n) (k : Nat)
    (hfree : m.tree.child? dir (m.tempName k) = none) : m.tree.Vacant dir (m.tempName k) := by
  refine h.sibling ?_ hfree
  have hlength := m.length_tempName_le k
  rw [Tree.maxName]
  omega

/-- Where a drawn name beside a path is free, there is room for a file with this name in the
directory of the path. -/
theorem room_of_vacancy {k : Nat}
    (hplace : m.locate (fun _ => false) path = .ok (.entry dir name slash))
    (hallowed : m.mayChangeEntries dir = .ok ())
    (h : m.vacancy (path.parentDir.join (m.tempName k)) false = .ok (d, n)) :
    m.Room (path.parentDir.join (m.tempName k)) dir (m.tempName k) := by
  obtain ⟨hlocated, hfree⟩ := vacancy_eq_ok_iff.1 h
  have hplain := Path.isPlain_decimalString (m.draws k).toNat
  have hstep := Path.stepOf_decimalString (m.draws k).toNat
  obtain rfl : n = m.tempName k := name_eq_of_locate_join hplain hstep hlocated
  obtain rfl : d = dir := eq_of_sibling hplain hstep hplace hlocated
  exact ⟨hlocated, ⟨isDirectory_of_locate hlocated, hfree⟩, hallowed⟩

/-- A free name is found after names that the directory of a path holds. -/
theorem findsName_of_child? {attempts k : Nat}
    (hplace : m.locate (fun _ => false) path = .ok (.entry dir name slash)) (hk : k < attempts)
    (hshort : ∀ j ≤ k,
      (path.parentDir.join (m.tempName (m.drawn + j))).bytes.length < Tree.maxPath)
    (hfree : m.tree.Vacant dir (m.tempName (m.drawn + k)))
    (htaken : ∀ j < k, ∃ id, m.tree.child? dir (m.tempName (m.drawn + j)) = some id) :
    m.FindsName path.parentDir attempts := by
  refine ⟨k, hk, ⟨_, vacancy_eq_ok_iff.2 ⟨?_, hfree.find⟩⟩, fun j hj => ?_⟩
  · exact locate_drawn hplace _ (hshort k (Nat.le_refl k))
  · obtain ⟨id, hid⟩ := htaken j hj
    have hlocated := locate_drawn hplace _ (hshort j (Nat.le_of_lt hj))
    have hfind : m.tree.find dir (m.tempName (m.drawn + j)) = .ok (some id) := by
      rw [Tree.find, hid]
    exact ⟨id, bind_eq_ok_iff.2 ⟨_, hlocated, bind_eq_ok_iff.2 ⟨_, hfind, rfl⟩⟩⟩

/-- Where something is in the way of a drawn name, the directory holds it. -/
theorem child?_of_taken {k : Nat}
    (hplace : m.locate (fun _ => false) path = .ok (.entry dir name slash))
    (h : m.Taken (path.parentDir.join (m.tempName k))) :
    (path.parentDir.join (m.tempName k)).bytes.length < Tree.maxPath
      ∧ ∃ id, m.tree.child? dir (m.tempName k) = some id := by
  obtain ⟨place, id, hlocated, hid, -⟩ := h
  have hshort := (bounds_of_locate hlocated).2
  obtain rfl := Except.ok.inj ((locate_drawn hplace k hshort).symm.trans hlocated)
  obtain ⟨found, hfound, hid⟩ := bind_eq_ok_iff.1 hid
  cases found with
  | none => cases hid
  | some id => exact ⟨hshort, id, Tree.child?_eq_of_find hfound⟩

/-- A name that leads somewhere is taken. -/
theorem taken_of_resolve {directory : Path} (hplain : Path.IsPlain n)
    (h : m.resolve (fun _ => false) (directory.join n) = .ok id) : m.Taken (directory.join n) := by
  obtain ⟨place, hplace, hid⟩ := bind_eq_ok_iff.1 h
  refine ⟨place, id, hplace, hid, ?_⟩
  rintro dir name rfl
  obtain ⟨hslash, -⟩ := (walks_of_locate hplace).last_step fun _ => rfl
  rw [Route.slash_ofBytes_join directory hplain] at hslash
  cases hslash

end Machine

namespace Writing

variable {m : Machine} {path : Path} {dir : InodeId} {name : Name} {slash : Bool}

/-- A file whose name is taken is not made. -/
theorem run_createNew_eq_error {temp : Path} {perm : UInt32} {flags : OpenFlags}
    (hnul : temp.hasNul = false)
    (hfails : m.openFile temp .making perm = .error .entryExists) :
    (Posix.platform.createNew temp perm flags).outcome.run m
      = (.error (.ofErrno .createTemp temp .entryExists), m) := by
  change (Posix.openWriter .createTemp temp .making perm flags).run m = _
  rw [Posix.openWriter, Routine.run_checkNul_bind hnul, Routine.run_bind, Routine.run_call,
    Call.reply, Call.perform, hfails]
  rfl

/-- Where a free name is found, the new file is made under it, beside the destination. -/
theorem yields_createNamed
    (hplace : m.locate (fun _ => false) path = .ok (.entry dir name slash))
    (hallowed : m.mayChangeEntries dir = .ok ()) (hopen : m.mayOpen = true)
    (hnul : path.hasNul = false) {attempts : Nat}
    (hfinds : m.FindsName path.parentDir attempts) (perm : UInt32) (flags : OpenFlags) :
    Yields (fun m' => m' = m)
      (createNamed Posix.platform path.parentDir perm flags drawName attempts) fun made m' =>
        ∃ s : Stage, m.Asked s.start ∧ s.dir = dir ∧ (∃ k, s.name = m.tempName k)
          ∧ s.path.hasNul = false ∧ made = (s.path, s.writer) ∧ s.Open [] (m.masked perm) m' := by
  induction attempts generalizing m with
  | zero =>
    obtain ⟨k, hk, -⟩ := hfinds
    omega
  | succ attempts ih =>
    obtain ⟨k, hk, hvacant, htaken⟩ := hfinds
    have hasked := Machine.Asked.drew m 1
    have hnul' : (path.parentDir.join (m.tempName m.drawn)).hasNul = false :=
      m.hasNul_tempPath m.drawn hnul
    rw [createNamed]
    refine (Yields.lift (Q := fun name m' => name = m.tempName m.drawn ∧ m' = m.drew 1) ?_).bind ?_
    · rintro _ rfl
      exact ⟨rfl, rfl⟩
    rintro name _ ⟨rfl, rfl⟩
    rw [Routine.run_bind, Routine.attempt, Routine.run_lift]
    cases k with
    | zero =>
      obtain ⟨⟨d, n⟩, hvacant⟩ := hvacant
      have hroom : (m.drew 1).Room (path.parentDir.join (m.tempName m.drawn)) dir
          (m.tempName m.drawn) :=
        Machine.room_of_vacancy (m := m.drew 1) hplace hallowed hvacant
      have hmake : Yields (fun m' => m' = m.drew 1)
          (Posix.platform.createNew (path.parentDir.join (m.tempName m.drawn)) perm
            (flags.only .sync)) fun w m' =>
            w = hroom.stage.writer ∧ hroom.stage.Open [] ((m.drew 1).masked perm) m' :=
        hroom.yields_openWriter hopen hnul' .making rfl rfl rfl rfl
          (deleteOnClose_only_sync flags) perm
      obtain ⟨w, m', hrun, rfl, hmade⟩ := hmake (m.drew 1) rfl
      change (Posix.platform.createNew _ perm (flags.only .sync)).outcome.run (m.drew 1) = _ at hrun
      rw [hrun]
      exact ⟨_, m', rfl, hroom.stage, hasked, rfl, ⟨m.drawn, rfl⟩, hnul', rfl, hmade⟩
    | succ k =>
      -- The next name is taken, and the free one comes later.
      obtain ⟨id, hid⟩ := htaken 0 (Nat.succ_pos k)
      have htaken' : m.Taken (path.parentDir.join (m.tempName m.drawn)) :=
        Machine.taken_of_resolve (Path.isPlain_decimalString (m.draws m.drawn).toNat) hid
      have hfails : (m.drew 1).openFile (path.parentDir.join (m.tempName m.drawn)) .making perm
          = .error .entryExists := (hasked.symm.taken htaken').openFile_eq hopen perm
      have hshift : ∀ i, (m.drew 1).drawn + i = m.drawn + (i + 1) := fun i => by
        change m.drawn + 1 + i = _
        omega
      have hlater : (m.drew 1).FindsName path.parentDir attempts := by
        refine ⟨k, by omega, ?_, fun j hj => ?_⟩
        · rw [hshift]
          exact hvacant
        · rw [hshift]
          exact htaken (j + 1) (by omega)
      obtain ⟨made, m', hrun, s, hstart, hrest⟩ :=
        ih (m := m.drew 1) hplace hallowed hopen hlater _ rfl
      rw [run_createNew_eq_error hnul' hfails]
      exact ⟨made, m', hrun, s, hasked.trans hstart, hrest⟩

/-- Filling the new file succeeds. -/
theorem yields_fill {s : Stage} {reader : Reader} (hquiet : reader.IsQuiet) (hends : reader.Ends)
    (bits : UInt32) :
    Yields (s.Filled [] bits) (fill Posix.platform s.writer reader) fun _ => s.Holds := by
  have hcopy : Yields (s.Filled [] bits) (reader.copyTo s.path (Routine.writeAll s.path s.file))
      fun _ => s.Filled reader.delivered bits := Stage.yields_copyTo hquiet hends
  have hsync : Yields (s.Filled reader.delivered bits) (Posix.platform.sync s.writer)
      fun _ => s.Filled reader.delivered bits := by
    refine Yields.call ?_
    rintro m ⟨perm, hperm, hopen⟩
    exact ⟨(), m, hopen.sync, perm, hperm, hopen⟩
  have hlook : Yields (s.Filled reader.delivered bits) (Posix.platform.perm s.writer)
      fun _ => s.Filled reader.delivered bits := by
    refine (Yields.call (Q := fun _ => s.Filled reader.delivered bits) ?_).bind fun _ =>
      .pure fun _ h => h
    rintro m ⟨perm, hperm, hopen⟩
    obtain ⟨stat, hstat, -⟩ := hopen.statOpen
    exact ⟨stat, m, hstat, perm, hperm, hopen⟩
  have hwriting := hcopy.bind fun _ => hsync.bind fun _ => hlook
  exact hwriting.withCleanup.bind fun _ => Stage.yields_close.bind fun _ =>
    .pure fun _ h => h.holds

end Writing

/-! ## Putting the file in its place -/

/-- Whether the destination can be looked at while a file is prepared, and the file can be moved to
it in the end. -/
structure Stage.Publishes (s : Stage) (path : Path) : Prop where
  look : ∀ m, s.Holds m →
    (∃ stat, m.stat path true = .ok (stat, m)) ∨ m.stat path true = .error .noEntry
  move : ∀ m, s.Holds m → ∃ m', m.rename s.path path = .ok ((), m')

namespace Writing

variable {m : Machine} {path : Path} {dir : InodeId} {name : Name} {slash : Bool} {s : Stage}
  {options : Options}

/-- Where a path can be looked at or nothing is there, it is known which permissions are kept. -/
theorem run_keptPerm (options : Options) (hnul : path.hasNul = false)
    (hlook : (∃ stat, m.stat path true = .ok (stat, m)) ∨ m.stat path true = .error .noEntry) :
    ∃ kept, (keptPerm path options).run m = (.ok kept, m) := by
  have hstat : (Posix.platform.stat path).outcome.run m
      = (((m.stat path true).map fun r => FileInfo.ofRecord path true (Posix.record r.1)).mapError
          (.ofErrno .stat path), m) := by
    change (Posix.statPath .stat true path).run m = _
    rw [Posix.statPath, Routine.run_checkNul_bind hnul, Routine.run_bind, Routine.run_call,
      Call.reply, Call.perform]
    rcases hlook with ⟨stat, hstat⟩ | hstat
    · rw [hstat]
      rfl
    · rw [hstat]
      rfl
  unfold keptPerm
  split
  · rw [Routine.run_bind, Routine.attempt, Routine.run_lift, hstat]
    rcases hlook with ⟨stat, hstat⟩ | hstat
    · rw [hstat]
      exact ⟨_, rfl⟩
    · rw [hstat]
      exact ⟨_, rfl⟩
  · exact ⟨none, rfl⟩

/-- Permissions can be chosen where the destination can be looked at. -/
theorem yields_finalPerm (hpublishes : s.Publishes path) (hnul : path.hasNul = false)
    (created : UInt32) :
    Yields s.Holds (finalPerm Posix.platform path options created) fun _ => s.Holds := by
  intro m hm
  obtain ⟨kept, hkept⟩ := run_keptPerm options hnul (hpublishes.look m hm)
  obtain ⟨data, perm, hat⟩ := hm
  have hchosen : ∃ perm m', (finalPerm Posix.platform path options created).run m
      = (.ok perm, m') := by
    cases hmode : options.fileMode with
    | some mode =>
      rw [finalPerm_of_fileMode_eq_some hmode]
      exact ⟨mode, m, rfl⟩
    | none =>
      rw [finalPerm_of_fileMode_eq_none hmode, Routine.run_bind, hkept]
      simp only [choosePerm]
      cases kept with
      | some kept => exact ⟨kept, m, rfl⟩
      | none =>
        cases options.defaultFileMode with
        | some mode =>
          simp only
          rw [Routine.run_bind, Routine.run_lift]
          exact ⟨_, _, rfl⟩
        | none => exact ⟨created, m, rfl⟩
  obtain ⟨chosen, m', hrun⟩ := hchosen
  have hruns := Program.runs_run (fun _ _ => False)
    (finalPerm Posix.platform path options created).outcome m
  have hafter : ((finalPerm Posix.platform path options created).outcome.run m).2 = m' :=
    congrArg Prod.snd hrun
  rw [hafter] at hruns
  exact ⟨chosen, m', hrun, data, perm, hat.of_finalPerm hruns⟩

/-- Where a new file was made that can be moved to the destination, the rest of an atomic write
succeeds. -/
theorem yields_publish (hpublishes : s.Publishes path) (hnul : path.hasNul = false)
    (hnul' : s.path.hasNul = false) (created : UInt32) :
    Yields s.Holds (publish Posix.platform s.path path options created) fun _ _ => True := by
  rw [publish_eq]
  refine (yields_finalPerm hpublishes hnul created).bind fun perm => ?_
  have hadjust : Yields s.Holds (adjustPerm s.path created perm) fun _ => s.Holds := by
    unfold adjustPerm
    split
    · rintro m ⟨data, old, hat⟩
      obtain ⟨m', hrun, hat', -⟩ := hat.run_chmod hnul' perm
      exact ⟨(), m', hrun, data, _, hat'⟩
    · exact .pure fun _ h => h
  refine hadjust.bind fun _ => (Yields.checkNul hnul').bind fun _ =>
    (Yields.checkNul hnul).bind fun _ => Yields.call ?_
  intro m hm
  obtain ⟨m', hrename⟩ := hpublishes.move m hm
  exact ⟨(), m', hrename, trivial⟩

/-- An atomic write succeeds where a name is found for the new file and this can be moved to the
destination. -/
theorem yields_atomic (hplace : m.locate (fun _ => false) path = .ok (.entry dir name slash))
    (hallowed : m.mayChangeEntries dir = .ok ()) (hopen : m.mayOpen = true)
    (hnul : path.hasNul = false) (hfinds : m.FindsName path.parentDir tempAttempts)
    (hpublishes : ∀ s : Stage, m.Asked s.start → s.dir = dir → (∃ k, s.name = m.tempName k) →
      s.Publishes path)
    {reader : Reader} (hquiet : reader.IsQuiet) (hends : reader.Ends) (options : Options) :
    Yields (fun m' => m' = m) (atomicFromReader Posix.platform path reader options)
      fun _ _ => True := by
  unfold atomicFromReader
  rw [Machine.isEmpty_of_locate hplace, if_neg (by decide)]
  refine (yields_createNamed hplace hallowed hopen hnul hfinds _ _).bind ?_
  rintro ⟨temp, writer⟩ m' ⟨s, hasked, hdir, hname, hnul', hmade, hopened⟩
  cases hmade
  have hworking : Yields (s.Filled [] (m.masked (options.defaultFileMode.getD tempPerm))) (do
      let created ← fill Posix.platform s.writer reader
      publish Posix.platform s.path path options created) fun _ _ => True :=
    (yields_fill hquiet hends _).bind fun created =>
      yields_publish (hpublishes s hasked hdir hname) hnul hnul' created
  exact (hworking.withCleanup.bind fun _ => .pure fun _ h => h) m' ⟨_, rfl, hopened⟩

end Writing

end PortableFiles
