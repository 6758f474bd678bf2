import PortableFiles.Proofs.Kernel.Status
import PortableFiles.Proofs.Writing.Making
import PortableFiles.Writing.InPlace
set_option autoImplicit false

/-!
# The permissions of the written file

They are chosen from the options, the destination and the mask.  At most one look at the
destination is needed (`Writing.finalPerm_ok`), and no file changes meanwhile
(`Writing.uses_finalPerm`).  `Options.finalPerm` says in one line what comes out.
-/

namespace PortableFiles

variable {fails : Call → Errno → Prop} {m m' : Machine} {events : List Event}

/-! ## The mask -/

/-- The mask that the process knows of: the word in which it remembers one, or else the mask that
it has. -/
def Machine.umask (m : Machine) : UInt32 := m.rememberedMask.getD m.mask

namespace Umask

/-- The system's mask is read, or exchanged for another one for a moment where a file cannot be
opened. -/
theorem readSystem_runs {value : UInt32} (hrun : Program.Runs fails readSystem m events value m') :
    events = [] ∧ value = m.mask ∧ (m.mayOpen = true → m' = m) := by
  obtain ⟨asking, rest, asked, status, rfl, hstatus, hrest⟩ := Program.runs_bind_iff.1 hrun
  obtain ⟨rfl, rfl, rfl⟩ := readStatus_runs hstatus
  by_cases hopen : asked.mayOpen = true
  · rw [if_pos hopen] at hrest
    obtain ⟨rfl, rfl, hend⟩ := Program.runs_done_iff.1 hrest
    exact ⟨rfl, rfl, fun _ => hend⟩
  · rw [if_neg hopen] at hrest
    obtain ⟨first, last, between, mask, rfl, hexchange, hlast⟩ := Program.runs_bind_iff.1 hrest
    obtain ⟨rfl, rfl, -⟩ := Program.runs_question_iff.1 hexchange
    obtain ⟨second, done, between', mask', rfl, hback, hdone⟩ := Program.runs_bind_iff.1 hlast
    obtain ⟨rfl, -, -⟩ := Program.runs_question_iff.1 hback
    obtain ⟨rfl, rfl, -⟩ := Program.runs_done_iff.1 hdone
    exact ⟨rfl, rfl, fun h => absurd h hopen⟩

/-- Asking for the mask gives the one that the process knows of, and at most makes the process
remember it. -/
theorem ofSystem_runs {value : UInt32} (hrun : Program.Runs fails ofSystem m events value m') :
    events = [] ∧ value = m.umask ∧ (m.mayOpen = true → m.process.Agrees m'.process) := by
  obtain ⟨asking, rest, asked, remembered, rfl, hrecall, hrest⟩ := Program.runs_bind_iff.1 hrun
  obtain ⟨rfl, rfl, hasked⟩ := Program.runs_question_iff.1 hrecall
  obtain rfl : asked = m := hasked
  unfold Machine.umask
  cases hword : asked.rememberedMask with
  | some mask =>
    simp only [Query.answer, hword] at hrest
    obtain ⟨rfl, rfl, rfl⟩ := Program.runs_done_iff.1 hrest
    exact ⟨rfl, rfl, fun _ => .of_eq rfl⟩
  | none =>
    simp only [Query.answer, hword] at hrest
    obtain ⟨reading, last, between, mask, rfl, hread, hlast⟩ := Program.runs_bind_iff.1 hrest
    obtain ⟨rfl, rfl, hsame⟩ := readSystem_runs hread
    obtain ⟨remembering, done, between', _, rfl, hremember, hdone⟩ := Program.runs_bind_iff.1 hlast
    obtain ⟨rfl, -, rfl⟩ := Program.runs_question_iff.1 hremember
    obtain ⟨rfl, rfl, rfl⟩ := Program.runs_done_iff.1 hdone
    refine ⟨rfl, rfl, fun hopen => ?_⟩
    obtain rfl := hsame hopen
    refine ⟨rfl, rfl, rfl, ?_, rfl, rfl⟩
    change between.mask = between.rememberedMask.getD between.mask
    rw [hword]
    rfl

/-- Asking for the mask makes no call. -/
theorem uses_ofSystem {C : Call → Prop} : ofSystem.Uses C := by
  refine Program.uses_bind (fun _ => trivial) ?_
  intro remembered
  cases remembered with
  | some mask => trivial
  | none =>
    have hstatus : readStatus.Uses C := Program.uses_bind (fun _ => trivial) fun _ => trivial
    refine Program.uses_bind (Program.uses_bind hstatus fun status => ?_) fun mask =>
      Program.uses_bind (fun _ => trivial) fun _ => trivial
    cases status with
    | some mask => trivial
    | none =>
      exact Program.uses_bind (fun _ => trivial) fun _ =>
        Program.uses_bind (fun _ => trivial) fun _ => trivial

end Umask

theorem Mode.permSpecial_new (type : FileType) (perm : UInt32) :
    (Mode.new type perm).permSpecial = perm &&& permMask := by
  have htype : type.bits &&& permMask = 0 := by cases type <;> decide
  have hdistrib : (type.bits ||| perm &&& permMask) &&& permMask
      = (type.bits &&& permMask) ||| (perm &&& permMask &&& permMask) :=
    UInt32.toBitVec_inj.1 BitVec.and_or_distrib_right
  rw [permSpecial, new, hdistrib, htype, UInt32.and_assoc, UInt32.and_self, UInt32.zero_or]

/-- Metadata show the permission bits that the system reports. -/
theorem Posix.permSpecial_record (path : Path) (follow : Bool) (stat : Stat) :
    (FileInfo.ofRecord path follow (record stat)).mode.permSpecial = stat.perm &&& permMask := by
  change (Mode.new stat.type (stat.perm &&& permMask)).permSpecial = _
  rw [Mode.permSpecial_new, UInt32.and_assoc, UInt32.and_self]

/-- Metadata of a path, where its system call succeeds or fails, or where the path cannot be asked
for. -/
theorem Posix.statPath_runs {operation : Operation} {follow : Bool} {path : Path}
    {outcome : Except Error FileInfo}
    (hrun : Routine.Runs fails (statPath operation follow path) m events outcome m') :
    m' = m ∧ ((∃ stat, m.stat path follow = .ok (stat, m)
          ∧ events = [⟨.stat path follow, .ok stat, m, m⟩]
          ∧ outcome = .ok (.ofRecord path follow (record stat)))
        ∨ (∃ errno, (Call.stat path follow).Outcome fails m (.error errno) m
          ∧ events = [⟨.stat path follow, .error errno, m, m⟩]
          ∧ outcome = .error (.ofErrno operation path errno))
        ∨ (events = [] ∧ outcome = .error (.nulInPath operation path))) := by
  rcases Routine.runs_bind_iff.1 hrun with
    ⟨e, rfl, hnul⟩ | ⟨first, rest, between, _, rfl, hnul, hrest⟩
  · obtain ⟨-, rfl, rfl, rfl⟩ := hnul.checkNul_error
    exact ⟨rfl, Or.inr (Or.inr ⟨rfl, rfl⟩)⟩
  obtain ⟨-, rfl, rfl⟩ := hnul.checkNul_ok
  rw [List.nil_append]
  rcases Routine.runs_bind_iff.1 hrest with
    ⟨e, rfl, hstat⟩ | ⟨first, last, after, stat, rfl, hstat, hlast⟩
  · obtain ⟨errno, houtcome, rfl, rfl⟩ := hstat.call_error
    obtain rfl := houtcome.eq_of_error
    exact ⟨rfl, Or.inr (Or.inl ⟨errno, houtcome, rfl, rfl⟩)⟩
  · obtain ⟨rfl, rfl, rfl⟩ := Routine.runs_pure_iff.1 hlast
    obtain ⟨houtcome, rfl⟩ := hstat.call_ok
    have hperform := houtcome.perform_eq_ok fun _ _ h => by cases h
    obtain rfl := Call.machine_perform_of_looks (by trivial) hperform
    exact ⟨rfl, Or.inl ⟨stat, hperform, rfl, rfl⟩⟩

/-- The permissions that the options choose, given those kept from a replaced file, the mask, and
the permissions with which the new file was made. -/
def Options.chosenPerm (o : Options) (kept : Option UInt32) (umask created : UInt32) : UInt32 :=
  ((o.fileMode.or kept).or
    (o.defaultFileMode.map fun mode => mode &&& (umask ^^^ 0xFFFFFFFF))).getD created

namespace Writing

/-- The looks at the destination before its permissions are chosen, and what is kept of it. -/
inductive Looked (fails : Call → Errno → Prop) (path : Path) (o : Options) (m : Machine) :
    List Event → Option UInt32 → Prop where
  /-- Nobody asks for the permissions of a replaced file. -/
  | spared (h : o.fileMode.isSome = true ∨ o.keepFileMode = false) : Looked fails path o m [] none
  | found {stat : Stat} (hkeep : o.fileMode = none ∧ o.keepFileMode = true)
      (h : m.stat path true = .ok (stat, m)) :
      Looked fails path o m [⟨.stat path true, .ok stat, m, m⟩] (some (stat.perm &&& permMask))
  /-- No file is replaced. -/
  | missing (hkeep : o.fileMode = none ∧ o.keepFileMode = true)
      (h : (Call.stat path true).Outcome fails m (.error .noEntry) m) :
      Looked fails path o m [⟨.stat path true, .error .noEntry, m, m⟩] none

variable {path : Path} {options : Options} {created perm : UInt32}

/-- The permissions that are kept of the file at a path, if the options ask for them. -/
def keptPerm (path : Path) (options : Options) : Routine (Option UInt32) :=
  if options.keepFileMode then do
    match ← (Posix.platform.stat path).attempt with
    | .ok info => return some info.mode.permSpecial
    | .error e => if e.kind = .notFound then return none else Routine.fail e
  else return none

/-- The choice of permissions once it is known which are kept. -/
def choosePerm (options : Options) (created : UInt32) (kept : Option UInt32) : Routine UInt32 :=
  match kept, options.defaultFileMode with
  | some perm, _ => return perm
  | none, some mode => return mode &&& ((← Routine.lift Umask.ofSystem) ^^^ 0xFFFFFFFF)
  | none, none => return created

theorem finalPerm_of_fileMode_eq_none (h : options.fileMode = none) :
    finalPerm Posix.platform path options created
      = keptPerm path options >>= choosePerm options created := by
  unfold finalPerm
  rw [h]
  rfl

theorem finalPerm_of_fileMode_eq_some {mode : UInt32} (h : options.fileMode = some mode) :
    finalPerm Posix.platform path options created = pure mode := by
  unfold finalPerm
  rw [h]

theorem uses_keptPerm :
    Routine.Uses (fun c => c = .stat path true) (keptPerm path options) := by
  unfold keptPerm
  split
  · refine Routine.uses_bind (Routine.uses_attempt ?_) fun result => ?_
    · exact Routine.uses_bind Routine.uses_checkNul fun _ =>
        Routine.uses_bind (Routine.uses_call rfl) fun _ => Routine.uses_pure _
    · cases result with
      | ok info => exact Routine.uses_pure _
      | error e =>
        simp only
        split
        · exact Routine.uses_pure _
        · exact Routine.uses_fail _
  · exact Routine.uses_pure _

/-- The choice of permissions only looks at the destination. -/
theorem uses_finalPerm : Routine.Uses (fun c => c = .stat path true)
    (finalPerm Posix.platform path options created) := by
  cases hmode : options.fileMode with
  | some mode =>
    rw [finalPerm_of_fileMode_eq_some hmode]
    exact Routine.uses_pure _
  | none =>
    rw [finalPerm_of_fileMode_eq_none hmode]
    refine Routine.uses_bind uses_keptPerm ?_
    intro kept
    unfold choosePerm
    split
    · exact Routine.uses_pure _
    · refine Routine.uses_bind (Routine.uses_lift ?_) fun _ => Routine.uses_pure _
      exact Umask.uses_ofSystem
    · exact Routine.uses_pure _

theorem keptPerm_ok {kept : Option UInt32} (hmode : options.fileMode = none)
    (hrun : Routine.Runs fails (keptPerm path options) m events (.ok kept) m') :
    m' = m ∧ Looked fails path options m events kept := by
  unfold keptPerm at hrun
  by_cases hkeep : options.keepFileMode = true
  · rw [if_pos hkeep] at hrun
    obtain ⟨looking, rest, between, result, rfl, hlooking, hrest⟩ := hrun.bind_ok
    obtain ⟨_, h, hstat⟩ := Routine.runs_attempt_iff.1 hlooking
    cases h
    obtain ⟨rfl, ⟨stat, hfound, rfl, rfl⟩ | ⟨errno, houtcome, rfl, rfl⟩ | ⟨rfl, rfl⟩⟩ :=
      Posix.statPath_runs hstat
    · obtain ⟨rfl, h, rfl⟩ := Routine.runs_pure_iff.1 hrest
      cases h
      rw [Posix.permSpecial_record]
      exact ⟨rfl, .found ⟨hmode, hkeep⟩ hfound⟩
    · simp only at hrest
      split at hrest
      · rename_i hkind
        obtain rfl := Error.kind_ofErrno_eq_notFound_iff.1 hkind
        obtain ⟨rfl, h, rfl⟩ := Routine.runs_pure_iff.1 hrest
        cases h
        exact ⟨rfl, .missing ⟨hmode, hkeep⟩ houtcome⟩
      · obtain ⟨-, h, -⟩ := Routine.runs_fail_iff.1 hrest
        cases h
    · obtain ⟨-, h, -⟩ := Routine.runs_fail_iff.1 hrest
      cases h
  · rw [if_neg hkeep] at hrun
    obtain ⟨rfl, h, rfl⟩ := Routine.runs_pure_iff.1 hrun
    cases h
    exact ⟨rfl, .spared (Or.inr (by simpa using hkeep))⟩

theorem choosePerm_ok {kept : Option UInt32} (hmode : options.fileMode = none)
    (hrun : Routine.Runs fails (choosePerm options created kept) m events (.ok perm) m') :
    events = [] ∧ perm = options.chosenPerm kept m.umask created
      ∧ (m.mayOpen = true → m.process.Agrees m'.process) := by
  unfold choosePerm at hrun
  cases kept with
  | some kept =>
    obtain ⟨rfl, h, rfl⟩ := Routine.runs_pure_iff.1 hrun
    cases h
    exact ⟨rfl, by simp [Options.chosenPerm, hmode], fun _ => .of_eq rfl⟩
  | none =>
    cases hdefault : options.defaultFileMode with
    | none =>
      simp only [hdefault] at hrun
      obtain ⟨rfl, h, rfl⟩ := Routine.runs_pure_iff.1 hrun
      cases h
      exact ⟨rfl, by simp [Options.chosenPerm, hmode, hdefault], fun _ => .of_eq rfl⟩
    | some mode =>
      simp only [hdefault] at hrun
      obtain ⟨asking, last, between, mask, rfl, hasking, hlast⟩ := hrun.bind_ok
      obtain ⟨_, h, hmask⟩ := Routine.runs_lift_iff.1 hasking
      cases h
      obtain ⟨rfl, rfl, hagrees⟩ := Umask.ofSystem_runs hmask
      obtain ⟨rfl, h, rfl⟩ := Routine.runs_pure_iff.1 hlast
      cases h
      exact ⟨rfl, by simp [Options.chosenPerm, hmode, hdefault], hagrees⟩

/-- The permissions are chosen after at most one look at the destination. -/
theorem finalPerm_ok
    (hrun : Routine.Runs fails (finalPerm Posix.platform path options created) m events (.ok perm)
      m') :
    ∃ kept, Looked fails path options m events kept
      ∧ perm = options.chosenPerm kept m.umask created
      ∧ (m.mayOpen = true → m.process.Agrees m'.process) := by
  cases hmode : options.fileMode with
  | some mode =>
    rw [finalPerm_of_fileMode_eq_some hmode] at hrun
    obtain ⟨rfl, h, rfl⟩ := Routine.runs_pure_iff.1 hrun
    cases h
    exact ⟨none, .spared (Or.inl (by rw [hmode]; rfl)), by simp [Options.chosenPerm, hmode],
      fun _ => .of_eq rfl⟩
  | none =>
    rw [finalPerm_of_fileMode_eq_none hmode] at hrun
    obtain ⟨looking, rest, between, kept, rfl, hlooking, hrest⟩ := hrun.bind_ok
    obtain ⟨rfl, hlooked⟩ := keptPerm_ok hmode hlooking
    obtain ⟨rfl, rfl, hagrees⟩ := choosePerm_ok hmode hrest
    rw [List.append_nil]
    exact ⟨kept, hlooked, rfl, hagrees⟩

end Writing

/-! ## What comes out -/

/-- The permissions of a written file, the first of these that applies: those given for every
file; if they are to be kept, those found at the destination; those given for a new file, without
the bits of the mask that the process knows of; those of every new file, without the bits of its
mask. -/
def Options.finalPerm (o : Options) (found : Option UInt32) (umask mask : UInt32) : UInt32 :=
  ((o.fileMode.or (if o.keepFileMode then found else none)).or
    (o.defaultFileMode.map fun mode => mode &&& (umask ^^^ 0xFFFFFFFF))).getD
      (Writing.tempPerm &&& (mask ^^^ 0xFFFFFFFF)) &&& permMask

namespace Machine

theorem masked_permMask (m : Machine) (perm : UInt32) :
    m.masked (perm &&& permMask) = m.masked perm := by
  rw [masked, UInt32.and_assoc perm, UInt32.and_self, masked]

theorem masked_and_permMask (m : Machine) (perm : UInt32) :
    m.masked perm &&& permMask = m.masked perm := by
  rw [masked, UInt32.and_assoc (perm &&& permMask), UInt32.and_comm (_ ^^^ _),
    ← UInt32.and_assoc, UInt32.and_assoc perm, UInt32.and_self]

/-- A new file that nobody gives permissions lends no rights. -/
theorem eq_of_trimmed_masked {perm : UInt32} (h : Trimmed (m.masked Writing.tempPerm) perm) :
    perm = m.masked Writing.tempPerm := by
  rcases h with rfl | rfl
  · rfl
  · have hpart : ∀ mask : UInt32, Writing.tempPerm &&& mask = Writing.tempPerm →
        m.masked Writing.tempPerm &&& mask = m.masked Writing.tempPerm := by
      intro mask hmask
      rw [masked, UInt32.and_assoc, UInt32.and_comm _ mask, ← UInt32.and_assoc,
        UInt32.and_assoc _ permMask, UInt32.and_comm permMask, ← UInt32.and_assoc, hmask]
    rw [withoutLentRights_eq]
    split
    · exact hpart _ (by decide)
    · exact hpart _ (by decide)

end Machine

namespace Writing

/-- The permissions that are chosen are the ones that should come out, if those that are kept are
what was found where it counts. -/
theorem chosenPerm_eq_finalPerm_of_kept {options : Options} {kept : Option UInt32}
    {umask created : UInt32} {m' : Machine}
    (hkept : options.fileMode.or kept
      = options.fileMode.or (if options.keepFileMode then kept else none))
    (htrimmed : Trimmed (m'.masked (options.defaultFileMode.getD tempPerm)) created) :
    options.chosenPerm kept umask created &&& permMask = options.finalPerm kept umask m'.mask := by
  unfold Options.chosenPerm Options.finalPerm
  rw [← hkept]
  cases hgiven : options.fileMode.or kept with
  | some perm => rfl
  | none =>
    cases hdefault : options.defaultFileMode with
    | some mode => rfl
    | none =>
      rw [hdefault] at htrimmed
      have hcreated := Machine.eq_of_trimmed_masked htrimmed
      simp only [Option.map_none, Option.or_none, Option.getD_none]
      rw [hcreated, Machine.masked_and_permMask, Machine.masked, UInt32.and_assoc,
        UInt32.and_comm permMask, ← UInt32.and_assoc]

/-- The permissions that are chosen are the ones that should come out. -/
theorem chosenPerm_eq_finalPerm {path : Path} {options : Options} {kept : Option UInt32}
    {umask created : UInt32} {m' : Machine} (hlooked : Looked fails path options m events kept)
    (htrimmed : Trimmed (m'.masked (options.defaultFileMode.getD tempPerm)) created) :
    options.chosenPerm kept umask created &&& permMask = options.finalPerm kept umask m'.mask := by
  refine chosenPerm_eq_finalPerm_of_kept ?_ htrimmed
  cases hlooked with
  | spared _ => simp
  | found hkeep _ => simp [hkeep.2]
  | missing _ _ => simp

end Writing

end PortableFiles
