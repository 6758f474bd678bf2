import PortableFiles.Proofs.Writing.Draft
set_option autoImplicit false

/-!
# Atomic writes keep to their protocol

Part by part, from making the file to moving it: in which phases a part may start, and in which it
ends, whether it succeeds or fails (`AtomicWrite.obeys_routine`).
-/

namespace PortableFiles

variable {w : AtomicWrite} {m : Machine} {d : Draft} {s : Phase}

/-- A phase in which there is a draft at a path. -/
def Phase.HasDraft (path : Path) (s : Phase) : Prop := ∃ d, s = .drafting d ∧ d.path = path

theorem Routine.obeys_checkNul {operation : Operation} {path : Path} {Q : Unit → Phase → Prop}
    {E : Phase → Prop} (h : path.hasNul = false → Q () s) (herror : E s) :
    Obeys (w.protocol m) Q E (checkNul operation path) s := by
  unfold checkNul
  split
  · exact obeys_fail herror
  · rename_i hnul
    exact obeys_pure (h (by simpa using hnul))

/-! ## Making the file -/

namespace Writing

/-- A draft that has just been made. -/
structure Fresh (w : AtomicWrite) (m : Machine) (d : Draft) : Prop where
  noNul : d.path.hasNul = false
  isOpen : d.isOpen = true
  found : d.found = none
  content : d.node.content = .file []
  perm : d.node.perm = m.masked (w.effective.defaultFileMode.getD tempPerm)

theorem obeys_createNew (flags : OpenFlags) {k : Nat} {path : Path}
    (hpath : path = w.path.parentDir.join (m.tempName k)) :
    Routine.Obeys (w.protocol m)
      (fun writer s => ∃ d, s = .drafting d ∧ Fresh w m d ∧ d.path = path
        ∧ writer = ⟨d.file, path, false⟩)
      (fun s => s = .unmade)
      (Posix.platform.createNew path (w.effective.defaultFileMode.getD tempPerm)
        (flags.only .sync)) .unmade := by
  refine Routine.obeys_bind (Routine.obeys_checkNul ?_ rfl)
  intro hnul
  refine Routine.obeys_bind (Routine.obeys_callWith (.make hpath hnul) (fun _ => ?_) ?_ ?_)
  · intro s' hmoves
    cases hmoves
    rfl
  · intro file s' hmoves
    cases hmoves with
    | made hmade hfile hopen hfound hcontent hperm =>
      refine ⟨_, rfl, ⟨?_, hopen, hfound, hcontent, hperm⟩, hmade, ?_⟩
      · rw [hmade]
        exact hnul
      · rw [hfile, deleteOnClose_only_sync]
  · intro e s' hmoves
    cases hmoves
    rfl

theorem obeys_createNamed {flags : OpenFlags} (attempts : Nat) :
    Routine.Obeys (w.protocol m)
      (fun made s => ∃ d, s = .drafting d ∧ Fresh w m d
        ∧ made = (d.path, ⟨d.file, d.path, false⟩))
      (fun s => s = .unmade)
      (createNamed Posix.platform w.path.parentDir
        (w.effective.defaultFileMode.getD tempPerm) flags drawName attempts) .unmade := by
  induction attempts with
  | zero => exact Routine.obeys_fail rfl
  | succ attempts ih =>
    have hdraw : drawName.Obeys (w.protocol m)
        (fun name s => s = .unmade ∧ ∃ k, name = m.tempName k) .unmade := by
      refine Program.obeys_bind (Program.obeys_question .draw ?_)
      intro word hword
      cases hword with
      | @draw k => exact ⟨rfl, k, rfl⟩
    refine Routine.obeys_bind (Routine.obeys_lift (hdraw.mono ?_))
    rintro name s ⟨rfl, k, rfl⟩
    refine Routine.obeys_bind (Routine.obeys_attempt
      (Program.Obeys.mono (obeys_createNew flags rfl) ?_))
    rintro (e | writer) s hend
    · obtain rfl : s = .unmade := hend
      dsimp only
      split
      · exact ih
      · exact Routine.obeys_fail rfl
    · obtain ⟨d, rfl, hfresh, hpath, rfl⟩ := hend
      exact Routine.obeys_pure ⟨d, rfl, hfresh, by rw [hpath]⟩

end Writing

/-! ## Filling it -/

/-- A phase in which a draft has got some bytes more. -/
def Phase.HasGrown (d : Draft) (more : Bytes) (s : Phase) : Prop :=
  ∃ d', s = .drafting d' ∧ d.Grown more d'

theorem Draft.Grown.hasGrown {d' : Draft} {more more' : Bytes} (h : d.Grown more d')
    (hs : Phase.HasGrown d' more' s) : Phase.HasGrown d (more ++ more') s := by
  obtain ⟨d'', rfl, hmore⟩ := hs
  exact ⟨d'', rfl, h.trans hmore⟩

open Phase (HasGrown)

section Filling

variable {path : Path}

/-- Writing some bytes puts them at the end of the draft. -/
theorem Routine.obeys_writeAll {data : Bytes} (hd : d.IsWriting) :
    Obeys (w.protocol m) (fun _ => HasGrown d data) (fun s => ∃ more, HasGrown d more s)
      (writeAll path d.file data) (.drafting d) := by
  generalize hfile : d.file = file
  fun_induction writeAll path file data generalizing d with
  | case1 => exact obeys_pure ⟨d, rfl, hd.grown_nil⟩
  | case2 data hdata ih =>
    subst hfile
    refine ⟨.write hd.isOpen, fun _ s' hmoves => by cases hmoves; rfl, ?_⟩
    intro reply s' hmoves
    cases hmoves with
    | failed _ _ => exact ⟨[], d, rfl, hd.grown_nil⟩
    | @written _ d' _ _ count hgrown =>
      dsimp only
      split
      · exact ⟨_, d', rfl, hgrown⟩
      · rename_i hcount
        have hsplit := List.take_append_drop count data
        refine Obeys.mono (ih count hcount (hd.of_grown hgrown) hgrown.file_eq) ?_ ?_
        · intro _ s hmore
          exact hsplit ▸ hgrown.hasGrown hmore
        · rintro s ⟨more, hmore⟩
          exact ⟨_, hgrown.hasGrown hmore⟩

/-- Passing some parts on puts all of them at the end of the draft. -/
theorem Routine.obeys_forIn {parts : List Bytes} (hd : d.IsWriting) :
    Obeys (w.protocol m) (fun _ => HasGrown d parts.flatten) (fun s => ∃ more, HasGrown d more s)
      (forIn parts PUnit.unit fun part _ => do
        writeAll path d.file part
        pure (ForInStep.yield PUnit.unit)) (.drafting d) := by
  induction parts generalizing d with
  | nil => exact obeys_pure ⟨d, rfl, hd.grown_nil⟩
  | cons part parts ih =>
    rw [List.forIn_cons]
    refine obeys_bind (obeys_bind (Obeys.mono (obeys_writeAll hd) ?_ fun _ h => h))
    rintro _ s ⟨d', rfl, hgrown⟩
    have hrest := ih (hd.of_grown hgrown)
    rw [hgrown.file_eq] at hrest
    refine obeys_pure (Obeys.mono hrest ?_ ?_)
    · intro _ s hmore
      exact hgrown.hasGrown hmore
    · rintro s ⟨more, hmore⟩
      exact ⟨_, hgrown.hasGrown hmore⟩

/-- Copying a stream that comes to its end puts all that it delivers at the end of the draft. -/
theorem Reader.obeys_copyTo {reader : Reader} (hquiet : reader.IsQuiet) (hd : d.IsWriting) :
    Routine.Obeys (w.protocol m) (fun _ s => HasGrown d reader.delivered s ∧ reader.Ends)
      (fun s => ∃ more, HasGrown d more s)
      (copyTo path (Routine.writeAll path d.file) reader) (.drafting d) := by
  induction reader generalizing d with
  | nil => exact Routine.obeys_pure ⟨⟨d, rfl, hd.grown_nil⟩, trivial⟩
  | cons chunk rest ih =>
    cases chunk with
    | bytes data =>
      rw [copyTo, delivered, Ends]
      split
      · rename_i hdata
        exact Routine.obeys_pure ⟨⟨d, rfl, hd.grown_nil⟩, Or.inl hdata⟩
      · refine Routine.obeys_bind (Routine.Obeys.mono (Routine.obeys_forIn hd) ?_ fun _ h => h)
        rintro _ s ⟨d', rfl, hgrown⟩
        rw [buffersFull_flatten] at hgrown
        have hrest := ih hquiet.tail (hd.of_grown hgrown)
        rw [hgrown.file_eq] at hrest
        refine Routine.obeys_bind (Routine.Obeys.mono hrest ?_ ?_)
        · rintro _ s ⟨hmore, hends⟩
          exact Routine.obeys_pure ⟨hgrown.hasGrown hmore, Or.inr hends⟩
        · rintro s ⟨more, hmore⟩
          exact ⟨_, hgrown.hasGrown hmore⟩
    | failure e =>
      rw [copyTo, delivered, Ends]
      split
      · rename_i hinterrupted
        refine Routine.Obeys.mono (ih hquiet.tail hd) ?_ fun _ h => h
        rintro _ s ⟨hgrown, hends⟩
        exact ⟨hgrown, hinterrupted, hends⟩
      · exact Routine.obeys_fail ⟨[], d, rfl, hd.grown_nil⟩
    | meanwhile others => exact absurd List.mem_cons_self (hquiet others)

/-- Closing lets go of the draft whatever comes of it. -/
theorem Posix.obeys_close (hopen : d.isOpen = true) :
    Routine.Obeys (w.protocol m) (fun _ s => s = .drafting { d with isOpen := false })
      (fun s => s = .drafting { d with isOpen := false })
      (close ⟨d.file, path, false⟩) (.drafting d) := by
  rw [close_eq]
  refine Routine.obeys_bind (Routine.obeys_lift ⟨.close hopen, nofun, ?_⟩)
  intro reply s' hmoves
  have hs' : s' = .drafting { d with isOpen := false } := by
    cases hmoves with
    | failed hclose _ => exact absurd rfl (hclose _)
    | closed => rfl
  change Routine.Obeys (w.protocol m) _ _ (closed path reply) s'
  cases reply with
  | ok _ => exact Routine.obeys_pure hs'
  | error errno =>
    rw [closed]
    split
    · exact Routine.obeys_pure hs'
    · exact Routine.obeys_fail hs'

theorem Posix.obeys_abandon (hopen : d.isOpen = true) :
    (platform.abandon ⟨d.file, path, false⟩).Obeys (w.protocol m)
      (fun _ s => s = .drafting { d with isOpen := false }) (.drafting d) := by
  refine Program.obeys_bind ⟨.close hopen, nofun, ?_⟩
  intro reply s' hmoves
  cases hmoves with
  | failed hclose _ => exact absurd rfl (hclose _)
  | closed => rfl

/-- A draft when it is written and closed, with the permissions that it had then. -/
def Phase.IsFilled (d : Draft) (data : Bytes) (created : UInt32) (s : Phase) : Prop :=
  ∃ perm, s = .drafting { d.revised data perm with isOpen := false }
    ∧ Trimmed d.node.perm perm ∧ created = perm &&& permMask

/-- Bringing a draft to the device and looking at it leaves it as it is. -/
theorem Posix.obeys_check (hopen : d.isOpen = true) :
    Routine.Obeys (w.protocol m)
      (fun created s => s = .drafting d ∧ created = d.node.perm &&& permMask)
      (fun s => s = .drafting d)
      (do
        platform.sync ⟨d.file, path, false⟩
        platform.perm ⟨d.file, path, false⟩) (.drafting d) := by
  refine Routine.obeys_bind (Routine.obeys_call (.sync hopen) ?_ ?_)
  · intro _ s' hmoves
    cases hmoves
    refine Routine.obeys_bind (Routine.obeys_call (.statOpen hopen) ?_ ?_)
    · intro stat s' hmoves
      cases hmoves with
      | described hperm => exact Routine.obeys_pure ⟨rfl, by rw [hperm]⟩
    · intro e s' hmoves
      cases hmoves
      rfl
  · intro e s' hmoves
    cases hmoves
    rfl

/-- Filling an empty draft puts all that the reader delivers up to its end into it and closes
it. -/
theorem Writing.obeys_fill {reader : Reader} (hquiet : reader.IsQuiet) (hopen : d.isOpen = true)
    (hempty : d.node.content = .file []) :
    Routine.Obeys (w.protocol m)
      (fun created s => Phase.IsFilled d reader.delivered created s ∧ reader.Ends)
      (Phase.HasDraft d.path)
      (fill Posix.platform ⟨d.file, path, false⟩ reader) (.drafting d) := by
  have hd : d.IsWriting := ⟨hopen, [], hempty⟩
  have hwriting : Routine.Obeys (w.protocol m)
      (fun created s => (∃ d', s = .drafting d' ∧ d.Grown reader.delivered d'
        ∧ created = d'.node.perm &&& permMask) ∧ reader.Ends)
      (fun s => ∃ more, HasGrown d more s) (do
        let _ ← reader.copyTo path (Routine.writeAll path d.file)
        Posix.platform.sync ⟨d.file, path, false⟩
        Posix.platform.perm ⟨d.file, path, false⟩) (.drafting d) := by
    refine Routine.obeys_bind (Routine.Obeys.mono (Reader.obeys_copyTo hquiet hd) ?_ fun _ h => h)
    rintro _ s ⟨⟨d', rfl, hgrown⟩, hends⟩
    rw [← hgrown.file_eq]
    refine Routine.Obeys.mono (Posix.obeys_check (hd.of_grown hgrown).isOpen) ?_ ?_
    · rintro created s ⟨rfl, hcreated⟩
      exact ⟨⟨d', rfl, hgrown, hcreated⟩, hends⟩
    · rintro s rfl
      exact ⟨_, d', rfl, hgrown⟩
  refine Routine.obeys_bind (Routine.obeys_withCleanup (Routine.Obeys.mono hwriting ?_ ?_))
  · rintro created s ⟨⟨d', rfl, hgrown, hcreated⟩, hends⟩
    rw [← hgrown.file_eq]
    refine Routine.obeys_bind (Routine.Obeys.mono
      (Posix.obeys_close (hd.of_grown hgrown).isOpen) ?_ ?_)
    · rintro _ s rfl
      obtain ⟨data, perm, hdata, htrimmed, rfl⟩ := hgrown
      rw [hempty] at hdata
      cases hdata
      exact Routine.obeys_pure ⟨⟨perm, rfl, htrimmed, hcreated⟩, hends⟩
    · rintro s rfl
      exact ⟨_, rfl, hgrown.path_eq⟩
  · rintro s ⟨more, d', rfl, hgrown⟩
    rw [← hgrown.file_eq]
    refine Program.Obeys.mono (Posix.obeys_abandon (hd.of_grown hgrown).isOpen) ?_
    rintro _ s rfl
    exact ⟨_, rfl, hgrown.path_eq⟩

end Filling

/-! ## Setting its permissions -/

section Permissions

open Phase (HasDraft)

/-- The mask is the one that the process knows of. -/
theorem Umask.obeys_ofSystem :
    ofSystem.Obeys (w.protocol m) (fun mask s => s = .drafting d ∧ mask = m.umask)
      (.drafting d) := by
  refine Program.obeys_bind (Program.obeys_question .recallMask ?_)
  intro remembered hanswer
  cases hanswer with
  | recallMask hmask =>
    cases remembered with
    | some mask => exact ⟨rfl, hmask⟩
    | none =>
      have hread : readSystem.Obeys (w.protocol m)
          (fun mask s => s = .drafting d ∧ mask = m.umask) (.drafting d) := by
        refine Program.obeys_bind (Program.obeys_bind (Program.obeys_question .status ?_))
        intro status hanswer
        cases hanswer with
        | status hshown =>
          rw [Option.bind_some, hshown]
          exact ⟨rfl, hmask⟩
      refine Program.obeys_bind (hread.mono ?_)
      rintro mask s ⟨rfl, rfl⟩
      refine Program.obeys_bind (Program.obeys_question .rememberMask ?_)
      intro _ _
      exact ⟨rfl, rfl⟩

namespace Writing

/-- What a look at the destination shows is kept where it should be. -/
theorem obeys_keptPerm (hfound : d.found = none) :
    Routine.Obeys (w.protocol m)
      (fun kept s => s = .drafting { d with found := kept }
        ∧ kept = if w.effective.keepFileMode then kept else none)
      (HasDraft d.path) (keptPerm w.path w.effective) (.drafting d) := by
  have hsame : Phase.drafting d = .drafting { d with found := none } := by rw [← hfound]
  have hstat : Routine.Obeys (w.protocol m)
      (fun info s => s = .drafting { d with found := some info.mode.permSpecial })
      (fun s => s = .drafting { d with found := none })
      (Posix.platform.stat w.path) (.drafting d) := by
    refine Routine.obeys_bind (Routine.obeys_checkNul (fun _ => ?_) hsame)
    refine Routine.obeys_bind (Routine.obeys_call .look ?_ ?_)
    · intro stat s' hmoves
      cases hmoves
      refine Routine.obeys_pure ?_
      rw [Posix.permSpecial_record, hfound, Option.none_or]
    · intro e s' hmoves
      cases hmoves
      exact hsame
  unfold keptPerm
  split
  · rename_i hkeep
    refine Routine.obeys_bind (Routine.obeys_attempt (Program.Obeys.mono hstat ?_))
    rintro (e | info) s hend
    · obtain rfl : s = _ := hend
      dsimp only
      split
      · exact Routine.obeys_pure ⟨rfl, by simp⟩
      · exact Routine.obeys_fail ⟨_, rfl, rfl⟩
    · exact Routine.obeys_pure ⟨hend, by simp⟩
  · exact Routine.obeys_pure ⟨hsame, by simp⟩

theorem obeys_choosePerm {kept : Option UInt32} {created : UInt32}
    (hmode : w.effective.fileMode = none) :
    Routine.Obeys (w.protocol m)
      (fun perm s => s = .drafting d ∧ perm = w.effective.chosenPerm kept m.umask created)
      (HasDraft d.path) (choosePerm w.effective created kept) (.drafting d) := by
  unfold choosePerm
  cases kept with
  | some kept => exact Routine.obeys_pure ⟨rfl, by simp [Options.chosenPerm, hmode]⟩
  | none =>
    cases hdefault : w.effective.defaultFileMode with
    | none => exact Routine.obeys_pure ⟨rfl, by simp [Options.chosenPerm, hmode, hdefault]⟩
    | some mode =>
      refine Routine.obeys_bind (Routine.obeys_lift (Umask.obeys_ofSystem.mono ?_))
      rintro mask s ⟨rfl, rfl⟩
      exact Routine.obeys_pure ⟨rfl, by simp [Options.chosenPerm, hmode, hdefault]⟩

/-- Permissions are chosen by what is found at the destination where it is to be kept. -/
theorem obeys_finalPerm {created : UInt32} (hfound : d.found = none) :
    Routine.Obeys (w.protocol m)
      (fun perm s => ∃ found, s = .drafting { d with found := found }
        ∧ w.effective.fileMode.or found
            = w.effective.fileMode.or (if w.effective.keepFileMode then found else none)
        ∧ perm = w.effective.chosenPerm found m.umask created)
      (HasDraft d.path) (finalPerm Posix.platform w.path w.effective created) (.drafting d) := by
  cases hmode : w.effective.fileMode with
  | some mode =>
    rw [finalPerm_of_fileMode_eq_some hmode]
    refine Routine.obeys_pure ⟨none, ?_, rfl, by simp [Options.chosenPerm, hmode]⟩
    rw [← hfound]
  | none =>
    rw [finalPerm_of_fileMode_eq_none hmode]
    refine Routine.obeys_bind (Routine.Obeys.mono (obeys_keptPerm hfound) ?_ fun _ h => h)
    rintro kept s ⟨rfl, hkept⟩
    refine Routine.Obeys.mono (obeys_choosePerm hmode) ?_ fun _ h => h
    rintro perm s ⟨rfl, hperm⟩
    exact ⟨kept, rfl, congrArg _ hkept, hperm⟩

/-- Afterwards the draft has the permissions that it should. -/
theorem obeys_adjustPerm {created perm : UInt32} (hcreated : created = d.node.perm)
    (hbits : created &&& permMask = created) :
    Routine.Obeys (w.protocol m)
      (fun _ s => ∃ perm', s = .drafting { d with node := { d.node with perm := perm' } }
        ∧ m.Honours { d.node with perm := perm' } (perm &&& permMask))
      (HasDraft d.path) (adjustPerm d.path created perm) (.drafting d) := by
  unfold adjustPerm
  split
  · refine Routine.obeys_bind (Routine.obeys_checkNul (fun _ => ?_) ⟨d, rfl, rfl⟩)
    refine Routine.obeys_call .chmod ?_ ?_
    · intro _ s' hmoves
      cases hmoves
      refine ⟨_, rfl, ?_⟩
      have hmask : perm &&& permMask &&& permMask = perm &&& permMask := by
        rw [UInt32.and_assoc, UInt32.and_self]
      have hgranted := m.granted_cases d.node (perm &&& permMask)
      rw [hmask] at hgranted
      exact Machine.honours_iff.2 hgranted
    · intro e s' hmoves
      cases hmoves
      exact ⟨d, rfl, rfl⟩
  · rename_i hsame
    obtain rfl : perm = created := by simpa using hsame
    exact Routine.obeys_pure ⟨perm, by rw [hcreated], Machine.honours_iff.2 (Or.inl hbits.symm)⟩

end Writing

end Permissions

/-! ## Moving or removing it -/

namespace Writing

open Phase (HasDraft)

theorem obeys_rename (hends : w.reader.Ends) (hleaves : w.Leaves m d.found d.node) :
    Routine.Obeys (w.protocol m) (fun _ s => s = .settled) (HasDraft d.path)
      (Posix.platform.rename d.path w.path) (.drafting d) := by
  refine Routine.obeys_bind (Routine.obeys_checkNul (fun _ => ?_) ⟨d, rfl, rfl⟩)
  refine Routine.obeys_bind (Routine.obeys_checkNul (fun _ => ?_) ⟨d, rfl, rfl⟩)
  refine Routine.obeys_call (.rename hends hleaves) ?_ ?_
  · intro _ s' hmoves
    cases hmoves
    rfl
  · intro e s' hmoves
    cases hmoves
    exact ⟨d, rfl, rfl⟩

/-- A draft that is filled is given its permissions, and then it is what it should be. -/
theorem obeys_publish {created : UInt32} (hfound : d.found = none) (hends : w.reader.Ends)
    (hcontent : d.node.content = .file w.reader.delivered) (hcreated : created = d.node.perm)
    (htrimmed : Trimmed (m.masked (w.effective.defaultFileMode.getD tempPerm)) created) :
    Routine.Obeys (w.protocol m) (fun _ s => s = .settled) (HasDraft d.path)
      (publish Posix.platform d.path w.path w.effective created) (.drafting d) := by
  rw [publish_eq]
  refine Routine.obeys_bind (Routine.Obeys.mono (obeys_finalPerm hfound) ?_ fun _ h => h)
  rintro perm s ⟨found, rfl, hkept, rfl⟩
  have hbits := htrimmed.and_permMask (m.masked_and_permMask _)
  refine Routine.obeys_bind (Routine.Obeys.mono
    (obeys_adjustPerm (d := { d with found := found }) hcreated hbits) ?_ fun _ h => h)
  rintro _ s ⟨perm, rfl, hhonours⟩
  rw [chosenPerm_eq_finalPerm_of_kept hkept htrimmed] at hhonours
  exact obeys_rename (d := { d with found := found, node := { d.node with perm := perm } }) hends
    ⟨hcontent, hhonours⟩

/-- A draft that is given up is removed. -/
theorem obeys_removeFile (hnul : d.path.hasNul = false) :
    (Posix.platform.removeFile d.path).ignoringErrors.Obeys (w.protocol m)
      (fun _ s => s = .settled) (.drafting d) := by
  have hcheck : Routine.checkNul .remove d.path = pure () := by
    unfold Routine.checkNul
    rw [hnul]
    rfl
  refine Routine.obeys_ignoringErrors ?_
  change Routine.Obeys _ _ _ (Posix.removeFile d.path) _
  rw [Posix.removeFile, hcheck]
  refine Routine.obeys_bind (Routine.obeys_pure (Routine.obeys_call .unlink ?_ ?_))
  · intro _ s' hmoves
    cases hmoves
    rfl
  · intro e s' hmoves
    cases hmoves with
    | failed _ hunlink => exact absurd rfl (hunlink _)

end Writing

/-- Every atomic write keeps to its protocol, and has no draft in the end. -/
theorem AtomicWrite.obeys_routine (hquiet : w.reader.IsQuiet) :
    Routine.Obeys (w.protocol m) (fun _ s => s = .settled) (fun s => s = .unmade ∨ s = .settled)
      w.routine .unmade := by
  rw [routine_eq, Writing.atomicFromReader]
  split
  · exact Routine.obeys_fail (Or.inl rfl)
  refine Routine.obeys_bind (Routine.Obeys.mono (Writing.obeys_createNamed _) ?_ fun _ => Or.inl)
  rintro _ s ⟨d, rfl, hfresh, rfl⟩
  -- Where filling or publishing fails, there is a draft at the same path, and it is removed.
  have hclean : ∀ s, Phase.HasDraft d.path s →
      (Posix.platform.removeFile d.path).ignoringErrors.Obeys (w.protocol m)
        (fun _ s => s = .unmade ∨ s = .settled) s := by
    rintro s ⟨d', rfl, hpath⟩
    have hnul := hfresh.noNul
    rw [← hpath] at hnul ⊢
    exact (Writing.obeys_removeFile hnul).mono fun _ _ => Or.inr
  refine Routine.obeys_bind (Routine.obeys_withCleanup (Routine.obeys_bind
    (Routine.Obeys.mono (Writing.obeys_fill hquiet hfresh.isOpen hfresh.content) ?_ hclean)))
  rintro created s ⟨⟨perm, rfl, htrimmed, rfl⟩, hends⟩
  rw [hfresh.perm] at htrimmed
  rw [htrimmed.and_permMask (m.masked_and_permMask _)]
  refine Routine.Obeys.mono
    (Writing.obeys_publish (d := { d.revised w.reader.delivered perm with isOpen := false })
      hfresh.found hends rfl rfl htrimmed) ?_ hclean
  rintro _ s rfl
  exact Routine.obeys_pure rfl

end PortableFiles
