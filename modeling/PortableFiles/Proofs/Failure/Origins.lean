import PortableFiles.Kernel.Run
import PortableFiles.Operations
import PortableFiles.Platform.Posix
import PortableFiles.Proofs.Failure.Kinds
import PortableFiles.Writing.InPlace
set_option autoImplicit false

/-!
# Where errors come from

With which errors a program can end, whatever the system answers (`Program.Gives`,
`Routine.Raises`), is read off its parts: first the functions of a POSIX system, and then the
operations over any platform whose functions fail in the ways in which errors arise.
-/

namespace PortableFiles

namespace Program

variable {α β : Type} {Q : α → Prop} {R : β → Prop}

/-- Every value with which a program can end, whatever it is answered, satisfies `Q`. -/
def Gives (Q : α → Prop) : Program α → Prop
  | .done value => Q value
  | .call _ _ next => ∀ reply, Gives Q (next reply)
  | .ask _ next => ∀ answer, Gives Q (next answer)

theorem gives_true (p : Program α) : p.Gives fun _ => True := by
  induction p with
  | done value => trivial
  | call c restarts next ih => exact ih
  | ask q next ih => exact ih

theorem Gives.mono {p : Program α} {S : α → Prop} (h : p.Gives Q)
    (hQS : ∀ value, Q value → S value) : p.Gives S := by
  induction p with
  | done value => exact hQS value h
  | call c restarts next ih => exact fun reply => ih reply (h reply)
  | ask q next ih => exact fun answer => ih answer (h answer)

theorem Gives.bind {p : Program α} {f : α → Program β} (hp : p.Gives Q)
    (hf : ∀ value, Q value → (f value).Gives R) : (p >>= f).Gives R := by
  change (p.andThen f).Gives R
  induction p with
  | done value => exact hf value hp
  | call c restarts next ih => exact fun reply => ih reply (hp reply)
  | ask q next ih => exact fun answer => ih answer (hp answer)

/-- After a program of which nothing is known comes one that always gives such values. -/
theorem gives_bind {p : Program α} {f : α → Program β} (hf : ∀ value, (f value).Gives R) :
    (p >>= f).Gives R := p.gives_true.bind fun value _ => hf value

theorem Gives.run {p : Program α} (h : p.Gives Q) (m : Machine) : Q (p.run m).1 := by
  induction p generalizing m with
  | done value => exact h
  | call c restarts next ih => exact ih _ (h _) _
  | ask q next ih => exact ih _ (h _) _

end Program

namespace Routine

variable {α β : Type} {P : Error → Prop} {Q : α → Prop} {R : β → Prop}

/-- Every value to which a routine can come, whatever it is answered, satisfies `Q`, and every error
with which it can fail satisfies `P`. -/
def EndsIn (Q : α → Prop) (P : Error → Prop) (t : Routine α) : Prop :=
  t.outcome.Gives fun
    | .ok value => Q value
    | .error e => P e

/-- Every error with which a routine can fail, whatever it is answered, satisfies `P`. -/
abbrev Raises (P : Error → Prop) (t : Routine α) : Prop := EndsIn (fun _ => True) P t

theorem EndsIn.raises {t : Routine α} (h : EndsIn Q P t) : Raises P t := by
  refine Program.Gives.mono h fun result hresult => ?_
  cases result with
  | ok value => trivial
  | error e => exact hresult

theorem endsIn_pure {value : α} (h : Q value) : EndsIn Q P (pure value : Routine α) := h

theorem raises_pure (value : α) : Raises P (pure value : Routine α) := trivial

theorem raises_fail {e : Error} (h : P e) : EndsIn Q P (fail e : Routine α) := h

theorem raises_call {operation : Operation} {path : Path} {c : Call}
    (h : ∀ errno, P (.ofErrno operation path errno)) : Raises P (call operation path c) := by
  intro reply
  cases reply with
  | ok value => trivial
  | error errno => exact h errno

theorem raises_bind {t : Routine α} {f : α → Routine β} (ht : Raises P t)
    (hf : ∀ value, EndsIn R P (f value)) : EndsIn R P (t >>= f) := by
  refine Program.Gives.bind ht fun result hresult => ?_
  cases result with
  | ok value => exact hf value
  | error e => exact hresult

theorem raises_lift (p : Program α) : Raises P (lift p) := Program.gives_bind fun _ => trivial

theorem raises_ask (q : Query) : Raises P (ask q) := fun _ => trivial

/-- A routine that is tried out passes its error on to what comes after it. -/
theorem raises_attempt_bind {t : Routine α} {f : Except Error α → Routine β} (ht : Raises P t)
    (hvalue : ∀ value, Raises P (f (.ok value))) (herror : ∀ e, P e → Raises P (f (.error e))) :
    Raises P (t.attempt >>= f) := by
  have hattempt : t.attempt.outcome.Gives fun result =>
      ∃ r, result = .ok r ∧ ∀ e, r = .error e → P e := by
    refine Program.Gives.bind ht fun result hresult => ⟨result, rfl, ?_⟩
    rintro e rfl
    exact hresult
  refine Program.Gives.bind hattempt ?_
  rintro _ ⟨result, rfl, hresult⟩
  cases result with
  | ok value => exact hvalue value
  | error e => exact herror e (hresult e rfl)

theorem raises_withCleanup {cleanup : Program Unit} {t : Routine α} (ht : Raises P t) :
    Raises P (t.withCleanup cleanup) := by
  refine Program.Gives.bind ht fun result hresult => ?_
  cases result with
  | ok value => exact raises_pure value
  | error e => exact Program.gives_bind fun _ => hresult

theorem raises_forIn {γ : Type} {sink : γ → Routine Unit} (hsink : ∀ part, Raises P (sink part))
    (parts : List γ) :
    Raises P (forIn parts PUnit.unit fun part _ => do
      sink part
      pure (ForInStep.yield PUnit.unit)) := by
  induction parts with
  | nil => exact raises_pure _
  | cons part parts ih =>
    rw [List.forIn_cons]
    refine raises_bind (raises_bind (hsink part) fun _ => raises_pure _) fun step => ?_
    cases step with
    | done value => exact raises_pure _
    | yield value => exact ih

end Routine

open Routine Error

/-! ## Parts of operations -/

variable {operation : Operation} {path : Path}

theorem Routine.raises_checkNul : Raises Arises (checkNul operation path) := by
  unfold checkNul
  split
  · exact raises_fail (.nulInPath _ _)
  · exact raises_pure ()

/-- A call of the system fails with an error of its number. -/
theorem Routine.raises_system {c : Call} : Raises Arises (call operation path c) :=
  raises_call fun errno => .io operation path (.os errno)

theorem Routine.raises_writeAll {file : Descriptor} (data : Bytes) :
    Raises Arises (writeAll path file data) := by
  fun_induction writeAll path file data with
  | case1 => exact raises_pure ()
  | case2 data hdata ih =>
    intro reply
    cases reply with
    | error errno => exact raises_fail (.io _ _ _)
    | ok written =>
      simp only
      split
      · exact raises_fail (.io _ _ _)
      · rename_i hwritten
        exact ih written hwritten

theorem Reader.raises_copyTo {sink : Bytes → Routine Unit}
    (hsink : ∀ part, Raises Arises (sink part)) (reader : Reader) :
    Raises Arises (copyTo path sink reader) := by
  induction reader with
  | nil => exact raises_pure 0
  | cons chunk rest ih =>
    cases chunk with
    | bytes data =>
      rw [copyTo]
      split
      · exact raises_pure 0
      · exact raises_bind (raises_forIn hsink _) fun _ => raises_bind ih fun _ => raises_pure _
    | failure failure =>
      rw [copyTo]
      split
      · exact ih
      · exact raises_fail (.io _ _ _)
    | meanwhile others => exact raises_bind (raises_lift others) fun _ => ih

/-! ## Platforms -/

/-- The errors that metadata hold. -/
def FileInfo.errors (info : FileInfo) : List Error :=
  info.btime.error?.toList ++ info.changeTime.error?.toList ++ info.owner.error?.toList

/-- Every error with which a function of a platform can fail satisfies `P`, and new metadata hold
no error. -/
structure Platform.Raises (P : Error → Prop) (p : Platform) : Prop where
  stat : ∀ path, EndsIn (fun info => info.errors = []) P (p.stat path)
  lstat : ∀ path, EndsIn (fun info => info.errors = []) P (p.lstat path)
  fstat : ∀ file, EndsIn (fun info => info.errors = []) P (p.fstat file)
  btime : ∀ info, Routine.Raises P (ofOutcome (p.resolvers.btime info))
  changeTime : ∀ info, Routine.Raises P (ofOutcome (p.resolvers.changeTime info))
  owner : ∀ info, Routine.Raises P (ofOutcome (p.resolvers.owner info))
  createNew : ∀ path perm flags, Routine.Raises P (p.createNew path perm flags)
  create : ∀ path perm flags, Routine.Raises P (p.create path perm flags)
  writeAll : ∀ writer data, Routine.Raises P (p.writeAll writer data)
  sync : ∀ writer, Routine.Raises P (p.sync writer)
  perm : ∀ writer, Routine.Raises P (p.perm writer)
  close : ∀ writer, Routine.Raises P (p.close writer)
  chmod : ∀ path perm, Routine.Raises P (p.chmod path perm)
  rename : ∀ source destination, Routine.Raises P (p.rename source destination)
  prepareDestination : ∀ path options, Routine.Raises P (p.prepareDestination path options)
  finishDestination : ∀ path options, Routine.Raises P (p.finishDestination path options)
  symlink : ∀ target link, Routine.Raises P (p.symlink target link)
  chownSymlink : ∀ link, Routine.Raises P (p.chownSymlink link)

namespace Posix

theorem raises_removeFile : Raises Arises (removeFile path) :=
  raises_bind raises_checkNul fun _ => raises_system

theorem endsIn_statPath {follow : Bool} :
    EndsIn (fun info => info.errors = []) Arises (statPath operation follow path) :=
  raises_bind raises_checkNul fun _ => raises_bind raises_system fun _ => endsIn_pure rfl

theorem raises_openWriter {how : OpenHow} {perm : UInt32} {flags : OpenFlags} :
    Raises Arises (openWriter operation path how perm flags) :=
  raises_bind raises_checkNul fun _ => raises_bind raises_system fun _ => raises_pure _

theorem raises_close {writer : Writer} : Raises Arises (close writer) := by
  have hend : Raises Arises (if writer.deleteOnClose then removeFile writer.path else pure ()) := by
    split
    · exact raises_removeFile
    · exact raises_pure ()
  refine raises_bind (raises_lift _) fun reply => ?_
  cases reply with
  | ok value => exact hend
  | error errno =>
    dsimp only
    split
    · exact raises_bind (raises_fail (.io _ _ _)) fun _ => hend
    · exact hend

/-- Every function of a POSIX system fails in one of the ways in which errors arise. -/
theorem platform_raises : platform.Raises Arises where
  stat _ := endsIn_statPath
  lstat _ := endsIn_statPath
  fstat _ := raises_bind raises_system fun _ => raises_bind raises_system fun _ => endsIn_pure rfl
  btime _ := raises_bind raises_checkNul fun _ => raises_bind raises_system fun _ => raises_pure _
  changeTime _ := raises_pure _
  owner _ := raises_bind raises_system fun _ => raises_bind raises_system fun _ => raises_pure _
  createNew _ _ _ := raises_openWriter
  create _ _ _ := raises_openWriter
  writeAll _ data := raises_writeAll data
  sync _ := raises_system
  perm _ := raises_bind raises_system fun _ => raises_pure _
  close _ := raises_close
  chmod _ _ := raises_bind raises_checkNul fun _ => raises_system
  rename _ _ := raises_bind raises_checkNul fun _ =>
    raises_bind raises_checkNul fun _ => raises_system
  prepareDestination _ _ := raises_pure ()
  finishDestination _ _ := raises_pure ()
  symlink _ _ := raises_bind raises_checkNul fun _ =>
    raises_bind raises_checkNul fun _ => raises_system
  chownSymlink _ := raises_bind raises_checkNul fun _ =>
    raises_bind (raises_ask _) fun _ => raises_bind (raises_ask _) fun _ => raises_system

end Posix

/-! ## Operations -/

section Operations

variable {p : Platform} (hp : p.Raises Arises)

include hp

namespace Writing

theorem raises_createNamed {perm : UInt32} {flags : OpenFlags} {nextName : Program Bytes}
    (attempts : Nat) : Raises Arises (createNamed p path perm flags nextName attempts) := by
  induction attempts with
  | zero => exact raises_fail (.tempNamesExhausted _)
  | succ attempts ih =>
    refine raises_bind (raises_lift _) fun name =>
      raises_attempt_bind (hp.createNew _ _ _) (fun _ => raises_pure _) fun e he => ?_
    dsimp only
    split
    · exact ih
    · exact raises_fail he

theorem raises_fill {writer : Writer} {reader : Reader} : Raises Arises (fill p writer reader) := by
  refine raises_bind (raises_withCleanup ?_) fun perm =>
    raises_bind (hp.close writer) fun _ => raises_pure perm
  exact raises_bind (reader.raises_copyTo (hp.writeAll writer)) fun _ =>
    raises_bind (hp.sync writer) fun _ => hp.perm writer

theorem raises_finalPerm {options : Options} {created : UInt32} :
    Raises Arises (finalPerm p path options created) := by
  unfold finalPerm
  split
  · exact raises_pure _
  · refine raises_bind ?_ fun kept => ?_
    · split
      · refine raises_attempt_bind (hp.stat path).raises (fun _ => raises_pure _) fun e he => ?_
        dsimp only
        split
        · exact raises_pure _
        · exact raises_fail he
      · exact raises_pure _
    · split
      · exact raises_pure _
      · exact raises_bind (raises_lift _) fun _ => raises_pure _
      · exact raises_pure _

theorem raises_publish {temp destination : Path} {options : Options} {created : UInt32} :
    Raises Arises (publish p temp destination options created) := by
  refine raises_bind (raises_finalPerm hp) fun perm => ?_
  have hmove : Raises Arises (do
      p.prepareDestination destination options
      p.rename temp destination) :=
    raises_bind (hp.prepareDestination _ _) fun _ => hp.rename _ _
  dsimp only
  split
  · exact raises_bind (hp.chmod _ _) fun _ => hmove
  · exact hmove

theorem raises_atomicFromReader (reader : Reader) (options : Options) :
    Raises Arises (atomicFromReader p path reader options) := by
  unfold atomicFromReader
  split
  · exact raises_fail (.emptyPath _)
  · refine raises_bind (raises_createNamed hp _) fun made => ?_
    refine raises_bind (raises_withCleanup ?_) fun _ => hp.finishDestination _ _
    exact raises_bind (raises_fill hp) fun _ => raises_publish hp

theorem raises_fromReader (reader : Reader) (mode : UInt32) (options : Options) :
    Raises Arises (fromReader p path reader mode options) := by
  unfold fromReader
  split
  · exact raises_atomicFromReader hp _ _
  · split
    · exact raises_fail (.emptyPath _)
    · refine raises_bind (hp.prepareDestination _ _) fun _ =>
        raises_bind (hp.create _ _ _) fun writer => ?_
      refine raises_bind (raises_withCleanup ?_) fun _ =>
        raises_bind (hp.close _) fun _ => hp.finishDestination _ _
      refine raises_bind (reader.raises_copyTo (hp.writeAll writer)) fun _ => ?_
      split
      · exact hp.chmod _ _
      · exact raises_pure ()

end Writing

namespace Operations

theorem raises_chmod {mode : UInt32} : Raises Arises (chmod p path mode) := by
  unfold chmod
  split
  · exact raises_fail (.emptyPath _)
  · exact hp.chmod _ _

theorem raises_rename {source destination : Path} :
    Raises Arises (rename p source destination) := by
  unfold rename
  split
  · exact raises_fail (.emptyPath _)
  · exact hp.rename _ _

theorem raises_symlink {target link : Path} {options : Options} :
    Raises Arises (symlink p target link options) := by
  unfold symlink
  split
  · exact raises_fail (.unsupported _ _)
  · split
    · exact raises_fail (.emptyPath _)
    · refine raises_bind (hp.symlink _ _) fun _ => ?_
      split
      · exact hp.chownSymlink _
      · exact raises_pure ()

theorem endsIn_fstat {file : Descriptor} :
    EndsIn (fun info => info.errors = []) Arises (fstat p file) := by
  unfold fstat
  split
  · exact hp.fstat _
  · exact raises_fail (.unsupported _ _)

/-- Two files are compared once both have been found. -/
theorem raises_compare {a b : Path} {same : FileMeta → FileMeta → Bool} :
    Raises Arises (do return same (.own (← p.stat a)) (.own (← p.stat b))) :=
  raises_bind (hp.stat a).raises fun _ => raises_bind (hp.stat b).raises fun _ => raises_pure _

end Operations

end Operations

end PortableFiles
