import PortableFiles.Session.Action
import PortableFiles.Session.Listing
import PortableFiles.Kernel.Run
set_option autoImplicit false

/-!
# Sessions

A session is a machine, the platform through which the library works on it, and what earlier
actions kept: metadata and open files under names.  `Session.step` does one action, `Session.run`
a list of them, with a listing after each action that may change the files.
-/

namespace PortableFiles

/-- A session. -/
structure Session where
  platform : Platform
  machine : Machine
  infos : FinMap String FileInfo
  handles : FinMap String Descriptor

namespace Session

/-- The session after a program, with its value. -/
def after {α : Type} (s : Session) (p : Program α) : α × Session :=
  let (value, machine) := p.run s.machine
  (value, { s with machine := machine })

/-- The answer to a routine that gives nothing. -/
def doneOr : Except Error Unit → Answer
  | .ok () => .done
  | .error e => .failed e

/-- The answer to a routine that gives a truth value. -/
def truthOr : Except Error Bool → Answer
  | .ok b => .truth b
  | .error e => .failed e

/-- The answer to a routine that gives metadata, and the session in which they are kept. -/
def foundOr (s : Session) (keepAs : Option String) : Except Error FileInfo → Answer × Session
  | .ok info =>
    (.found info,
      match keepAs with
      | some name => { s with infos := s.infos.insert name info }
      | none => s)
  | .error e => (.failed e, s)

/-- A raw write. -/
def rawWrite (p : Platform) (path : Path) (new : Bool) (flags : OpenFlags) (mode : UInt32)
    (data : Bytes) (close : Bool) : Program Answer := do
  let perm := mode &&& permMask
  match ← (if new then p.createNew path perm flags else p.create path perm flags).outcome with
  | .error e => return .failed e
  | .ok writer =>
    let written ← (p.writeAll writer data).outcome
    let synced ← (p.sync writer).outcome
    let perm ← (p.perm writer).outcome
    if close then
      let closed ← (p.close writer).outcome
      return .rawWrite written synced perm writer.path (some closed)
    else
      p.abandon writer
      return .rawWrite written synced perm writer.path none

/-- Whether the ids that the platform gives are those of the process, and whether they are
unknown. -/
def ids (p : Platform) : Program Answer := do
  let user := (← p.userId.outcome).toOption
  let group := (← p.groupId.outcome).toOption
  let realUser ← Program.question .userId
  let realGroup ← Program.question .groupId
  return .ids (user = some realUser, group = some realGroup)
    (user = some unknownId, group = some unknownId)

/-- Whether being the superuser and being an administrator are one. -/
def rootIsAdmin (p : Platform) : Program Answer := do
  return .sameRoot ((← p.isRoot.outcome).toOption = (← p.isAdmin.outcome).toOption)

/-- What the system reports of a path, without following it. -/
def look (path : Path) : Program (Except IoError Stat) :=
  if path.hasNul then return .error .nulInName
  else do return (← Program.perform (.stat path false)).mapError IoError.os

/-- The answer to a question about metadata, and the metadata afterwards. -/
def inquire (p : Platform) (info : FileInfo) : Inquiry → Program (Answer × FileInfo)
  | .summary => return (.shown info, info)
  | .owner => do
    let (owner, info) ← info.readOwner p.resolvers
    return (.owner info.uid info.gid owner, info)
  | .times => return (.times info.mtime info.atime true, info)
  | .btime => do
    let (first, info) ← info.readBtime p.resolvers
    let (second, info) ← info.readBtime p.resolvers
    return (.btime (first = second) (first.le info.mtime), info)
  | .changeTime => do
    let (t, info) ← info.readChangeTime p.resolvers
    return (.changeTime (t = info.ctime) t.isZero, info)
  | .error => return (.errorOf info.error?, info)
  | .states =>
    return (.states info.btime.stateName info.changeTime.stateName info.owner.stateName, info)
  | .foreign path => do
    match ← look path with
    | .error e => return (.refused e, info)
    | .ok s =>
      return (.foreign info (.foreign s.size (.new s.type (s.perm &&& permMask)) s.times.modify),
        info)

/-- Does one action. -/
def step (s : Session) : Action → Answer × Session
  | .write path reader mode options =>
    let (r, s) := s.after (Writing.fromReader s.platform path reader mode options).outcome
    (doneOr r, s)
  | .writeAtomic path reader options =>
    let (r, s) := s.after (Writing.atomicFromReader s.platform path reader options).outcome
    (doneOr r, s)
  | .rawWrite path new flags mode data close =>
    s.after (rawWrite s.platform path new flags mode data close)
  | .ids => s.after (ids s.platform)
  | .chmod path mode =>
    let (r, s) := s.after (Operations.chmod s.platform path mode).outcome
    (doneOr r, s)
  | .rename source destination =>
    let (r, s) := s.after (Operations.rename s.platform source destination).outcome
    (doneOr r, s)
  | .symlink target link options =>
    let (r, s) := s.after (Operations.symlink s.platform target link options).outcome
    (doneOr r, s)
  | .stat path keepAs =>
    let (r, s) := s.after (s.platform.stat path).outcome
    s.foundOr keepAs r
  | .lstat path keepAs =>
    let (r, s) := s.after (s.platform.lstat path).outcome
    s.foundOr keepAs r
  | .fstat handle keepAs =>
    match s.handles.get? handle with
    | none => (.unknownName, s)
    | some file =>
      let (r, s) := s.after (Operations.fstat s.platform file).outcome
      s.foundOr keepAs r
  | .fstatNumber number =>
    let (r, s) := s.after (Operations.fstat s.platform ⟨number⟩).outcome
    s.foundOr none r
  | .sameFiles a b =>
    let (r, s) := s.after (Operations.sameFiles s.platform a b).outcome
    (truthOr r, s)
  | .samePartitions a b =>
    let (r, s) := s.after (Operations.samePartitions s.platform a b).outcome
    (truthOr r, s)
  | .same a b =>
    match s.infos.get? a, s.infos.get? b with
    | some a, some b =>
      (.sameOf (FileMeta.sameFile (.own a) (.own b)) (FileMeta.samePartition (.own a) (.own b)), s)
    | _, _ => (.unknownName, s)
  | .umask =>
    let (mask, s) := s.after s.platform.umask
    (.mask mask, s)
  | .setUmask mask =>
    let (before, s) := s.after (s.platform.setUmask mask)
    let (after, s) := s.after s.platform.umask
    (.masks before after, s)
  | .root => s.after (rootIsAdmin s.platform)
  | .inquire name inquiry =>
    match s.infos.get? name, inquiry with
    | none, .foreign path =>
      let (r, s) := s.after (look path)
      match r with
      | .error e => (.refused e, s)
      | .ok _ => (.unknownName, s)
    | none, _ => (.unknownName, s)
    | some info, _ =>
      let ((answer, info), s) := s.after (inquire s.platform info inquiry)
      (answer, { s with infos := s.infos.insert name info })
  | .deed d =>
    let (r, s) := s.after d.perform
    match r with
    | .ok () => (.done, s)
    | .error e => (.refused e, s)
  | .openFile path keepAs =>
    if path.hasNul then (.refused .nulInName, s)
    else
      let (r, s) := s.after (Program.perform (.openFile path .reading 0))
      match r with
      | .ok file => (.done, { s with handles := s.handles.insert keepAs file })
      | .error e => (.refused (.os e), s)
  | .close handle =>
    match s.handles.get? handle with
    | none => (.unknownName, s)
    | some file =>
      let (_, s) := s.after (Program.perform (.close file))
      (.done, { s with handles := s.handles.erase handle })

/-- Does one action in a process that can or cannot open files. -/
def stepUnder (s : Session) (mayOpen : Bool) (a : Action) : Answer × Session :=
  let before := s.machine.mayOpen
  let (answer, s) := Session.step { s with machine := { s.machine with mayOpen := mayOpen } } a
  (answer, { s with machine := { s.machine with mayOpen := before } })

/-- What the session shows of the directory in which it works. -/
def listing (s : Session) : List ListingEntry := PortableFiles.listing s.machine s.machine.cwd

/-- Does a list of actions, each in a process that can or cannot open files.  After an action that
may change the files, the listing is given if it differs from the last one. -/
def run : Session → List ListingEntry → List (Bool × Action) →
    List (Answer × Option (List ListingEntry))
  | _, _, [] => []
  | s, last, (mayOpen, a) :: rest =>
    let (answer, s) := s.stepUnder mayOpen a
    if a.isListed then
      let now := s.listing
      (answer, if now = last then none else some now) :: s.run now rest
    else (answer, none) :: s.run last rest

end Session

end PortableFiles
