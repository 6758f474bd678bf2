import PortableFiles.Kernel.Tree
set_option autoImplicit false

/-!
# Walking along a path

A path leads from the root or the working directory through directories to a last component.
Every directory on the way must let the process pass.  A symbolic link in the middle is always
followed, at the end as the operation asks; forty links are followed, the next one ends the walk.
The walk does not ask whether the last component exists, because some operations create it.
-/

namespace PortableFiles

/-- Who a process is. -/
structure Credentials where
  uid : Nat
  gid : Nat
  /-- Whether permissions do not apply. -/
  privileged : Bool
  deriving DecidableEq, Repr, Inhabited

/-- A right that permissions give or withhold. -/
inductive Access where
  | read
  | write
  | search
  deriving DecidableEq, Repr, Inhabited

/-- The bit of a right in a triplet. -/
def Access.bit : Access → UInt32
  | .read => 4
  | .write => 2
  | .search => 1

/-- Whether the permissions of an inode give a right: the owner's triplet counts for the owner,
the group's for other members of the group, and the last one for everybody else. -/
def Credentials.may (c : Credentials) (node : Inode) (access : Access) : Bool :=
  let triplet :=
    if c.uid = node.uid then node.perm >>> 6
    else if c.gid = node.gid then node.perm >>> 3
    else node.perm
  c.privileged || triplet &&& access.bit ≠ 0

/-- One step along a path. -/
inductive Step where
  /-- The component `.`. -/
  | stay
  /-- The component `..`. -/
  | ascend
  /-- Any other component. -/
  | descend (name : Name)
  deriving DecidableEq, Repr, Inhabited

/-- A path as a list of steps. -/
structure Route where
  absolute : Bool
  steps : List Step
  /-- Whether a separator follows the last component. -/
  slash : Bool
  deriving DecidableEq, Repr, Inhabited

namespace Route

/-- The step for a component. -/
def stepOf (component : Bytes) : Step :=
  if component = [Path.dot] then .stay
  else if component = [Path.dot, Path.dot] then .ascend
  else .descend component

/-- The route of a path. -/
def ofBytes (path : Bytes) : Route :=
  let components := (Text.splitOn (· = Path.slash) path).filter (· ≠ [])
  ⟨path.head? = some Path.slash, components.map stepOf,
    components ≠ [] && path.getLast? = some Path.slash⟩

/-- The route of a link's target, after which the walk goes on with more steps. -/
def followedBy (r : Route) (steps : List Step) (slash : Bool) : Route :=
  if steps = [] then { r with slash := r.slash || slash }
  else { r with steps := r.steps ++ steps, slash := slash }

end Route

/-- The end of a walk. -/
inductive Place where
  /-- A directory that was reached without a last step: the root, or what a link leads straight
  to. -/
  | reached (dir : InodeId)
  /-- What a last step that is not a name leads to from a directory: the directory itself, or the
  one above it. -/
  | dots (dir : InodeId) (up : Bool)
  /-- A name in a directory, after which there may be a separator. -/
  | entry (dir : InodeId) (name : Name) (slash : Bool)
  deriving DecidableEq, Repr, Inhabited

/-- The directory in which the last step of a walk is made. -/
def Place.origin : Place → InodeId
  | .reached dir | .dots dir _ | .entry dir _ _ => dir

namespace Tree

/-- Succeeds if an inode is a directory that the process may pass through. -/
def pass (t : Tree) (who : Credentials) (dir : InodeId) : Except Errno Unit :=
  match t.inode? dir with
  | some node =>
    if !node.content.isDirectory then .error .notDirectory
    else if who.may node .search then .ok ()
    else .error .accessDenied
  | none => .error .noEntry

/-- The longest name that a directory can hold. -/
def maxName : Nat := 255

/-- Whether a directory can hold names besides those that it holds: it is still part of the tree,
and it is not one in which processes show themselves. -/
def takesNames (t : Tree) (dir : InodeId) : Bool :=
  t.isLinked dir && t.volume dir ≠ .processes

/-- The inode under a name, if there is one.  A name may be too long to ask for, and a directory
that takes no other names has no room for a missing one. -/
def find (t : Tree) (dir : InodeId) (name : Name) : Except Errno (Option InodeId) :=
  match t.child? dir name with
  | some id => .ok (some id)
  | none =>
    if !t.takesNames dir then .error .noEntry
    else if name.length > maxName then .error .nameTooLong
    else .ok none

/-- The walk along `steps` from `dir`.  `again` walks along a route from where a symbolic link
stands or leads to, and `follow` says whether a link at the end is followed, given whether a
separator comes after it. -/
def walkWith (t : Tree) (who : Credentials) (follow : Bool → Bool)
    (again : InodeId → Route → Except Errno Place) (slash : Bool) :
    InodeId → List Step → Except Errno Place
  | dir, [] => .ok (.reached dir)
  | dir, .stay :: rest => do
    t.pass who dir
    if rest = [] then .ok (.dots dir false)
    else t.walkWith who follow again slash dir rest
  | dir, .ascend :: rest => do
    t.pass who dir
    if rest = [] then .ok (.dots dir true)
    else t.walkWith who follow again slash (t.parent dir) rest
  | dir, .descend name :: rest => do
    t.pass who dir
    if rest = [] && !follow slash then .ok (.entry dir name slash)
    else
      match (t.child? dir name).bind t.content? with
      | some (.symlink target) => again dir ((Route.ofBytes target).followedBy rest slash)
      | some (.jump directory) => again directory ⟨false, rest, slash⟩
      | _ =>
        if rest = [] then .ok (.entry dir name slash)
        else
          match ← t.find dir name with
          | some id =>
            if t.isDirectory id then t.walkWith who follow again slash id rest
            else .error .notDirectory
          | none => .error .noEntry

/-- The walk along a route from `dir` on which at most `budget` links are followed. -/
def walk (t : Tree) (who : Credentials) (follow : Bool → Bool) :
    Nat → InodeId → Route → Except Errno Place
  | 0, dir, route =>
    t.walkWith who follow (fun _ _ => .error .tooManyLinks) route.slash
      (if route.absolute then t.root else dir) route.steps
  | budget + 1, dir, route =>
    t.walkWith who follow (t.walk who follow budget) route.slash
      (if route.absolute then t.root else dir) route.steps

/-- How many symbolic links a walk may follow. -/
def maxLinks : Nat := 40

/-- The length from which on a path is too long. -/
def maxPath : Nat := 4096

/-- Where a path leads from the working directory `cwd`. -/
def locate (t : Tree) (who : Credentials) (cwd : InodeId) (follow : Bool → Bool) (path : Path) :
    Except Errno Place :=
  if path.bytes = [] then .error .noEntry
  else if path.bytes.length ≥ maxPath then .error .nameTooLong
  else t.walk who follow maxLinks cwd (.ofBytes path.bytes)

/-- The inode at a place.  A separator after a name asks for a directory. -/
def inodeAt (t : Tree) : Place → Except Errno InodeId
  | .reached dir => .ok dir
  | .dots dir up => .ok (if up then t.parent dir else dir)
  | .entry dir name slash => do
    match ← t.find dir name with
    | some id => if slash && !t.isDirectory id then .error .notDirectory else .ok id
    | none => .error .noEntry

/-- The inode that a path leads to. -/
def resolve (t : Tree) (who : Credentials) (cwd : InodeId) (follow : Bool → Bool) (path : Path) :
    Except Errno InodeId := do
  t.inodeAt (← t.locate who cwd follow path)

end Tree

end PortableFiles
