import PortableFiles.Bytes
import PortableFiles.Text.Split
set_option autoImplicit false

/-!
# Extended-length paths

Windows takes a path longer than 247 bytes only in its extended form, which is not normalised any
more.  A long path is therefore made absolute and resolved before the mark of that form is put in
front: `.` and empty components go, and `..` takes the name before it away but never the root.
-/

namespace PortableFiles.ExtendedPath

/-- The byte `\`. -/
def backslash : UInt8 := 92

/-- The byte `/`. -/
def slash : UInt8 := 47

/-- The byte `:`. -/
def colon : UInt8 := 58

/-- The byte `.`. -/
def dot : UInt8 := 46

/-- The byte `?`. -/
def question : UInt8 := 63

/-- Whether a byte separates components. -/
def isSeparator (b : UInt8) : Bool := b = backslash || b = slash

/-- Whether a byte is a letter, and so may name a drive. -/
def isLetter (b : UInt8) : Bool := (65 ≤ b && b ≤ 90) || (97 ≤ b && b ≤ 122)

/-- What a path is relative to. -/
inductive Anchor where
  /-- The root of a drive. -/
  | drive
  /-- The working directory of a drive. -/
  | driveRelative
  /-- A share of a server. -/
  | share
  /-- The root of the current drive or share. -/
  | rooted
  /-- The working directory. -/
  | relative
  deriving DecidableEq, Repr, Inhabited

/-- What a path is relative to. -/
def anchor : Bytes → Anchor
  | a :: b :: rest =>
    if isSeparator a && isSeparator b then .share
    else if isSeparator a then .rooted
    else if isLetter a && b = colon then
      match rest with
      | c :: _ => if isSeparator c then .drive else .driveRelative
      | [] => .driveRelative
    else .relative
  | [a] => if isSeparator a then .rooted else .relative
  | [] => .relative

/-- The mark of the extended form. -/
def mark : Bytes := [backslash, backslash, question, backslash]

/-- The mark of the extended form of a path on a share. -/
def shareMark : Bytes := mark ++ [85, 78, 67, backslash]

/-- The prefixes of paths that Windows does not normalise. -/
def verbatimPrefixes : List Bytes :=
  [mark, [backslash, question, question, backslash], [backslash, backslash, dot, backslash]]

/-- Whether a path already names something that must be left as it is. -/
def isVerbatim (path : Bytes) : Bool := verbatimPrefixes.any fun p => p.isPrefixOf path

/-- The longest path that is left as it is. -/
def maxShort : Nat := 247

/-- The server and the share of a path on a share. -/
def shareParts? (path : Bytes) : Option (Bytes × Bytes) :=
  match Text.splitOn isSeparator (path.drop 2) with
  | server :: share :: _ => if server = [] ∨ share = [] then none else some (server, share)
  | _ => none

/-- The length of the root of a path on a share. -/
def shareRootLength (server share : Bytes) : Nat := 2 + server.length + 1 + share.length

/-- The root of an absolute path: its drive, or its server and share. -/
def root? (path : Bytes) : Option Bytes :=
  match anchor path with
  | .drive => some (path.take 2)
  | .share => (shareParts? path).map fun parts => path.take (shareRootLength parts.1 parts.2)
  | _ => none

/-- Whether a path is absolute. -/
def isAbsolute (path : Bytes) : Bool := anchor path = .drive || anchor path = .share

/-- A relative path in a directory. -/
def join (cwd path : Bytes) : Bytes :=
  match cwd.getLast? with
  | some b => if isSeparator b then cwd ++ path else cwd ++ backslash :: path
  | none => backslash :: path

/-- The absolute path that a path stands for, where the working directory tells. -/
def full? (path cwd : Bytes) : Option Bytes :=
  match anchor path with
  | .drive | .share => some path
  | .driveRelative => none
  | .rooted => (root? cwd).map (· ++ path)
  | .relative => if isAbsolute cwd then some (join cwd path) else none

/-- The names left of a list of components after `names`, which are held in reverse. -/
def resolveFrom : List Bytes → List Bytes → List Bytes
  | names, [] => names.reverse
  | names, component :: rest =>
    if component = [] ∨ component = [dot] then resolveFrom names rest
    else if component = [dot, dot] then resolveFrom names.tail rest
    else resolveFrom (component :: names) rest

/-- The names to which a list of components comes down. -/
def resolve (components : List Bytes) : List Bytes := resolveFrom [] components

/-- Names, each after a backslash; a backslash alone if there are none. -/
def render (names : List Bytes) : Bytes :=
  if names = [] then [backslash] else names.flatMap fun name => backslash :: name

/-- The mark and root of the extended form of an absolute path, and what follows its root. -/
def rootAndRest? (path : Bytes) : Option (Bytes × Bytes) :=
  match anchor path with
  | .drive => some (mark ++ path.take 2, path.drop 2)
  | .share =>
    (shareParts? path).map fun parts =>
      (shareMark ++ parts.1 ++ backslash :: parts.2, path.drop (shareRootLength parts.1 parts.2))
  | _ => none

/-- The extended form of an absolute path. -/
def extend? (path : Bytes) : Option Bytes :=
  (rootAndRest? path).map fun (root, rest) =>
    root ++ render (resolve (Text.splitOn isSeparator rest))

/-- The extended form of a path in a working directory, if the path needs it. -/
def promote (path cwd : Bytes) : Option Bytes :=
  if isVerbatim path then none
  else
    (full? path cwd).bind fun full => if full.length ≤ maxShort then none else extend? full

end PortableFiles.ExtendedPath
