import PortableFiles.Kernel.Machine
set_option autoImplicit false

/-!
# Listings

Everything below a directory, as somebody with the rights of the process sees it: what cannot be
read shows as empty.  Entries come in the order of the bytes of their paths.
-/

namespace PortableFiles

/-- What a listing shows of a file besides its permissions. -/
inductive Body where
  | bytes (data : Bytes)
  | target (path : Bytes)
  | none
  deriving DecidableEq, Repr, Inhabited

/-- One line of a listing. -/
structure ListingEntry where
  /-- The path from the directory that is listed. -/
  path : Bytes
  type : FileType
  perm : UInt32
  body : Body
  deriving DecidableEq, Repr, Inhabited

namespace Listing

/-- The order of byte strings. -/
def lexLE : Bytes → Bytes → Bool
  | [], _ => true
  | _ :: _, [] => false
  | a :: as, b :: bs => a < b || (a = b && lexLE as bs)

/-- What a listing shows of a content. -/
def bodyOf (m : Machine) (node : Inode) : Body :=
  match node.content with
  | .file data => .bytes (if m.who.may node .read then data else [])
  | .symlink target => .target target
  | _ => .none

/-- Everything at most `depth` levels below a directory, whose path has the given front. -/
def below (m : Machine) : Nat → InodeId → Bytes → List ListingEntry
  | 0, _, _ => []
  | depth + 1, id, front =>
    match m.tree.inode? id with
    | some node =>
      if m.who.may node .read && m.who.may node .search then
        match node.content.entries? with
        | some entries =>
          entries.entries.flatMap fun (name, child) =>
            match m.tree.inode? child with
            | some node =>
              let path := front ++ name
              ⟨path, node.content.fileType, node.perm &&& permMask, bodyOf m node⟩
                :: below m depth child (path ++ [Path.slash])
            | none => []
        | none => []
      else []
    | none => []

end Listing

/-- Everything below the directory `dir`. -/
def listing (m : Machine) (dir : InodeId) : List ListingEntry :=
  (Listing.below m (m.tree.inodes.entries.length + 1) dir []).mergeSort
    fun a b => Listing.lexLE a.path b.path

end PortableFiles
