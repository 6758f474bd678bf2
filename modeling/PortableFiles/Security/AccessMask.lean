set_option autoImplicit false

/-!
# Access masks

A mask has a bit for each right to a file, and four generic bits that stand for several rights.
Three groups of rights mean reading, writing and executing; a mask gives one of these only if it
gives every right of the group.
-/

namespace PortableFiles.AccessMask

/-- The rights that together mean reading: data and attributes. -/
def read : UInt32 := 0x81

/-- The rights that together mean writing: data, appending, attributes and extended attributes. -/
def write : UInt32 := 0x116

/-- The rights that together mean executing: execution, and the data. -/
def execute : UInt32 := 0x21

/-- The rights that every generated entry gives: reading extended attributes and the descriptor,
and waiting for the file. -/
def baseline : UInt32 := 0x120008

/-- The right to remove the file. -/
def delete : UInt32 := 0x10000

/-- Every right to a file. -/
def all : UInt32 := 0x1F01FF

/-- The generic bits. -/
def genericAll : UInt32 := 0x10000000

/-- The generic bit for executing. -/
def genericExecute : UInt32 := 0x20000000

/-- The generic bit for writing. -/
def genericWrite : UInt32 := 0x40000000

/-- The generic bit for reading. -/
def genericRead : UInt32 := 0x80000000

/-- The rights that one generic bit of a mask stands for. -/
def generic (mask bit rights : UInt32) : UInt32 := if mask &&& bit ≠ 0 then rights else 0

/-- The mask with generic bits replaced by what they stand for. -/
def expand (mask : UInt32) : UInt32 :=
  (mask &&& 0x0FFFFFFF) ||| generic mask genericAll all
    ||| generic mask genericRead (read ||| baseline)
    ||| generic mask genericWrite (write ||| 0x120000)
    ||| generic mask genericExecute 0x1200A0

/-- The triplet of permissions that a mask gives. -/
def triplet (mask : UInt32) : UInt32 :=
  let rights := expand mask
  (if rights &&& read = read then 4 else 0) ||| (if rights &&& write = write then 2 else 0)
    ||| (if rights &&& execute = execute then 1 else 0)

/-- The mask for a triplet of permissions.  An owner who may write may also remove. -/
def ofTriplet (rwx : UInt32) (owner : Bool) : UInt32 :=
  baseline ||| (if rwx &&& 4 ≠ 0 then read else 0)
    ||| (if rwx &&& 2 ≠ 0 then write ||| (if owner then delete else 0) else 0)
    ||| (if rwx &&& 1 ≠ 0 then execute else 0)

end PortableFiles.AccessMask
