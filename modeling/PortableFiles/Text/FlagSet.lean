import PortableFiles.Text.Numeral
set_option autoImplicit false

/-!
# Sets of flags as text

A word of flags is shown as the names of the flags in it, in a given order and separated by bars,
followed by the bits without a name in hexadecimal.  A word of zero is shown as `0x0`.
-/

namespace PortableFiles.Text.FlagSet

/-- The names in the word, and the bits of it that no name covers. -/
def split (named : List (String × UInt32)) (word : UInt32) : List String × UInt32 :=
  named.foldl
    (fun (names, rest) flag =>
      if word &&& flag.2 = flag.2 ∧ rest &&& flag.2 ≠ 0 then
        (names ++ [flag.1], rest &&& (flag.2 ^^^ 0xFFFFFFFF))
      else (names, rest))
    ([], word)

/-- A number in hexadecimal with its mark. -/
def hex (word : UInt32) : String := "0x" ++ String.ofList (Numeral.hexLower word.toNat)

/-- The text of a word of flags. -/
def render (named : List (String × UInt32)) (word : UInt32) : String :=
  if word = 0 then hex 0
  else
    let (names, rest) := split named word
    " | ".intercalate (names ++ if rest = 0 then [] else [hex rest])

end PortableFiles.Text.FlagSet
