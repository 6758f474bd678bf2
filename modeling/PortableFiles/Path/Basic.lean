import PortableFiles.Bytes
import PortableFiles.Path.Extended
import PortableFiles.Text.Split
import PortableFiles.Text.Utf8
set_option autoImplicit false

/-!
# Paths

A path is a byte string in which `/` separates components.  `baseName` reads the last element as
it is written; `components` is the list of names a path walks through, in which repeated
separators and inner `.` do not count; `parent?` drops the last component; `parentDir` is the
directory in which a path's entry lives.

Only the last element is read in the style of more than one system (`baseNameIn`); all else is about
paths whose separator is `/`.
-/

namespace PortableFiles

/-- A path, in the bytes in which it is written. -/
structure Path where
  bytes : Bytes
  deriving DecidableEq, Repr, Inhabited

namespace Path

/-- The separator `/`. -/
def slash : UInt8 := 47

/-- The byte `.`. -/
def dot : UInt8 := 46

/-- The path with the given text. -/
def ofString (s : String) : Path := ⟨Bytes.ofString s⟩

/-- The path `.`, which names the working directory. -/
def current : Path := ⟨[dot]⟩

/-- Whether the path has no byte at all. -/
def isEmpty (p : Path) : Bool := p.bytes.isEmpty

/-- Whether the path holds a zero byte.  Such a path names nothing. -/
def hasNul (p : Path) : Bool := p.bytes.contains 0

/-- The path as it is shown in messages: malformed bytes appear as replacement characters. -/
def display (p : Path) : String := Text.Utf8.lossy p.bytes

/-- The list without the elements at its end that satisfy `p`. -/
def trimEnd {α : Type} (p : α → Bool) (l : List α) : List α := (l.reverse.dropWhile p).reverse

/-- The position of the last element of a list that satisfies `p`. -/
def lastIndex? {α : Type} (p : α → Bool) : List α → Option Nat
  | [] => none
  | a :: rest => ((lastIndex? p rest).map (· + 1)).or (if p a then some 0 else none)

/-! ## The last element -/

/-- How the paths of a system are written. -/
inductive Style where
  /-- Elements stand between `/`. -/
  | posix
  /-- Elements stand between `/` or `\`, and a drive may stand in front of them. -/
  | windows
  deriving DecidableEq, Repr, Inhabited

/-- Whether a byte separates elements. -/
def Style.separates : Style → UInt8 → Bool
  | .posix, b => b = slash
  | .windows, b => b = slash || b = ExtendedPath.backslash

/-- The separator that a path of separators only comes down to. -/
def Style.mainSeparator : Style → UInt8
  | .posix => slash
  | .windows => ExtendedPath.backslash

/-- What is left of a path without the drive in front of it. -/
def Style.afterDrive : Style → Bytes → Bytes
  | .windows, letter :: b :: rest =>
    if ExtendedPath.isLetter letter && b = ExtendedPath.colon then rest else letter :: b :: rest
  | _, bytes => bytes

/-- The first and the last position of the last element of some bytes, trailing separators aside.
Bytes that are all separators have no such element. -/
def Style.lastSpan? (style : Style) (bytes : Bytes) : Option (Nat × Nat) :=
  (lastIndex? (fun b => !style.separates b) bytes).map fun stop =>
    (((lastIndex? style.separates (bytes.take stop)).map (· + 1)).getD 0, stop)

/-- The last element of the path as written in a style, trailing separators aside: `.` and `..` are
kept.  A path of separators only is one separator, and the empty path is `.`. -/
def baseNameIn (style : Style) (p : Path) : Bytes :=
  let bytes := style.afterDrive p.bytes
  if bytes = [] then [dot]
  else
    match style.lastSpan? bytes with
    | some (start, stop) => (bytes.drop start).take (stop + 1 - start)
    | none => [style.mainSeparator]

/-- The last element of the path as written, trailing separators aside. -/
def baseName (p : Path) : Bytes := p.baseNameIn .posix

/-! ## Components -/

/-- What one component of a path stands for. -/
inductive Component where
  /-- The leading separator of an absolute path. -/
  | root
  /-- A leading `.`. -/
  | current
  /-- `..` anywhere in the path. -/
  | parent
  /-- Any other name. -/
  | name (bytes : Bytes)
  deriving DecidableEq, Repr, Inhabited

/-- Whether the path starts with a separator. -/
def isAbsolute (p : Path) : Bool := p.bytes.head? = some slash

/-- Whether the path starts with the component `.`. -/
def startsAtDot (p : Path) : Bool :=
  match p.bytes with
  | [b] => b = dot
  | b :: c :: _ => b = dot && c = slash
  | [] => false

/-- The part of a path that is a component by itself: the separator of an absolute path, or a
leading `.`. -/
def anchor (p : Path) : Bytes :=
  if p.isAbsolute then [slash] else if p.startsAtDot then [dot] else []

/-- The pieces after the anchor, as they are written. -/
def pieces (p : Path) : List Bytes :=
  Text.splitOn (· = slash) (p.bytes.drop p.anchor.length)

/-- Whether a piece after the anchor does not count as a component: it is empty or `.`. -/
def isFiller (piece : Bytes) : Bool := piece = [] || piece = [dot]

/-- The component that a piece stands for. -/
def componentOf (piece : Bytes) : Component :=
  if piece = [dot, dot] then .parent else .name piece

/-- The components of a path. -/
def components (p : Path) : List Component :=
  (if p.isAbsolute then [.root] else if p.startsAtDot then [.current] else [])
    ++ (p.pieces.filter fun piece => !isFiller piece).map componentOf

/-- The path without its last component, as written but without trailing separators.  The root
and the empty path have no parent. -/
def parent? (p : Path) : Option Path :=
  match (trimEnd isFiller p.pieces).reverse with
  | [] => if !p.isAbsolute && p.startsAtDot then some ⟨[]⟩ else none
  | _ :: before =>
    some ⟨p.anchor ++ Text.joinWith slash (trimEnd isFiller before.reverse)⟩

/-- The directory that contains the path.  A bare name lives in `.`. -/
def parentDir (p : Path) : Path :=
  match p.parent? with
  | some parent => if parent.isEmpty then current else parent
  | none => current

/-- The path of `name` in the directory `dir`.  An absolute name stands for itself. -/
def join (dir : Path) (name : Bytes) : Path :=
  if name.head? = some slash then ⟨name⟩
  else if dir.bytes = [] ∨ dir.bytes.getLast? = some slash then ⟨dir.bytes ++ name⟩
  else ⟨dir.bytes ++ slash :: name⟩

/-! ## Basic facts -/

/-- What is left of a list after trimming does not end in an element that satisfies the
predicate. -/
theorem head?_reverse_trimEnd {α : Type} (p : α → Bool) (l : List α) (a : α)
    (h : (trimEnd p l).reverse.head? = some a) : p a = false := by
  have hd := List.head?_dropWhile_not p l.reverse
  simp only [trimEnd, List.reverse_reverse] at h
  rw [h] at hd
  simpa using hd

/-- No position is found where no element satisfies the predicate. -/
theorem lastIndex?_eq_none_iff {α : Type} {p : α → Bool} {l : List α} :
    lastIndex? p l = none ↔ ∀ a ∈ l, p a = false := by
  induction l with
  | nil => simp [lastIndex?]
  | cons a rest ih =>
    rw [lastIndex?, Option.or_eq_none_iff, Option.map_eq_none_iff, ih, List.forall_mem_cons,
      and_comm]
    simp

/-- After the position that is found stand only elements that do not satisfy the predicate. -/
theorem lastIndex?_eq_some_iff {α : Type} {p : α → Bool} {l : List α} {i : Nat} :
    lastIndex? p l = some i ↔
      ∃ front a back, l = front ++ a :: back ∧ front.length = i ∧ p a = true
        ∧ ∀ b ∈ back, p b = false := by
  induction l generalizing i with
  | nil => simp [lastIndex?]
  | cons a rest ih =>
    rw [lastIndex?, Option.or_eq_some_iff, Option.map_eq_some_iff, Option.map_eq_none_iff,
      lastIndex?_eq_none_iff]
    constructor
    · rintro (⟨j, hj, rfl⟩ | ⟨hrest, ha⟩)
      · obtain ⟨front, b, back, rfl, rfl, hb, hback⟩ := ih.1 hj
        exact ⟨a :: front, b, back, rfl, rfl, hb, hback⟩
      · obtain ⟨ha, h⟩ := Option.ite_none_right_eq_some.1 ha
        exact ⟨[], a, rest, rfl, Option.some.inj h, ha, hrest⟩
    · rintro ⟨front, b, back, hl, rfl, hb, hback⟩
      cases front with
      | nil =>
        cases hl
        exact .inr ⟨hback, if_pos hb⟩
      | cons c front =>
        cases hl
        exact .inl ⟨front.length, ih.2 ⟨front, b, back, rfl, rfl, hb, hback⟩, rfl⟩

end Path

end PortableFiles
