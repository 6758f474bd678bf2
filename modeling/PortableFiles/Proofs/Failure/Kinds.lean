import PortableFiles.Failure.Error
set_option autoImplicit false

/-!
# Kinds of errors

A failure of input or output belongs to a class and an error is of a kind; one table leads from the
classes to the kinds and one back, by which an error is handed on as a failure.  Several classes
share the kind of everything else, so that the way back asks the cause.  An error that arises in
this library keeps its kind however often it is handed on (`Error.Arises.kind_handedOn`).
-/

namespace PortableFiles

/-- The number that is special on a POSIX system says no more than its class. -/
theorem ErrorKind.classify_eq (failure : IoError) : classify failure = ofIoKind failure.kind := by
  cases failure with
  | os errno =>
    by_cases h : errno = .crossDevice
    · subst h
      rfl
    · simp [classify, IoError.errno?, ErrnoClasses.posix, h]
  | bare kind => rfl
  | custom kind message => rfl

namespace Error

/-- How an error can arise. -/
inductive Arises : Error → Prop where
  /-- From a failure of input or output. -/
  | io (operation : Operation) (path : Path) (failure : IoError) :
    Arises (.ofIo operation path failure)
  | emptyPath (operation : Operation) : Arises (.emptyPath operation)
  | unsupported (operation : Operation) (path : Path) : Arises (.unsupported operation path)
  | tempNamesExhausted (directory : Path) : Arises (.tempNamesExhausted directory)
  | nulInPath (operation : Operation) (path : Path) : Arises (.nulInPath operation path)

/-- An error that is handed on as a failure of other operations, one after the other. -/
def handedOn (e : Error) : List (Operation × Path) → Error
  | [] => e
  | (operation, path) :: above => (ofIo operation path e.toIo).handedOn above

variable {operation : Operation} {path : Path} {e : Error}

/-- A failure that becomes an error and is handed on keeps its class. -/
theorem ioKind_ofIo (failure : IoError) : (ofIo operation path failure).ioKind = failure.kind := by
  simp only [ioKind, ofIo, ErrorKind.classify_eq]
  cases failure.kind <;> rfl

/-- The kind of an error that is handed on is that of its class. -/
theorem classify_toIo (e : Error) : ErrorKind.classify e.toIo = ErrorKind.ofIoKind e.ioKind := rfl

/-- The two tables fit each other. -/
theorem Arises.classify_toIo (h : e.Arises) : ErrorKind.classify e.toIo = e.kind := by
  rw [Error.classify_toIo]
  cases h with
  | io operation path failure => rw [ioKind_ofIo, ofIo, ErrorKind.classify_eq]
  | emptyPath | unsupported | tempNamesExhausted | nulInPath => rfl

theorem Arises.handedOn (h : e.Arises) (above : List (Operation × Path)) :
    (e.handedOn above).Arises := by
  induction above generalizing e with
  | nil => exact h
  | cons wrapping above ih => exact ih (.io wrapping.1 wrapping.2 e.toIo)

/-- The class of an error is the same however often it is handed on. -/
theorem ioKind_handedOn (e : Error) (above : List (Operation × Path)) :
    (e.handedOn above).ioKind = e.ioKind := by
  induction above generalizing e with
  | nil => rfl
  | cons wrapping above ih => exact (ih _).trans (ioKind_ofIo e.toIo)

/-- The kind of an error is the same however often it is handed on. -/
theorem Arises.kind_handedOn (h : e.Arises) (above : List (Operation × Path)) :
    (e.handedOn above).kind = e.kind := by
  rw [← (h.handedOn above).classify_toIo, ← h.classify_toIo, Error.classify_toIo,
    Error.classify_toIo, ioKind_handedOn]

end Error

end PortableFiles
