import PortableFiles.FileInfo
import PortableFiles.Kernel.Run
import PortableFiles.Platform.Posix
import PortableFiles.Proofs.Lazy
import PortableFiles.Session.Start
set_option autoImplicit false

/-!
# Reading metadata

Metadata have three cells that may wait for their first reading, and accessors that read them.  The
resolvers of the cells are outside: they have a state of their own and may answer differently each
time.  Every accessor settles the cell behind it, where there is one, and then shows what the
metadata hold (`FileInfo.run_read`), so that one relation says all that a list of readings does
(`FileInfo.Reads`).  What follows for the answers, the calls of the resolvers and the error is in
`FileInfo.readings_coherent`.
-/

namespace PortableFiles

/-! ## Cells by name -/

/-- The fields that may be computed at first access. -/
inductive LazyField where
  | btime
  | changeTime
  | owner
  deriving DecidableEq, Repr

namespace LazyField

/-- What a field holds. -/
@[reducible] def Value : LazyField → Type
  | .btime | .changeTime => Timestamp
  | .owner => Owner

/-- The place of a field in the order in which errors count. -/
def rank : LazyField → Nat
  | .btime => 0
  | .changeTime => 1
  | .owner => 2

end LazyField

namespace FileInfo

/-- The cell of a field. -/
def cell (i : FileInfo) : (f : LazyField) → Lazy f.Value
  | .btime => i.btime
  | .changeTime => i.changeTime
  | .owner => i.owner

/-- The metadata with another cell. -/
def withCell (i : FileInfo) : (f : LazyField) → Lazy f.Value → FileInfo
  | .btime, c => { i with btime := c }
  | .changeTime, c => { i with changeTime := c }
  | .owner, c => { i with owner := c }

/-- What is known from the start: the metadata without their cells. -/
def known (i : FileInfo) : FileInfo :=
  { i with btime := .unresolved, changeTime := .unresolved, owner := .unresolved }

/-- The resolver of a field. -/
def Resolvers.of {m : Type → Type} (r : Resolvers m) :
    (f : LazyField) → FileInfo → m (Except Error f.Value)
  | .btime => r.btime
  | .changeTime => r.changeTime
  | .owner => r.owner

section Cells

variable {i j : FileInfo} {f g : LazyField}

@[simp] theorem cell_withCell_self (i : FileInfo) (f : LazyField) (c : Lazy f.Value) :
    (i.withCell f c).cell f = c := by
  cases f <;> rfl

theorem withCell_cell (i : FileInfo) (f : LazyField) : i.withCell f (i.cell f) = i := by
  cases f <;> rfl

theorem cell_withCell_of_ne (h : g ≠ f) (c : Lazy f.Value) :
    (i.withCell f c).cell g = i.cell g := by
  cases f <;> cases g <;> first | rfl | exact absurd rfl h

@[simp] theorem known_withCell (i : FileInfo) (f : LazyField) (c : Lazy f.Value) :
    (i.withCell f c).known = i.known := by
  cases f <;> rfl

/-- Metadata are what is known from the start and the cells. -/
theorem eq_of_cells (hknown : i.known = j.known) (hcells : ∀ f, i.cell f = j.cell f) : i = j := by
  have hbtime : i.btime = j.btime := hcells .btime
  have hchangeTime : i.changeTime = j.changeTime := hcells .changeTime
  have howner : i.owner = j.owner := hcells .owner
  cases i
  cases j
  simp only [known, mk.injEq] at hknown
  simp_all

theorem error?_eq_or (i : FileInfo) :
    i.error? = i.btime.error?.or (i.changeTime.error?.or i.owner.error?) := by
  unfold error?
  cases i.btime.error? <;> cases i.changeTime.error? <;> rfl

/-- There is no error if no cell holds one. -/
theorem error?_eq_none_iff : i.error? = none ↔ ∀ f e, i.cell f ≠ .failed e := by
  have hnone : ∀ {α : Type} (c : Lazy α), c.error? = none ↔ ∀ e, c ≠ .failed e := by
    intro α c
    cases c <;> simp [Lazy.error?]
  simp only [error?_eq_or, Option.or_eq_none_iff, hnone]
  constructor
  · rintro ⟨hbtime, hchangeTime, howner⟩ f
    cases f with
    | btime => exact hbtime
    | changeTime => exact hchangeTime
    | owner => exact howner
  · exact fun h => ⟨h .btime, h .changeTime, h .owner⟩

/-- The error is that of the first cell that holds one. -/
theorem error?_eq_some_iff {e : Error} :
    i.error? = some e ↔ ∃ f, i.cell f = .failed e
      ∧ ∀ g e', g.rank < f.rank → i.cell g ≠ .failed e' := by
  have hcell : ∀ {α : Type} (c : Lazy α), c.error? = some e ↔ c = .failed e := by
    intro α c
    cases c <;> simp [Lazy.error?]
  have hnone : ∀ {α : Type} (c : Lazy α), c.error? = none ↔ ∀ e', c ≠ .failed e' := by
    intro α c
    cases c <;> simp [Lazy.error?]
  simp only [error?_eq_or, Option.or_eq_some_iff, hcell, hnone]
  constructor
  · rintro (h | ⟨hbtime, h | ⟨hchangeTime, h⟩⟩)
    · exact ⟨.btime, h, fun g e' hg => absurd hg (Nat.not_lt_zero _)⟩
    · refine ⟨.changeTime, h, fun g e' hg => ?_⟩
      cases g with
      | btime => exact hbtime e'
      | changeTime => exact absurd hg (Nat.lt_irrefl _)
      | owner => exact absurd hg (by decide)
    · refine ⟨.owner, h, fun g e' hg => ?_⟩
      cases g with
      | btime => exact hbtime e'
      | changeTime => exact hchangeTime e'
      | owner => exact absurd hg (Nat.lt_irrefl _)
  · rintro ⟨f, h, hfirst⟩
    cases f with
    | btime => exact Or.inl h
    | changeTime => exact Or.inr ⟨fun e' => hfirst .btime e' (by decide), Or.inl h⟩
    | owner =>
      exact Or.inr ⟨fun e' => hfirst .btime e' (by decide),
        Or.inr ⟨fun e' => hfirst .changeTime e' (by decide), h⟩⟩

end Cells

/-! ## Accessors -/

/-- What can be asked of metadata. -/
inductive Accessor where
  | btime
  | changeTime
  | user
  | group
  /-- The error of the first field that failed. -/
  | error
  /-- Anything that is known from the start. -/
  | known
  deriving DecidableEq, Repr

/-- The field behind an accessor. -/
def Accessor.field? : Accessor → Option LazyField
  | .btime => some .btime
  | .changeTime => some .changeTime
  | .user | .group => some .owner
  | .error | .known => none

/-- What an accessor answers. -/
inductive Answer where
  | time (t : Timestamp)
  | name (s : String)
  | error (e : Option Error)
  | known (facts : FileInfo)
  deriving DecidableEq

section Reading

variable {m : Type → Type} [Monad m]

/-- The answer of an accessor, and the metadata after the reading. -/
def read (r : Resolvers m) (i : FileInfo) : Accessor → m (Answer × FileInfo)
  | .btime => do
    let (t, i) ← readBtime r i
    return (.time t, i)
  | .changeTime => do
    let (t, i) ← readChangeTime r i
    return (.time t, i)
  | .user => do
    let (s, i) ← readUser r i
    return (.name s, i)
  | .group => do
    let (s, i) ← readGroup r i
    return (.name s, i)
  | .error => return (.error i.error?, i)
  | .known => return (.known i.known, i)

/-- The answers of a list of accessors in their order, and the metadata after the readings. -/
def readAll (r : Resolvers m) : FileInfo → List Accessor → m (List Answer × FileInfo)
  | i, [] => return ([], i)
  | i, a :: reads => do
    let (x, i) ← read r i a
    let (xs, i) ← readAll r i reads
    return (x :: xs, i)

end Reading

/-- What an accessor answers from the cells as they are, zero or the empty text where there is no
value. -/
def shows (i : FileInfo) : Accessor → Answer
  | .btime => .time (i.btime.value?.getD .zero)
  | .changeTime => .time (i.changeTime.value?.getD .zero)
  | .user => .name (i.owner.value?.getD .nameless).user
  | .group => .name (i.owner.value?.getD .nameless).group
  | .error => .error i.error?
  | .known => .known i.known

theorem shows_congr {i i' : FileInfo} {a : Accessor} (hknown : i'.known = i.known)
    (hcell : ∀ f ∈ a.field?, i'.cell f = i.cell f) (ha : a ≠ .error) : i'.shows a = i.shows a := by
  cases a with
  | btime => rw [shows, shows, show i'.btime = i.btime from hcell .btime rfl]
  | changeTime => rw [shows, shows, show i'.changeTime = i.changeTime from hcell .changeTime rfl]
  | user => rw [shows, shows, show i'.owner = i.owner from hcell .owner rfl]
  | group => rw [shows, shows, show i'.owner = i.owner from hcell .owner rfl]
  | error => exact absurd rfl ha
  | known => rw [shows, shows, hknown]

/-- A call of a resolver: that of which field, and what came of it. -/
abbrev Resolution : Type := (f : LazyField) × Except Error f.Value

/-- What a call of a resolver gave for a field. -/
def Resolution.outcome? (f : LazyField) (c : Resolution) : Option (Except Error f.Value) :=
  if h : c.1 = f then some (h ▸ c.2) else none

/-- What the calls in a list gave for a field, in their order. -/
def outcomes (f : LazyField) (calls : List Resolution) : List (Except Error f.Value) :=
  calls.filterMap (Resolution.outcome? f)

theorem outcomes_cons_self (f : LazyField) (o : Except Error f.Value) (calls : List Resolution) :
    outcomes f (⟨f, o⟩ :: calls) = o :: outcomes f calls := by
  simp [outcomes, Resolution.outcome?]

theorem outcomes_cons_of_ne {f g : LazyField} (h : g ≠ f) (o : Except Error f.Value)
    (calls : List Resolution) : outcomes g (⟨f, o⟩ :: calls) = outcomes g calls := by
  simp [outcomes, Resolution.outcome?, h.symm]

theorem mem_outcomes_iff {f : LazyField} {o : Except Error f.Value} {calls : List Resolution} :
    o ∈ outcomes f calls ↔ (⟨f, o⟩ : Resolution) ∈ calls := by
  unfold outcomes
  rw [List.mem_filterMap]
  constructor
  · rintro ⟨⟨g, o'⟩, hmem, h⟩
    unfold Resolution.outcome? at h
    split at h
    · rename_i hg
      cases hg
      cases h
      exact hmem
    · cases h
  · intro h
    exact ⟨_, h, by simp [Resolution.outcome?]⟩

/-! ## Resolvers that are watched -/

variable {σ : Type}

/-- A resolver whose calls are written down. -/
def noted (f : LazyField) (resolver : FileInfo → StateM σ (Except Error f.Value)) (i : FileInfo) :
    StateM (σ × List Resolution) (Except Error f.Value) := do
  let (s, calls) ← get
  let (o, s) := (resolver i).run s
  set (s, calls ++ [⟨f, o⟩])
  return o

/-- Resolvers whose calls are written down. -/
def Resolvers.watched (r : Resolvers (StateM σ)) : Resolvers (StateM (σ × List Resolution)) where
  btime := noted .btime r.btime
  changeTime := noted .changeTime r.changeTime
  owner := noted .owner r.owner

theorem watched_of (r : Resolvers (StateM σ)) (f : LazyField) :
    r.watched.of f = noted f (r.of f) := by
  cases f <;> rfl

/-- The metadata after a field, where there is one, is settled. -/
def settle {m : Type → Type} [Monad m] (r : Resolvers m) (i : FileInfo) :
    Option LazyField → m FileInfo
  | none => pure i
  | some f => do return i.withCell f (← (i.cell f).access (r.of f i))

/-- An accessor settles the field behind it and then shows what there is. -/
theorem run_read (r : Resolvers (StateM σ)) (i : FileInfo) (a : Accessor) (s : σ) :
    (i.read r a).run s =
      let (j, s) := (i.settle r a.field?).run s
      ((j.shows a, j), s) := by
  cases a <;> rfl

/-- A list of readings is its first reading and then the others. -/
theorem run_readAll_cons (r : Resolvers (StateM σ)) (i : FileInfo) (a : Accessor)
    (reads : List Accessor) (s : σ) :
    (i.readAll r (a :: reads)).run s =
      let (j, s) := (i.settle r a.field?).run s
      let ((xs, j'), s) := (j.readAll r reads).run s
      ((j.shows a :: xs, j'), s) := by
  rw [show (i.readAll r (a :: reads)).run s =
      let ((x, j), s) := (i.read r a).run s
      let ((xs, j'), s) := (j.readAll r reads).run s
      ((x :: xs, j'), s) from rfl, run_read]
  rfl

/-- Settling a field leaves everything as it is, or it runs the resolver of a cell that waits for
its first reading, and the cell keeps what comes of it. -/
theorem settle_cases (r : Resolvers (StateM σ)) (i : FileInfo) (field : Option LazyField) (s : σ)
    (calls : List Resolution) :
    ((∀ f ∈ field, (i.cell f).isUnresolved = false)
        ∧ (i.settle r field).run s = (i, s)
        ∧ (i.settle r.watched field).run (s, calls) = (i, (s, calls)))
      ∨ ∃ f o s', field = some f ∧ i.cell f = .unresolved ∧ (r.of f i).run s = (o, s')
          ∧ (i.settle r field).run s = (i.withCell f (.ofOutcome o), s')
          ∧ (i.settle r.watched field).run (s, calls)
              = (i.withCell f (.ofOutcome o), (s', calls ++ [⟨f, o⟩])) := by
  cases field with
  | none => exact Or.inl ⟨fun f hf => (by cases hf), rfl, rfl⟩
  | some f =>
    cases hcell : (i.cell f).isUnresolved with
    | false =>
      refine Or.inl ⟨fun g hg => ?_, ?_, ?_⟩
      · obtain rfl := Option.some.inj hg
        exact hcell
      · simp only [settle, Lazy.access_of_isUnresolved_eq_false hcell, pure_bind, withCell_cell]
        rfl
      · simp only [settle, Lazy.access_of_isUnresolved_eq_false hcell, pure_bind, withCell_cell]
        rfl
    | true =>
      have hcell := Lazy.eq_unresolved hcell
      refine Or.inr ⟨f, ((r.of f i).run s).1, ((r.of f i).run s).2, rfl, hcell, rfl, ?_, ?_⟩
      · simp only [settle, hcell]
        rfl
      · simp only [settle, hcell, watched_of]
        rfl

/-- What a list of readings does: the answers, the calls of the resolvers, and the metadata and the
state of the resolvers afterwards. -/
inductive Reads (r : Resolvers (StateM σ)) :
    FileInfo → σ → List Accessor → List Answer → List Resolution → FileInfo → σ → Prop where
  | done {i : FileInfo} {s : σ} : Reads r i s [] [] [] i s
  /-- Nothing has to be resolved. -/
  | found {i i' : FileInfo} {s s' : σ} {a : Accessor} {reads : List Accessor}
      {answers : List Answer} {calls : List Resolution}
      (hsettled : ∀ f ∈ a.field?, (i.cell f).isUnresolved = false)
      (hrest : Reads r i s reads answers calls i' s') :
      Reads r i s (a :: reads) (i.shows a :: answers) calls i' s'
  /-- A resolver is called, and its cell keeps what comes of it. -/
  | resolved {i i' : FileInfo} {s t s' : σ} {a : Accessor} {reads : List Accessor}
      {answers : List Answer} {calls : List Resolution} {f : LazyField}
      {o : Except Error f.Value} (hfield : a.field? = some f) (hcell : i.cell f = .unresolved)
      (hcall : (r.of f i).run s = (o, t))
      (hrest : Reads r (i.withCell f (.ofOutcome o)) t reads answers calls i' s') :
      Reads r i s (a :: reads) ((i.withCell f (.ofOutcome o)).shows a :: answers)
        (⟨f, o⟩ :: calls) i' s'

/-- Every list of readings does what the relation says, whether or not it is watched. -/
theorem reads_readAll (r : Resolvers (StateM σ)) (i : FileInfo) (reads : List Accessor) (s : σ)
    (calls : List Resolution) :
    ∃ answers more i' s', Reads r i s reads answers more i' s'
      ∧ (i.readAll r reads).run s = ((answers, i'), s')
      ∧ (i.readAll r.watched reads).run (s, calls) = ((answers, i'), (s', calls ++ more)) := by
  induction reads generalizing i s calls with
  | nil => exact ⟨[], [], i, s, .done, rfl, by rw [List.append_nil]; rfl⟩
  | cons a reads ih =>
    rcases settle_cases r i a.field? s calls with
      ⟨hsettled, hrun, hwatched⟩ | ⟨f, o, t, hfield, hcell, hcall, hrun, hwatched⟩
    · obtain ⟨answers, more, i', s', hreads, hrest, hrest'⟩ := ih i s calls
      refine ⟨_, more, i', s', .found hsettled hreads, ?_, ?_⟩
      · simp only [run_readAll_cons, hrun, hrest]
      · simp only [run_readAll_cons, hwatched, hrest']
    · obtain ⟨answers, more, i', s', hreads, hrest, hrest'⟩ :=
        ih (i.withCell f (.ofOutcome o)) t (calls ++ [⟨f, o⟩])
      refine ⟨_, _, i', s', .resolved hfield hcell hcall hreads, ?_, ?_⟩
      · simp only [run_readAll_cons, hrun, hrest]
      · simp only [run_readAll_cons, hwatched, hrest', List.append_assoc, List.singleton_append]

/-- Whether resolvers do not change their answers about some metadata: in every state that
satisfies `P`, from which they do not lead away, they give what is offered. -/
structure Resolvers.Steady (r : Resolvers (StateM σ)) (i : FileInfo) (P : σ → Prop)
    (offer : (f : LazyField) → Except Error f.Value) : Prop where
  gives : ∀ f (j : FileInfo) s, j.known = i.known → P s → ((r.of f j).run s).1 = offer f
  keeps : ∀ f (j : FileInfo) s, j.known = i.known → P s → P ((r.of f j).run s).2

/-! ## What readings keep -/

namespace Reads

variable {r : Resolvers (StateM σ)} {i i' : FileInfo} {s s' : σ} {a : Accessor}
  {reads : List Accessor} {answers : List Answer} {calls : List Resolution} {f : LazyField}

theorem known_eq (h : Reads r i s reads answers calls i' s') : i'.known = i.known := by
  induction h with
  | done => rfl
  | found _ _ ih => exact ih
  | resolved _ _ _ _ ih => rw [ih, known_withCell]

/-- A cell holds what it held, or else what its resolver gave. -/
theorem cell_eq (h : Reads r i s reads answers calls i' s') (f : LazyField) :
    i'.cell f = (i.cell f).settled (outcomes f calls) := by
  induction h with
  | done => exact (Lazy.settled_nil _).symm
  | found _ _ ih => exact ih
  | @resolved i i' s t s' a reads answers calls g o _ hcell _ _ ih =>
    by_cases hg : f = g
    · subst hg
      rw [ih, cell_withCell_self, outcomes_cons_self, hcell]
      exact Lazy.settled_of_isUnresolved_eq_false (Lazy.isUnresolved_ofOutcome o) _
    · rw [ih, cell_withCell_of_ne hg, outcomes_cons_of_ne hg]

/-- A cell that holds an outcome stays as it is. -/
theorem cell_eq_of_settled (h : Reads r i s reads answers calls i' s')
    (hcell : (i.cell f).isUnresolved = false) : i'.cell f = i.cell f := by
  rw [h.cell_eq, Lazy.settled_of_isUnresolved_eq_false hcell]

/-- A resolver is called once if its field is read and its cell holds nothing yet, and not at all
otherwise. -/
theorem length_outcomes (h : Reads r i s reads answers calls i' s') (f : LazyField) :
    (outcomes f calls).length =
      if (i.cell f).isUnresolved && reads.any (·.field? = some f) then 1 else 0 := by
  induction h with
  | done => simp [outcomes]
  | @found i i' s s' a reads answers calls hsettled _ ih =>
    rw [ih]
    by_cases hfield : a.field? = some f
    · simp [hsettled f hfield]
    · simp [hfield]
  | @resolved i i' s t s' a reads answers calls g o hfield hcell _ _ ih =>
    by_cases hg : f = g
    · subst hg
      rw [outcomes_cons_self, List.length_cons, ih, cell_withCell_self,
        Lazy.isUnresolved_ofOutcome, hcell]
      simp [hfield, Lazy.isUnresolved]
    · rw [outcomes_cons_of_ne hg, ih, cell_withCell_of_ne hg]
      simp [hfield, Ne.symm hg]

theorem length_answers (h : Reads r i s reads answers calls i' s') :
    answers.length = reads.length := by
  induction h with
  | done => rfl
  | found _ _ ih => exact congrArg (· + 1) ih
  | resolved _ _ _ _ ih => exact congrArg (· + 1) ih

/-- Every answer is what the metadata show in the end: a field that was read once shows the same
from then on. -/
theorem answer_eq (h : Reads r i s reads answers calls i' s') {k : Nat}
    (ha : reads[k]? = some a) (herror : a ≠ .error) : answers[k]? = some (i'.shows a) := by
  induction h generalizing k with
  | done => simp at ha
  | @found i i' s s' b reads answers calls hsettled hrest ih =>
    cases k with
    | zero =>
      obtain rfl : b = a := by simpa using ha
      rw [shows_congr hrest.known_eq (fun f hf => hrest.cell_eq_of_settled (hsettled f hf)) herror]
      rfl
    | succ k => exact ih (by simpa using ha)
  | @resolved i i' s t s' b reads answers calls g o hfield _ _ hrest ih =>
    cases k with
    | zero =>
      obtain rfl : b = a := by simpa using ha
      have hcell : ∀ f ∈ b.field?, i'.cell f = (i.withCell g (.ofOutcome o)).cell f := by
        intro f hf
        obtain rfl : g = f := Option.some.inj (hfield.symm.trans hf)
        exact hrest.cell_eq_of_settled (by rw [cell_withCell_self, Lazy.isUnresolved_ofOutcome])
      rw [shows_congr hrest.known_eq hcell herror]
      rfl
    | succ k => exact ih (by simpa using ha)

/-- Where no cell holds an error at first, the error is that of the first field, in their order,
whose resolver has failed. -/
theorem error?_eq_some_iff (h : Reads r i s reads answers calls i' s')
    (hborn : ∀ f e, i.cell f ≠ .failed e) {e : Error} :
    i'.error? = some e ↔ ∃ f, (⟨f, .error e⟩ : Resolution) ∈ calls
      ∧ ∀ g e', g.rank < f.rank → (⟨g, .error e'⟩ : Resolution) ∉ calls := by
  have hcell : ∀ f e, i'.cell f = .failed e ↔ (⟨f, .error e⟩ : Resolution) ∈ calls := by
    intro f e
    rw [h.cell_eq, Lazy.settled_eq_failed_iff (hborn f) (h.length_outcomes f), mem_outcomes_iff]
  simp only [FileInfo.error?_eq_some_iff, hcell, ne_eq]

/-- An error stays, though it may be another one later. -/
theorem error?_ne_none (h : Reads r i s reads answers calls i' s') (herror : i.error? ≠ none) :
    i'.error? ≠ none := by
  intro hnone
  refine herror (error?_eq_none_iff.2 fun f e hcell => ?_)
  have hsettled : (i.cell f).isUnresolved = false := by rw [hcell]; rfl
  exact error?_eq_none_iff.1 hnone f e ((h.cell_eq_of_settled hsettled).trans hcell)

/-- A field that is not read is left alone. -/
theorem cell_eq_of_unread (h : Reads r i s reads answers calls i' s')
    (hunread : ∀ a ∈ reads, a.field? ≠ some f) : i'.cell f = i.cell f := by
  have hnone : reads.any (·.field? = some f) = false := by simpa using hunread
  have hlength := h.length_outcomes f
  rw [hnone, Bool.and_false, if_neg Bool.false_ne_true] at hlength
  rw [h.cell_eq, List.length_eq_zero_iff.1 hlength, Lazy.settled_nil]

/-- Resolvers that do not change their answers give the same for every call. -/
theorem outcomes_eq {i₀ : FileInfo} {P : σ → Prop} {offer : (f : LazyField) → Except Error f.Value}
    (h : Reads r i s reads answers calls i' s') (hsteady : r.Steady i₀ P offer)
    (hknown : i.known = i₀.known) (hs : P s) (f : LazyField) :
    outcomes f calls =
      if (i.cell f).isUnresolved && reads.any (·.field? = some f) then [offer f] else [] := by
  have hall : ∀ c ∈ calls, c.2 = offer c.1 := by
    clear f
    induction h with
    | done => simp
    | found _ _ ih => exact ih hknown hs
    | @resolved i i' s t s' b reads answers calls g o _ _ hcall _ ih =>
      have hgives := hsteady.gives g i s hknown hs
      have hkeeps := hsteady.keeps g i s hknown hs
      rw [hcall] at hgives hkeeps
      refine List.forall_mem_cons.2 ⟨hgives, ih ?_ hkeeps⟩
      rw [known_withCell, hknown]
  have hmem : ∀ o ∈ outcomes f calls, o = offer f := fun o ho => hall _ (mem_outcomes_iff.1 ho)
  rw [List.eq_replicate_of_mem hmem, h.length_outcomes]
  split <;> rfl

end Reads

/-! ## Readings from a record -/

/-- A list of readings, seen from outside: the answers, the metadata and the resolvers' state
afterwards, and the calls of the resolvers. -/
structure Readings (σ : Type) where
  answers : List Answer
  info : FileInfo
  state : σ
  calls : List Resolution

/-- The readings of metadata with the resolvers in a state. -/
def readings (r : Resolvers (StateM σ)) (i : FileInfo) (s : σ) (reads : List Accessor) :
    Readings σ :=
  let ((answers, info), (state, calls)) := (i.readAll r.watched reads).run (s, [])
  ⟨answers, info, state, calls⟩

/-- Readings from outside are readings, and to watch them makes no difference. -/
theorem reads_readings (r : Resolvers (StateM σ)) (i : FileInfo) (s : σ) (reads : List Accessor) :
    let x := i.readings r s reads
    Reads r i s reads x.answers x.calls x.info x.state
      ∧ (i.readAll r reads).run s = ((x.answers, x.info), x.state) := by
  obtain ⟨answers, calls, i', s', hreads, hrun, hwatched⟩ := reads_readAll r i reads s []
  rw [List.nil_append] at hwatched
  simp only [readings, hwatched]
  exact ⟨hreads, hrun⟩

theorem run_readAll_append (r : Resolvers (StateM σ)) (i : FileInfo) (reads more : List Accessor)
    (s : σ) :
    (i.readAll r (reads ++ more)).run s =
      let ((xs, j), t) := (i.readAll r reads).run s
      let ((ys, j), t) := (j.readAll r more).run t
      ((xs ++ ys, j), t) := by
  induction reads generalizing i s with
  | nil => rfl
  | cons a reads ih =>
    rw [List.cons_append, run_readAll_cons, run_readAll_cons]
    simp only [ih]
    rfl

/-- Readings go on from where the earlier ones have ended. -/
theorem exists_reads_append (r : Resolvers (StateM σ)) (i : FileInfo) (s : σ)
    (reads more : List Accessor) :
    let early := i.readings r s reads
    let late := i.readings r s (reads ++ more)
    ∃ answers calls, Reads r early.info early.state more answers calls late.info late.state
      ∧ late.answers = early.answers ++ answers := by
  obtain ⟨xs, calls, j, t, -, -, hfirst⟩ := reads_readAll r i reads s []
  obtain ⟨ys, calls', j', t', hreads, -, hrest⟩ := reads_readAll r j more t ([] ++ calls)
  have hall := run_readAll_append r.watched i reads more (s, [])
  simp only [hfirst, hrest] at hall
  simp only [readings, hfirst, hall]
  exact ⟨ys, calls', hreads, rfl⟩

/-- Whether readings of metadata agree with each other, with the resolvers that were called for
them, and with the error that is left. -/
structure Coherent (born : FileInfo) (reads : List Accessor) (x : Readings σ) : Prop where
  /-- Whenever a field is read, the answer is what the metadata show in the end. -/
  answer : ∀ (k : Nat) (a : Accessor), reads[k]? = some a → a ≠ .error →
    x.answers[k]? = some (x.info.shows a)
  known : x.info.known = born.known
  /-- A cell holds what it was made with, or else what its resolver gave. -/
  cell : ∀ f, x.info.cell f = (born.cell f).settled (outcomes f x.calls)
  /-- A resolver is called once if one of its accessors is read and the record lacks the field. -/
  calls : ∀ f, (outcomes f x.calls).length =
    if (born.cell f).isUnresolved && reads.any (·.field? = some f) then 1 else 0
  /-- The error is that of the first field, in their order, whose resolver has failed. -/
  error : ∀ e, x.info.error? = some e ↔ ∃ f, (⟨f, .error e⟩ : Resolution) ∈ x.calls
    ∧ ∀ g e', g.rank < f.rank → (⟨g, .error e'⟩ : Resolution) ∉ x.calls

/-- Metadata from a record hold no error. -/
theorem cell_ofRecord_ne_failed (path : Path) (follow : Bool) (record : FileRecord)
    (f : LazyField) (e : Error) : (ofRecord path follow record).cell f ≠ .failed e := by
  have hcell : ∀ {α : Type} (value : Option α), Lazy.ofOption value ≠ .failed e := by
    intro α value
    cases value <;> simp [Lazy.ofOption]
  cases f with
  | btime => exact hcell record.btime
  | changeTime => exact hcell record.changeTime
  | owner => exact hcell record.owner

/-- Two orders of the same readings leave the same metadata if the resolvers do not change their
answers. -/
theorem Reads.info_eq_of_perm {r : Resolvers (StateM σ)} {i j j' : FileInfo} {s s' t t' : σ}
    {reads others : List Accessor} {answers answers' : List Answer} {calls calls' : List Resolution}
    {P : σ → Prop} {offer : (f : LazyField) → Except Error f.Value}
    (h : Reads r i s reads answers calls j t) (h' : Reads r i s' others answers' calls' j' t')
    (hsteady : r.Steady i P offer) (hs : P s) (hs' : P s') (hperm : reads.Perm others) :
    j' = j := by
  refine eq_of_cells (h'.known_eq.trans h.known_eq.symm) fun f => ?_
  have hasked : others.any (·.field? = some f) = reads.any (·.field? = some f) := by
    rw [Bool.eq_iff_iff, List.any_eq_true, List.any_eq_true]
    simp only [hperm.mem_iff]
  rw [h'.cell_eq, h.cell_eq, h'.outcomes_eq hsteady rfl hs', h.outcomes_eq hsteady rfl hs, hasked]

/-- What comes of every list of readings, whatever the resolvers do.  Every field shows the same at
each reading, each resolver is called at most once, and the two names of the owner come from one
call; the error is that of the first field that has failed, also where it is asked for on the way,
and does not go away.  Fields that are not read stay as they are.  Resolvers that do not change
their answers give the same for every order of the readings. -/
theorem readings_coherent (r : Resolvers (StateM σ)) (path : Path) (follow : Bool)
    (record : FileRecord) (s : σ) (reads more : List Accessor) :
    let born := ofRecord path follow record
    let early := born.readings r s reads
    let late := born.readings r s (reads ++ more)
    (born.readAll r (reads ++ more)).run s = ((late.answers, late.info), late.state)
      ∧ Coherent born (reads ++ more) late
      ∧ (∀ rest, more = .error :: rest →
          late.answers[reads.length]? = some (.error early.info.error?))
      ∧ (∀ f, (∀ a ∈ more, a.field? ≠ some f) → late.info.cell f = early.info.cell f)
      ∧ (early.info.error? ≠ none → late.info.error? ≠ none)
      ∧ ∀ (P : σ → Prop) (offer : (f : LazyField) → Except Error f.Value),
          r.Steady born P offer → P s → ∀ s' others, P s' → (reads ++ more).Perm others →
            let other := born.readings r s' others
            other.info = late.info
              ∧ ∀ (j k : Nat) (a : Accessor), (reads ++ more)[j]? = some a → others[k]? = some a →
                  a ≠ .error → other.answers[k]? = late.answers[j]? := by
  intro born early late
  have hborn := cell_ofRecord_ne_failed path follow record
  obtain ⟨hlate, hrun⟩ := reads_readings r born s (reads ++ more)
  obtain ⟨hearly, -⟩ := reads_readings r born s reads
  obtain ⟨answers, calls, hmore, hanswers⟩ := exists_reads_append r born s reads more
  refine ⟨hrun, ?_, ?_, fun f => hmore.cell_eq_of_unread, hmore.error?_ne_none, ?_⟩
  · exact ⟨fun k a => hlate.answer_eq, hlate.known_eq, hlate.cell_eq, hlate.length_outcomes,
      fun e => hlate.error?_eq_some_iff hborn⟩
  · rintro rest rfl
    have hlength : early.answers.length = reads.length := hearly.length_answers
    rw [show late.answers = early.answers ++ answers from hanswers, ← hlength,
      List.getElem?_append_right (Nat.le_refl _), Nat.sub_self]
    cases hmore with
    | found _ _ => rfl
    | resolved hfield _ _ _ => cases hfield
  · intro P offer hsteady hs s' others hs' hperm other
    obtain ⟨hother, -⟩ := reads_readings r born s' others
    have hinfo : other.info = late.info := hlate.info_eq_of_perm hother hsteady hs hs' hperm
    refine ⟨hinfo, fun j k a hj hk ha => ?_⟩
    calc other.answers[k]? = some (other.info.shows a) := hother.answer_eq hk ha
      _ = some (late.info.shows a) := by rw [hinfo]
      _ = late.answers[j]? := (hlate.answer_eq hj ha).symm

/-! ## The resolvers of a platform -/

/-- The resolvers of a platform, whose state is the machine. -/
def Resolvers.onMachine (r : Resolvers Program) : Resolvers (StateM Machine) where
  btime i := fun m => (r.btime i).run m
  changeTime i := fun m => (r.changeTime i).run m
  owner i := fun m => (r.owner i).run m

theorem run_settle_onMachine (r : Resolvers Program) (i : FileInfo) (field : Option LazyField)
    (m : Machine) : (i.settle r.onMachine field).run m = (i.settle r field).run m := by
  cases field with
  | none => rfl
  | some f =>
    cases hcell : (i.cell f).isUnresolved with
    | false =>
      simp only [settle, Lazy.access_of_isUnresolved_eq_false hcell, Program.run_bind]
      rfl
    | true =>
      simp only [settle, Lazy.eq_unresolved hcell, Lazy.access, Program.run_bind]
      cases f <;> rfl

/-- On a platform, too, an accessor settles the field behind it and then shows what there is. -/
theorem run_read_program (r : Resolvers Program) (i : FileInfo) (a : Accessor) (m : Machine) :
    (i.read r a).run m =
      let (j, m) := (i.settle r a.field?).run m
      ((j.shows a, j), m) := by
  have hsupported : supported.contains .birthTime = true := rfl
  cases a <;> simp only [read, readBtime, readChangeTime, readUser, readGroup, readOwner, settle,
    Accessor.field?, hsupported, if_true, Program.run_bind] <;> rfl

/-- Readings on a platform are readings with its resolvers on the machine. -/
theorem run_readAll_onMachine (r : Resolvers Program) (i : FileInfo) (reads : List Accessor)
    (m : Machine) : (i.readAll r.onMachine reads).run m = (i.readAll r reads).run m := by
  induction reads generalizing i m with
  | nil => rfl
  | cons a reads ih =>
    rw [run_readAll_cons, run_settle_onMachine]
    simp only [readAll, Program.run_bind, run_read_program, ih]
    rfl

/-- What is known of a file that somebody has removed since: neither a time of birth nor the names
of the owner. -/
def lostRecord : FileRecord where
  size := 2
  mode := .new .regular 0o644
  mtime := .zero
  atime := .zero
  ctime := .zero
  btime := none
  changeTime := none
  partition := 0
  file := 40
  links := 1
  uid := 0
  gid := 0
  owner := none

/-- The metadata of such a file. -/
def lost : FileInfo := ofRecord ⟨[108]⟩ true lostRecord

/-- What a POSIX system says of it: there is no such file any more, but the owner has names. -/
def lostOffer : (f : LazyField) → Except Error f.Value
  | .btime => .error (.ofErrno .statx ⟨[108]⟩ .noEntry)
  | .changeTime => .ok .zero
  | .owner => .ok ⟨"root", "root"⟩

/-- A machine on which nothing happens does not change its answers. -/
theorem steady_lost :
    Posix.platform.resolvers.onMachine.Steady lost (· = Machine.small fun _ => 7) lostOffer := by
  have hrun : ∀ f (j : FileInfo), j.known = lost.known →
      ((Posix.platform.resolvers.onMachine.of f j).run (Machine.small fun _ => 7))
        = (lostOffer f, Machine.small fun _ => 7) := by
    intro f j hknown
    have hpath : j.known.path = lost.known.path := congrArg FileInfo.path hknown
    have hfollow : j.known.follow = lost.known.follow := congrArg FileInfo.follow hknown
    have hctime : j.known.ctime = lost.known.ctime := congrArg FileInfo.ctime hknown
    have huid : j.known.uid = lost.known.uid := congrArg FileInfo.uid hknown
    have hgid : j.known.gid = lost.known.gid := congrArg FileInfo.gid hknown
    cases f with
    | btime =>
      have hresolve : Posix.resolveBtime j = Posix.resolveBtime lost := by
        rw [Posix.resolveBtime, show j.path = lost.path from hpath,
          show j.follow = lost.follow from hfollow, Posix.resolveBtime]
      change (Posix.resolveBtime j).outcome.run _ = _
      rw [hresolve]
      rfl
    | changeTime =>
      change ((.ok j.ctime : Except Error Timestamp), _) = _
      rw [show j.ctime = lost.ctime from hctime]
      rfl
    | owner =>
      have hresolve : Posix.resolveOwner j = Posix.resolveOwner lost := by
        rw [Posix.resolveOwner, show j.path = lost.path from hpath,
          show j.uid = lost.uid from huid, show j.gid = lost.gid from hgid, Posix.resolveOwner]
      change (Posix.resolveOwner j).outcome.run _ = _
      rw [hresolve]
      rfl
  constructor
  · rintro f j s hknown rfl
    rw [hrun f j hknown]
  · rintro f j s hknown rfl
    rw [hrun f j hknown]

/-- On a POSIX system the readings of such a file agree: the time of birth fails once and the names
come from one look, in either of two orders. -/
theorem readings_coherent_lost :
    let m := Machine.small fun _ => 7
    let resolvers := Posix.platform.resolvers
    let late := lost.readings resolvers.onMachine m [.user, .btime, .error, .group]
    let other := lost.readings resolvers.onMachine m [.group, .btime, .user, .error]
    resolvers.onMachine.Steady lost (· = m) lostOffer
      ∧ (lost.readAll resolvers [.user, .btime, .error, .group]).run m
          = ((late.answers, late.info), late.state)
      ∧ Coherent lost [.user, .btime, .error, .group] late
      ∧ late.info.error? = some (.ofErrno .statx ⟨[108]⟩ .noEntry)
      ∧ late.answers[0]? = some (.name "root")
      ∧ other.info = late.info ∧ other.answers[2]? = late.answers[0]? := by
  have herror : (lost.readings Posix.platform.resolvers.onMachine (Machine.small fun _ => 7)
      [.user, .btime, .error, .group]).info.error? = some (.ofErrno .statx ⟨[108]⟩ .noEntry) := by
    rfl
  have hname : (lost.readings Posix.platform.resolvers.onMachine (Machine.small fun _ => 7)
      [.user, .btime, .error, .group]).answers[0]? = some (.name "root") := by
    rfl
  intro m resolvers late other
  obtain ⟨hrun, hcoherent, -, -, -, horder⟩ :=
    readings_coherent resolvers.onMachine ⟨[108]⟩ true lostRecord m [.user, .btime]
      [.error, .group]
  have hperm : ([.user, .btime, .error, .group] : List Accessor).Perm
      [.group, .btime, .user, .error] := by decide
  obtain ⟨hinfo, hanswers⟩ := horder (· = m) lostOffer steady_lost rfl m
    [.group, .btime, .user, .error] rfl hperm
  refine ⟨steady_lost, ?_, hcoherent, herror, hname, hinfo,
    hanswers 0 2 .user rfl rfl (by decide)⟩
  rw [← run_readAll_onMachine]
  exact hrun

end FileInfo

end PortableFiles
