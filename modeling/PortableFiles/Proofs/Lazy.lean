import Mathlib.Algebra.Ring.Nat
import PortableFiles.Lazy
set_option autoImplicit false

/-!
# The life of a lazy cell

A program holds one lazy cell and may hold a copy that it saved earlier.  It reads the cell at
hand, saves a copy of it, or swaps the two.  `Desk` is what the program sees: two cells and the
number of resolvers that were run.  A cell has no name there, so what happens to one of them over
time cannot be said.  `Shelf` keeps every cell that was ever made together with its history, and
the desk is a view of it.  Each history is sound at all times, and a later one continues it.
-/

namespace PortableFiles.Lazy

variable {α : Type}

/-- The resolver that gives `offer` and counts that it was run. -/
def counted (offer : Except Error α) : StateM Nat (Except Error α) := do
  modify (· + 1)
  return offer

/-- What a cell holds that was made as `born` and was read with resolvers that would give
`offers`: what it held already, or else the first of them. -/
def settled (born : Lazy α) (offers : List (Except Error α)) : Lazy α :=
  match born, offers with
  | .unresolved, offer :: _ => ofOutcome offer
  | known, _ => known

theorem settled_nil (born : Lazy α) : settled born [] = born := by
  cases born <;> rfl

/-- What is settled stays as it is, whatever is offered later. -/
theorem settled_append {born : Lazy α} {offers : List (Except Error α)}
    (h : (settled born offers).isUnresolved = false) (more : List (Except Error α)) :
    settled born (offers ++ more) = settled born offers := by
  cases born with
  | unresolved =>
    cases offers with
    | nil => cases h
    | cons offer rest => rfl
  | resolved value => rfl
  | failed e => rfl

/-- What was made with an outcome keeps it. -/
theorem settled_of_isUnresolved_eq_false {born : Lazy α} (h : born.isUnresolved = false)
    (offers : List (Except Error α)) : settled born offers = born := by
  have hnil := settled_nil born
  rw [← List.nil_append offers, settled_append (by rw [hnil, h]), hnil]

/-- A cell that was made without an error, and has taken at most what it was offered while it
waited, holds an error exactly if that was offered. -/
theorem settled_eq_failed_iff {born : Lazy α} {offers : List (Except Error α)} {asked : Bool}
    {e : Error} (hborn : ∀ e, born ≠ .failed e)
    (hlength : offers.length = if born.isUnresolved && asked then 1 else 0) :
    settled born offers = .failed e ↔ .error e ∈ offers := by
  cases born with
  | unresolved =>
    match offers with
    | [] => simp [settled]
    | [offer] => cases offer <;> simp [settled, ofOutcome, eq_comm]
    | _ :: _ :: _ =>
      simp only [List.length_cons] at hlength
      split at hlength <;> omega
  | resolved value =>
    obtain rfl : offers = [] := List.length_eq_zero_iff.1 hlength
    simp [settled]
  | failed e' => exact absurd rfl (hborn e')

theorem eq_unresolved {cell : Lazy α} (h : cell.isUnresolved = true) : cell = .unresolved := by
  cases cell with
  | unresolved => rfl
  | resolved value => cases h
  | failed e => cases h

/-- A cell that waits for its outcome was made without one, and nobody has read it. -/
theorem settled_eq_unresolved {born : Lazy α} {offers : List (Except Error α)}
    (h : settled born offers = .unresolved) : born = .unresolved ∧ offers = [] := by
  cases born with
  | unresolved =>
    cases offers with
    | nil => exact ⟨rfl, rfl⟩
    | cons offer rest =>
      have := isUnresolved_ofOutcome offer
      rw [show ofOutcome offer = .unresolved from h] at this
      cases this
  | resolved value => cases h
  | failed e => cases h

/-- The number of resolvers that a reading of the cell runs. -/
def resolvers : Lazy α → Nat
  | .unresolved => 1
  | _ => 0

/-- A reading gives what is settled by it, and counts a run if nothing was settled before. -/
theorem run_access (cell : Lazy α) (offer : Except Error α) (runs : Nat) :
    (cell.access (counted offer)).run runs =
      (settled cell [offer], runs + cell.resolvers) := by
  cases cell <;> rfl

/-- What a program does with a cell and the copy it saved. -/
inductive Deed (α : Type) where
  /-- Reads the cell at hand, with a resolver that would give `offer`. -/
  | read (offer : Except Error α)
  /-- Saves a copy of the cell at hand. -/
  | save
  /-- Takes the saved copy to hand and saves the other. -/
  | swap

/-! ## What the program sees -/

/-- The cell at hand, the saved copy and the number of resolvers that were run. -/
@[ext]
structure Desk (α : Type) where
  cell : Lazy α
  saved : Option (Lazy α)
  runs : Nat

namespace Desk

/-- The desk with one new cell, whose value may be known already. -/
def start (initial : Option α) : Desk α := ⟨ofOption initial, none, 0⟩

/-- The desk after a deed. -/
def step (desk : Desk α) : Deed α → Desk α
  | .read offer =>
    let (cell, runs) := (desk.cell.access (counted offer)).run desk.runs
    { desk with cell := cell, runs := runs }
  | .save => { desk with saved := some desk.cell }
  | .swap =>
    match desk.saved with
    | none => desk
    | some other => { desk with cell := other, saved := some desk.cell }

/-- The desk after a list of deeds. -/
def run (desk : Desk α) (deeds : List (Deed α)) : Desk α := deeds.foldl step desk

end Desk

/-! ## The history of one cell -/

/-- A reading of a cell: what its resolver would have given, and what the reader was told. -/
structure Reading (α : Type) where
  offer : Except Error α
  value : Option α
  error : Option Error

/-- A cell with its history: what it held when it was made, the resolvers that it ran, and its
readings in order. -/
structure Life (α : Type) where
  born : Lazy α
  cell : Lazy α
  runs : Nat
  readings : List (Reading α)

namespace Life

/-- The history of a new cell. -/
def begin (cell : Lazy α) : Life α := ⟨cell, cell, 0, []⟩

/-- The history with one more reading. -/
def read (life : Life α) (offer : Except Error α) : Life α :=
  let (cell, runs) := (life.cell.access (counted offer)).run life.runs
  { life with
    cell := cell
    runs := runs
    readings := life.readings ++ [⟨offer, cell.value?, cell.error?⟩] }

/-- The cell that is not settled yet keeps what its next reading is offered. -/
theorem read_of_unresolved {life : Life α} (h : life.cell = .unresolved)
    (offer : Except Error α) :
    life.read offer =
      { life with
        cell := ofOutcome offer
        runs := life.runs + 1
        readings := life.readings ++
          [⟨offer, (ofOutcome offer).value?, (ofOutcome offer).error?⟩] } := by
  simp only [read, run_access, h]
  rfl

/-- The cell that is settled keeps its outcome, and no resolver is run. -/
theorem read_of_settled {life : Life α} (h : life.cell.isUnresolved = false)
    (offer : Except Error α) :
    life.read offer =
      { life with
        readings := life.readings ++ [⟨offer, life.cell.value?, life.cell.error?⟩] } := by
  simp only [read, access_of_isUnresolved_eq_false h]
  rfl

/-- The history is one that a cell may have. -/
structure Sound (life : Life α) : Prop where
  /-- The cell holds what it was made with, or else what the first resolver gave. -/
  cell : life.cell = settled life.born (life.readings.map (·.offer))
  /-- One resolver was run if the cell was made without an outcome and was read, else none. -/
  runs : life.runs = if life.born.isUnresolved && !life.readings.isEmpty then 1 else 0
  /-- Every reader was told what the cell holds now. -/
  told : ∀ reading ∈ life.readings,
    reading.value = life.cell.value? ∧ reading.error = life.cell.error?

theorem Sound.begin (cell : Lazy α) : (begin cell).Sound where
  cell := (settled_nil cell).symm
  runs := by simp [Life.begin]
  told := by simp [Life.begin]

theorem Sound.read {life : Life α} (h : life.Sound) (offer : Except Error α) :
    (life.read offer).Sound := by
  cases hcell : life.cell.isUnresolved with
  | true =>
    have hcell : life.cell = .unresolved := eq_unresolved hcell
    obtain ⟨hborn, hread⟩ := settled_eq_unresolved (h.cell.symm.trans hcell)
    have hread : life.readings = [] := by simpa using hread
    have hruns : life.runs = 0 := by simp [h.runs, hread]
    rw [read_of_unresolved hcell]
    constructor
    · simp [hborn, hread, settled]
    · simp [hborn, hread, hruns, isUnresolved]
    · simp [hread]
  | false =>
    rw [read_of_settled hcell]
    constructor
    · have hsettled : (settled life.born (life.readings.map (·.offer))).isUnresolved = false := by
        rw [← h.cell, hcell]
      rw [List.map_append, settled_append hsettled, h.cell]
    · -- A settled cell was made settled, or has been read before.
      have hsame : (life.born.isUnresolved && !life.readings.isEmpty) =
          life.born.isUnresolved := by
        cases hread : life.readings with
        | nil =>
          have : life.cell = life.born := by rw [h.cell, hread, List.map_nil, settled_nil]
          rw [← this, hcell, Bool.false_and]
        | cons reading rest => simp
      simp [h.runs, hsame]
    · intro reading hmem
      rcases List.mem_append.1 hmem with hold | hnew
      · exact h.told reading hold
      · obtain rfl := List.mem_singleton.1 hnew
        exact ⟨rfl, rfl⟩

/-- `later` is the same cell at a later time. -/
structure Continues (life later : Life α) : Prop where
  born : later.born = life.born
  /-- No reading is forgotten. -/
  readings : life.readings <+: later.readings
  /-- The cell has changed at most from having no outcome to having one. -/
  cell : later.cell = life.cell ∨
    life.cell.isUnresolved = true ∧ later.cell.isUnresolved = false

theorem Continues.refl (life : Life α) : life.Continues life :=
  ⟨rfl, List.prefix_rfl, .inl rfl⟩

theorem Continues.trans {life later last : Life α} (h : life.Continues later)
    (h' : later.Continues last) : life.Continues last where
  born := h'.born.trans h.born
  readings := h.readings.trans h'.readings
  cell := by
    rcases h.cell with hsame | ⟨hbefore, hafter⟩
    · rw [← hsame]
      exact h'.cell
    · rcases h'.cell with hsame | ⟨hlater, -⟩
      · exact .inr ⟨hbefore, hsame ▸ hafter⟩
      · rw [hafter] at hlater
        cases hlater

theorem Continues.read (life : Life α) (offer : Except Error α) :
    life.Continues (life.read offer) := by
  cases hcell : life.cell with
  | unresolved =>
    rw [read_of_unresolved hcell]
    exact ⟨rfl, List.prefix_append _ _,
      .inr ⟨by rw [hcell]; rfl, isUnresolved_ofOutcome offer⟩⟩
  | resolved value =>
    rw [read_of_settled (by rw [hcell]; rfl)]
    exact ⟨rfl, List.prefix_append _ _, .inl rfl⟩
  | failed e =>
    rw [read_of_settled (by rw [hcell]; rfl)]
    exact ⟨rfl, List.prefix_append _ _, .inl rfl⟩

end Life

/-! ## Every cell that was ever made -/

/-- All cells with their histories, and which of them are at hand and saved.  A copy is a cell of
its own, so the one at hand and the saved one are never the same. -/
structure Shelf (α : Type) where
  lives : List (Life α)
  hand : Nat
  saved : Option Nat
  hand_lt : hand < lives.length
  saved_lt : ∀ n ∈ saved, n < lives.length
  saved_ne : ∀ n ∈ saved, n ≠ hand

namespace Shelf

/-- The shelf with one new cell. -/
def start (initial : Option α) : Shelf α where
  lives := [Life.begin (ofOption initial)]
  hand := 0
  saved := none
  hand_lt := by simp
  saved_lt := by simp
  saved_ne := by simp

/-- The history of the cell at hand. -/
def life (shelf : Shelf α) : Life α := shelf.lives.get ⟨shelf.hand, shelf.hand_lt⟩

theorem getElem?_hand (shelf : Shelf α) : shelf.lives[shelf.hand]? = some shelf.life :=
  List.getElem?_eq_getElem shelf.hand_lt

/-- The shelf after a deed.  A reading is a reading of the cell at hand; a copy begins a life. -/
def step (shelf : Shelf α) : Deed α → Shelf α
  | .read offer =>
    { shelf with
      lives := shelf.lives.modify shelf.hand (·.read offer)
      hand_lt := by simpa using shelf.hand_lt
      saved_lt := by simpa using shelf.saved_lt }
  | .save =>
    { shelf with
      lives := shelf.lives ++ [Life.begin shelf.life.cell]
      saved := some shelf.lives.length
      hand_lt := by
        have := shelf.hand_lt
        simp only [List.length_append, List.length_singleton]
        omega
      saved_lt := by simp
      saved_ne := by
        have := shelf.hand_lt
        simp only [Option.mem_some_iff, forall_eq']
        omega }
  | .swap =>
    match h : shelf.saved with
    | none => shelf
    | some n =>
      { shelf with
        hand := n
        saved := some shelf.hand
        hand_lt := shelf.saved_lt n h
        saved_lt := by simpa using shelf.hand_lt
        saved_ne := by simpa using (shelf.saved_ne n h).symm }

/-- The shelf after a list of deeds. -/
def run (shelf : Shelf α) (deeds : List (Deed α)) : Shelf α := deeds.foldl step shelf

/-- What the program sees of the shelf. -/
def desk (shelf : Shelf α) : Desk α where
  cell := shelf.life.cell
  saved := shelf.saved.bind fun n => shelf.lives[n]?.map (·.cell)
  runs := (shelf.lives.map (·.runs)).sum

theorem lives_step_swap (shelf : Shelf α) : (shelf.step .swap).lives = shelf.lives := by
  simp only [step]
  split <;> rfl

/-- A deed changes no cell but a reading the one at hand. -/
theorem getElem?_step_of_ne (shelf : Shelf α) (deed : Deed α) {n : Nat}
    (hne : n ≠ shelf.hand) (hlt : n < shelf.lives.length) :
    (shelf.step deed).lives[n]? = shelf.lives[n]? := by
  cases deed with
  | read offer => exact List.getElem?_modify_ne _ _ hne.symm
  | save => exact List.getElem?_append_left hlt
  | swap => rw [lives_step_swap]

/-- Every cell of the shelf is there at a later time. -/
def Extends (shelf later : Shelf α) : Prop :=
  ∀ (n : Nat) (life : Life α), shelf.lives[n]? = some life →
    ∃ life', later.lives[n]? = some life' ∧ life.Continues life'

theorem Extends.refl (shelf : Shelf α) : shelf.Extends shelf :=
  fun _ life h => ⟨life, h, .refl life⟩

theorem Extends.trans {shelf later last : Shelf α} (h : shelf.Extends later)
    (h' : later.Extends last) : shelf.Extends last := by
  intro n life hlife
  obtain ⟨life', hlife', hcont⟩ := h n life hlife
  obtain ⟨life'', hlife'', hcont'⟩ := h' n life' hlife'
  exact ⟨life'', hlife'', hcont.trans hcont'⟩

theorem Extends.step (shelf : Shelf α) (deed : Deed α) : shelf.Extends (shelf.step deed) := by
  intro n life hlife
  have hlt : n < shelf.lives.length := (List.getElem?_eq_some_iff.1 hlife).1
  by_cases hne : n = shelf.hand
  · subst hne
    cases deed with
    | read offer =>
      refine ⟨life.read offer, ?_, .read life offer⟩
      simp only [Shelf.step, List.getElem?_modify_eq, hlife]
      rfl
    | save => exact ⟨life, (List.getElem?_append_left hlt).trans hlife, .refl life⟩
    | swap => exact ⟨life, by rw [lives_step_swap, hlife], .refl life⟩
  · exact ⟨life, (shelf.getElem?_step_of_ne deed hne hlt).trans hlife, .refl life⟩

theorem Extends.run (shelf : Shelf α) (deeds : List (Deed α)) :
    shelf.Extends (shelf.run deeds) := by
  induction deeds generalizing shelf with
  | nil => exact .refl shelf
  | cons deed rest ih => exact (Extends.step shelf deed).trans (ih (shelf.step deed))

/-- Every history on the shelf is one that a cell may have. -/
def Sound (shelf : Shelf α) : Prop := ∀ life ∈ shelf.lives, life.Sound

theorem Sound.start (initial : Option α) : (start initial).Sound := by
  intro life hmem
  obtain rfl := List.mem_singleton.1 hmem
  exact .begin _

theorem Sound.step {shelf : Shelf α} (h : shelf.Sound) (deed : Deed α) :
    (shelf.step deed).Sound := by
  intro life hmem
  cases deed with
  | read offer =>
    obtain ⟨n, hn⟩ := List.mem_iff_getElem?.1 hmem
    by_cases hne : n = shelf.hand
    · subst hne
      simp only [Shelf.step, List.getElem?_modify_eq, getElem?_hand] at hn
      obtain rfl := Option.some.inj hn
      exact (h _ (List.mem_of_getElem? shelf.getElem?_hand)).read offer
    · simp only [Shelf.step, List.getElem?_modify_ne _ _ (Ne.symm hne)] at hn
      exact h life (List.mem_of_getElem? hn)
  | save =>
    rcases List.mem_append.1 hmem with hold | hnew
    · exact h life hold
    · obtain rfl := List.mem_singleton.1 hnew
      exact .begin _
  | swap =>
    rw [lives_step_swap] at hmem
    exact h life hmem

theorem Sound.run {shelf : Shelf α} (h : shelf.Sound) (deeds : List (Deed α)) :
    (shelf.run deeds).Sound := by
  induction deeds generalizing shelf with
  | nil => exact h
  | cons deed rest ih => exact ih (h.step deed)

end Shelf

/-- A copy that is saved before the first reading resolves on its own: two resolvers run, and
each cell keeps what its own resolver gave. -/
example :
    (Desk.start (none : Option Nat)).run
        [.save, .read (.ok 1), .read (.ok 2), .swap, .read (.ok 3), .read (.ok 4)] =
      ⟨.resolved 3, some (.resolved 1), 2⟩ := by
  rfl

end PortableFiles.Lazy
