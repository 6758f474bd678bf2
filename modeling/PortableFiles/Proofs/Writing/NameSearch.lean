import PortableFiles.Proofs.Writing.Success
set_option autoImplicit false

/-!
# The search for a free name

A search draws one name after the other and tries to make a new file under each.  All that keeps it
from an entry that exists is the error with which the system refuses to make a file there.  One
attempt is `NameSearch.Tried`; from it, by induction on the attempts that are left, a whole search
ends in one of three ways (`NameSearch.searched_of_runs`): it has made a file under the first name
at which nothing was in the way, or it was refused for another reason at such a name, or something
was in the way at every name.
-/

namespace PortableFiles.Writing.NameSearch

variable {fails : Call → Errno → Prop} {s : NameSearch} {m m' : Machine} {events : List Event}
  {attempts k : Nat} {outcome : Except Error (Path × Writer)}

/-- The calls that try the first `k` names, one after the other, and find that something is in the
way of each. -/
inductive Collisions (fails : Call → Errno → Prop) (s : NameSearch) :
    Machine → Nat → List Event → Prop where
  | none {m : Machine} : Collisions fails s m 0 []
  | next {m : Machine} {k : Nat} {tries rest : List Event} (htries : s.Collides fails m tries)
      (hrest : Collisions fails s (m.drew 1) k rest) : Collisions fails s m (k + 1) (tries ++ rest)

/-- Whether a search has made one new empty file under the `k`-th name.  Something is in the way at
all names before, nothing else is different, and no later name was drawn. -/
structure Made (fails : Call → Errno → Prop) (s : NameSearch) (m : Machine) (k : Nat)
    (events : List Event) (outcome : Except Error (Path × Writer)) (m' : Machine) : Prop where
  taken : ∀ j < k, m.Taken (s.path m j)
  file : ∃ file dir name, outcome = .ok (s.path m k, ⟨file, s.path m k, false⟩)
    ∧ m.locate (fun _ => false) (s.path m k) = .ok (.entry dir name false)
    ∧ m.tree.Vacant dir name
    ∧ m.tree.Replaced dir name (m.newInode dir (.file []) (m.masked s.perm)) m'.tree
    ∧ m'.file? file = some (OpenHow.making.file m.tree.nextId (.entry dir name))
    ∧ ∃ before tries, events = before ++ tries ∧ s.Collisions fails m k before
        ∧ (Call.openFile (s.path m k) .making s.perm).Attempts fails true (m.drew (k + 1)) tries
            (.ok file) m'
  process : m'.process = (m.drew (k + 1)).process

/-- Whether a search was refused at the `k`-th name, for another reason than that something is
there.  Something is in the way at all names before, and nothing has happened. -/
structure Refused (fails : Call → Errno → Prop) (s : NameSearch) (m : Machine) (k : Nat)
    (events : List Event) (outcome : Except Error (Path × Writer)) (m' : Machine) : Prop where
  taken : ∀ j < k, m.Taken (s.path m j)
  error : ∃ before last e, outcome = .error e ∧ events = before ++ last
    ∧ s.Collisions fails m k before ∧ Refuses fails (m.drew (k + 1)) (s.path m k) s.perm last e
  machine : m' = m.drew (k + 1)

/-- The ways in which a search can end. -/
inductive Searched (fails : Call → Errno → Prop) (s : NameSearch) (attempts : Nat) (m : Machine)
    (events : List Event) (outcome : Except Error (Path × Writer)) (m' : Machine) : Prop where
  | made {k : Nat} (hk : k < attempts) (h : s.Made fails m k events outcome m')
  | refused {k : Nat} (hk : k < attempts) (h : s.Refused fails m k events outcome m')
  | exhausted (htaken : ∀ j < attempts, m.Taken (s.path m j))
      (hevents : s.Collisions fails m attempts events)
      (houtcome : outcome = .error (.tempNamesExhausted s.directory))
      (hmachine : m' = m.drew attempts)

/-! ## A name that is taken, and then the others -/

section After

variable {tries : List Event} (htaken : m.Taken (s.path m 0))

include htaken

theorem taken_after (h : ∀ j < k, (m.drew 1).Taken (s.path (m.drew 1) j)) :
    ∀ j < k + 1, m.Taken (s.path m j) := by
  intro j hj
  cases j with
  | zero => exact htaken
  | succ j =>
    have htaken := (Machine.Asked.drew m 1).taken (h j (Nat.lt_of_succ_lt_succ hj))
    rwa [path_drew, Nat.add_comm] at htaken

theorem Made.after (htries : s.Collides fails m tries)
    (h : s.Made fails (m.drew 1) k events outcome m') :
    s.Made fails m (k + 1) (tries ++ events) outcome m' where
  taken := taken_after htaken h.taken
  file := by
    obtain ⟨file, dir, name, houtcome, hplace, hvacant, hreplaced, hfile, before, last, rfl,
      hbefore, hlast⟩ := h.file
    rw [path_drew, Nat.add_comm] at houtcome hplace hlast
    rw [Machine.drew_drew, Nat.add_comm 1] at hlast
    exact ⟨file, dir, name, houtcome, hplace, hvacant, hreplaced, hfile, tries ++ before, last,
      (List.append_assoc ..).symm, .next htries hbefore, hlast⟩
  process := by rw [h.process, Machine.drew_drew, Nat.add_comm]

theorem Refused.after (htries : s.Collides fails m tries)
    (h : s.Refused fails (m.drew 1) k events outcome m') :
    s.Refused fails m (k + 1) (tries ++ events) outcome m' where
  taken := taken_after htaken h.taken
  error := by
    obtain ⟨before, last, e, houtcome, rfl, hbefore, hrefuses⟩ := h.error
    rw [path_drew, Machine.drew_drew, Nat.add_comm 1, Nat.add_comm 1] at hrefuses
    exact ⟨tries ++ before, last, e, houtcome, (List.append_assoc ..).symm, .next htries hbefore,
      hrefuses⟩
  machine := by rw [h.machine, Machine.drew_drew, Nat.add_comm]

theorem Searched.after (htries : s.Collides fails m tries)
    (h : Searched fails s attempts (m.drew 1) events outcome m') :
    Searched fails s (attempts + 1) m (tries ++ events) outcome m' := by
  cases h with
  | made hk h => exact .made (Nat.succ_lt_succ hk) (h.after htaken htries)
  | refused hk h => exact .refused (Nat.succ_lt_succ hk) (h.after htaken htries)
  | exhausted hall hevents houtcome hmachine =>
    refine .exhausted (taken_after htaken hall) (.next htries hevents) houtcome ?_
    rw [hmachine, Machine.drew_drew, Nat.add_comm]

end After

/-! ## The whole search -/

/-- A new file that was made at the first attempt. -/
theorem made_of_openFile {file : Descriptor}
    (hopen : (m.drew 1).openFile (s.path m 0) .making s.perm = .ok (file, m'))
    (hcall : (Call.openFile (s.path m 0) .making s.perm).Attempts fails true (m.drew 1) events
      (.ok file) m') :
    s.Made fails m 0 events (.ok (s.path m 0, ⟨file, s.path m 0, false⟩)) m' := by
  have hprocess : m'.process = (m.drew 1).process := Machine.process_openFile hopen
  obtain ⟨dir, name, hplace, hvacant, -, hmade⟩ := Machine.openFile_making_eq_ok hopen
  obtain ⟨hfile, htree⟩ := Machine.of_openAs hmade
  refine ⟨nofun, ⟨file, dir, name, rfl, hplace, hvacant, ?_, hfile, [], events, rfl, .none, hcall⟩,
    hprocess⟩
  refine .of_addEntry hvacant.isDirectory rfl ?_
  rw [htree]
  exact .refl _

/-- A search ends in one of these ways, if the system says that something is there only where
something is. -/
theorem searched_of_runs
    (hhonest : ∀ path perm, ¬ fails (.openFile path .making perm) .entryExists)
    (hrun : Routine.Runs fails (s.routine attempts) m events outcome m') :
    Searched fails s attempts m events outcome m' := by
  induction attempts generalizing m events with
  | zero =>
    obtain ⟨rfl, houtcome, hmachine⟩ := Routine.runs_fail_iff.1 hrun
    exact .exhausted nofun .none houtcome hmachine
  | succ attempts ih =>
    cases tried_of_runs hrun with
    | made hnul hopen hcall => exact .made (Nat.succ_pos _) (made_of_openFile hopen hcall)
    | refused hrefuses =>
      exact .refused (Nat.succ_pos _) ⟨nofun, ⟨[], _, _, rfl, rfl, .none, hrefuses⟩, rfl⟩
    | taken htries hrest =>
      have hexists := (Call.Attempts.outcome htries).perform_eq_error (hhonest _ _)
      have htaken : (m.drew 1).Taken (s.path m 0) := Machine.taken_of_openFile hexists
      exact (ih hrest).after ((Machine.Asked.drew m 1).taken htaken) htries

/-! ## The first free name -/

/-- A search of which some name is free has made a file under the first of them, or it was refused
at that name or before it. -/
theorem Searched.first_unused (h : Searched fails s attempts m events outcome m')
    (hk : k < attempts) (hunused : m.Unused (s.path m k))
    (hfirst : ∀ j < k, ¬ m.Unused (s.path m j)) :
    s.Made fails m k events outcome m' ∨ ∃ j ≤ k, s.Refused fails m j events outcome m' := by
  cases h with
  | @made i _ h =>
    rcases Nat.lt_trichotomy i k with hbefore | rfl | hafter
    · obtain ⟨_, dir, name, -, hplace, hvacant, -⟩ := h.file
      exact absurd ⟨dir, name, hplace, hvacant⟩ (hfirst i hbefore)
    · exact Or.inl h
    · exact absurd (h.taken k hafter) hunused.not_taken
  | @refused j _ h =>
    rcases Nat.lt_or_ge k j with hafter | hbefore
    · exact absurd (h.taken k hafter) hunused.not_taken
    · exact Or.inr ⟨j, hbefore, h⟩
  | exhausted htaken => exact absurd (htaken k hk) hunused.not_taken

/-- Whether nothing hinders a search up to its `k`-th name, under which a file may be made: the
names before are taken, all can be asked for, and the process may open files. -/
structure Unhindered (s : NameSearch) (m : Machine) (k : Nat) : Prop where
  taken : ∀ j < k, m.Taken (s.path m j)
  named : ∀ j ≤ k, (s.path m j).hasNul = false
  mayOpen : m.mayOpen = true
  allowed : ∀ dir name, m.locate (fun _ => false) (s.path m k) = .ok (.entry dir name false) →
    m.mayChangeEntries dir = .ok ()

/-- Where no call fails of its own, but for interruptions, a search that nothing hinders is not
refused. -/
theorem Unhindered.not_refused (h : s.Unhindered m k) (hunused : m.Unused (s.path m k))
    (hfails : ∀ path perm errno, fails (.openFile path .making perm) errno →
      errno = .interrupted) {j : Nat}
    (hj : j ≤ k) : ¬ s.Refused fails m j events outcome m' := by
  intro hrefused
  have hasked := Machine.Asked.drew m (j + 1)
  have hopen : (m.drew (j + 1)).mayOpen = true := h.mayOpen
  obtain ⟨_, _, _, -, -, -, hrefuses⟩ := hrefused.error
  cases hrefuses with
  | nul hnul =>
    rw [h.named j hj] at hnul
    cases hnul
  | system hother hcall =>
    have hrefusal := hcall.outcome.perform_eq_error fun hfailed =>
      hcall.ne_interrupted (congrArg Except.error (hfails _ _ _ hfailed))
    rcases Nat.lt_or_eq_of_le hj with hbefore | rfl
    · have hexists := (hasked.symm.taken (h.taken j hbefore)).openFile_eq hopen s.perm
      exact hother (Except.error.inj (hrefusal.symm.trans hexists))
    · obtain ⟨dir, name, hplace, hvacant⟩ := hunused
      have hroom : m.Room (s.path m j) dir name := ⟨hplace, hvacant, h.allowed dir name hplace⟩
      obtain ⟨made, hmade⟩ : ∃ made, (m.drew (j + 1)).openFile (s.path m j) .making s.perm
          = .ok made := ⟨_, (hroom.of_asked hasked).openFile_eq_ok hopen rfl rfl rfl s.perm⟩
      cases hrefusal.symm.trans hmade

/-- Where one of the names that may be tried is free, a search makes one new empty file, under the
first such name of the sequence, draws no later name, and leaves every other entry as it is; or
making a file is refused for another reason than that something is there, and then this is the
error, at once, and nothing has happened.  Where nothing hinders it, the file is made, however often
signals interrupt the calls.  A name is passed over only if something is there, and where that is so
of all of them, the search says it. -/
theorem search_makes_first_unused
    (hhonest : ∀ path perm, ¬ fails (.openFile path .making perm) .entryExists)
    (hrun : Routine.Runs fails (s.routine attempts) m events outcome m') :
    Searched fails s attempts m events outcome m'
      ∧ ∀ k < attempts, m.Unused (s.path m k) → (∀ j < k, ¬ m.Unused (s.path m j)) →
          (s.Made fails m k events outcome m' ∨ ∃ j ≤ k, s.Refused fails m j events outcome m')
            ∧ ((∀ path perm errno, fails (.openFile path .making perm) errno →
                  errno = .interrupted) →
                s.Unhindered m k → s.Made fails m k events outcome m') := by
  have hsearched := searched_of_runs hhonest hrun
  refine ⟨hsearched, ?_⟩
  intro k hk hunused hfirst
  have hends := hsearched.first_unused hk hunused hfirst
  refine ⟨hends, fun hfails hunhindered => hends.resolve_right ?_⟩
  rintro ⟨j, hj, hrefused⟩
  exact hunhindered.not_refused hunused hfails hj hrefused

/-- The small system with a file `a`, a directory `d`, and a link `l` that leads nowhere, on which
the words are drawn in order. -/
def crowded : Machine :=
  (((Machine.small UInt32.ofNat).create 9 [97] (.file [111]) 0o644).create 9 [100]
    (.directory 9 .empty) 0o755).create 9 [108] (.symlink [120]) 0o777

/-- A search that tries `a` twice, `d` and `l`, and then `n` over and over. -/
def repeating : NameSearch where
  directory := ⟨[46]⟩
  spell word :=
    if word < 2 then [97] else if word = 2 then [100] else if word = 3 then [108] else [110]
  perm := 0o600
  flags := .single .sync

/-- The fifth name is free, and the file is made there. -/
theorem search_makes_first_unused_crowded :
    let after := (repeating.routine 8).run crowded
    repeating.Made (fun _ _ => False) crowded 4 ((repeating.routine 8).outcome.trace crowded)
        after.1 after.2
      ∧ after.2.drawn = 5
      ∧ ∀ name : Name, name ≠ [110] →
          after.2.tree.child? 9 name = crowded.tree.child? 9 name := by
  intro after
  have htaken : ∀ j < 4, crowded.Taken (repeating.path crowded j) := by
    intro j hj
    match j, hj with
    | 0, _ | 1, _ => exact Machine.taken_of_child? 9 [97] rfl rfl
    | 2, _ => exact Machine.taken_of_child? 9 [100] rfl rfl
    | 3, _ => exact Machine.taken_of_child? 9 [108] rfl rfl
  have hplace : crowded.locate (fun _ => false) (repeating.path crowded 4)
      = .ok (.entry 9 [110] false) := rfl
  have hunused : crowded.Unused (repeating.path crowded 4) := ⟨9, [110], hplace, rfl, rfl⟩
  have hunhindered : repeating.Unhindered crowded 4 := by
    refine ⟨htaken, by decide, rfl, ?_⟩
    intro dir name hother
    cases Except.ok.inj (hplace.symm.trans hother)
    rfl
  have hmade := ((search_makes_first_unused (fun _ _ => id)
    (Routine.runs_run (fun _ _ => False) (repeating.routine 8) crowded)).2 4 (by decide) hunused
    fun j hj hfree => hfree.not_taken (htaken j hj)).2 (fun _ _ _ => False.elim) hunhindered
  refine ⟨hmade, congrArg Process.drawn hmade.process, ?_⟩
  intro name hname
  obtain ⟨_, dir, made, -, hlocated, -, hreplaced, -⟩ := hmade.file
  cases Except.ok.inj (hplace.symm.trans hlocated)
  exact hreplaced.entries 9 name fun hsame => hname hsame.2

end PortableFiles.Writing.NameSearch
