import PortableFiles.Proofs.Kernel.Crowd
import PortableFiles.Proofs.Writing.DraftSteps
set_option autoImplicit false

/-!
# Atomic writes at once

Any number of atomic writes work on one file system, and any of them may make the next call.
`AtomicWrite.Contest` is what holds at every moment: each draft is where its writer has made it,
every other name leads where it led at the start or to the file that was last published at it, and
each call is one to a file that the same writer has made.  Every step upholds it
(`AtomicWrite.Contest.step`), since a step changes one file alone and the names of different drafts
are different as long as they are taken.
-/

namespace PortableFiles

variable {ι π : Type}

namespace Crowd

/-- Whether a program has made a file. -/
def Made (events : List (ι × Event)) (i : ι) (id : InodeId) : Prop :=
  ∃ e, (i, e) ∈ events ∧ e.Makes id

variable {events : List (ι × Event)} {i j : ι} {e : Event} {id : InodeId}

theorem Made.append (h : Made events i id) (more : List (ι × Event)) :
    Made (events ++ more) i id := by
  obtain ⟨e, he, hmakes⟩ := h
  exact ⟨e, List.mem_append_left _ he, hmakes⟩

theorem Made.of_snoc (h : Made (events ++ [(j, e)]) i id) :
    Made events i id ∨ (i = j ∧ e.Makes id) := by
  obtain ⟨e', he, hmakes⟩ := h
  rcases List.mem_append.1 he with he | he
  · exact Or.inl ⟨e', he, hmakes⟩
  · cases List.mem_singleton.1 he
    exact Or.inr ⟨rfl, hmakes⟩

variable [DecidableEq ι]

/-- The events of one program. -/
def own (i : ι) (events : List (ι × Event)) : List Event :=
  (events.filter fun e => e.1 = i).map (·.2)

theorem own_snoc (i : ι) (events : List (ι × Event)) (e : Event) :
    own i (events ++ [(i, e)]) = own i events ++ [e] := by
  simp [own]

theorem own_snoc_of_ne (h : j ≠ i) (events : List (ι × Event)) (e : Event) :
    own i (events ++ [(j, e)]) = own i events := by
  simp [own, h]

end Crowd

namespace AtomicWrite

open Crowd (own Made)

section Definitions

variable (w : ι → AtomicWrite) (c₀ : Crowd ι π (Except Error Unit))

/-- Whether the path of one of the writes leads to a name. -/
def IsDestination (dir : InodeId) (name : Name) : Prop :=
  ∃ i slash, (c₀.view i).locate (fun _ => false) (w i).path = .ok (.entry dir name slash)

/-- Whether no write ever draws the name of a destination, if it is missing at the start. -/
def NoneDraws : Prop :=
  ∀ i k dir name, IsDestination w c₀ dir name → c₀.machine.tree.child? dir name = none →
    (c₀.view i).tempName k ≠ name

variable [DecidableEq ι]

/-- What a name leads to while the writes are at work: where nothing has been published, to what it
did at the start, and otherwise to the file that was published last.  This was made by the write
that has published it, whose reader has come to its end, and it is what this write should leave,
whatever the others do. -/
inductive Holds (events : List (ι × Event)) (t : Tree) (dir : InodeId) (name : Name) : Prop where
  | initial (hnone : ∀ e ∈ events, ¬ e.2.PublishesAt dir name)
      (hsame : t.child? dir name = c₀.machine.tree.child? dir name)
  | published {before after : List (ι × Event)} {i : ι} {e : Event} {id : InodeId} {node : Inode}
      (hevents : events = before ++ (i, e) :: after) (hpublishes : e.PublishesAt dir name)
      (hlast : ∀ e ∈ after, ¬ e.2.PublishesAt dir name) (hmade : Made before i id)
      (hentry : t.child? dir name = some id) (hnode : t.inode? id = some node)
      (hends : (w i).reader.Ends)
      (hleaves : (w i).Leaves (c₀.view i) (Event.foundPerm (w i).path (own i before)) node)

/-- What holds at every moment of a run in which the writes are in the phases `s`. -/
structure Contest (s : ι → Phase) (events : List (ι × Event)) (m : Machine) : Prop where
  tree : c₀.machine.tree.Overlaid m.tree
  drafts : ∀ i, (s i).In (c₀.view i) m
  /-- Each write has seen of the permissions of its destination what it goes by. -/
  found : ∀ i, s i ≠ .settled → Event.foundPerm (w i).path (own i events) = (s i).found
  makes : ∀ i d, s i = .drafting d → Made events i d.id
  made : ∀ i id, Made events i id → (m.tree.inode? id).isSome = true
  /-- Each file was made by one write. -/
  sole : ∀ i j id, Made events i id → Made events j id → i = j
  touches : ∀ i e id, (i, e) ∈ events → e.Touches id → Made events i id
  publishes : ∀ i e dir name, (i, e) ∈ events → e.PublishesAt dir name →
    IsDestination w c₀ dir name
  names : ∀ dir name, Holds w c₀ events m.tree dir name
    ∨ ∃ i d, s i = .drafting d ∧ dir = d.dir ∧ name = d.name

end Definitions

variable [DecidableEq ι] {w : ι → AtomicWrite} {c₀ : Crowd ι π (Except Error Unit)}
  {s : ι → Phase} {events : List (ι × Event)} {m m' : Machine} {i j : ι} {e : Event} {s' : Phase}
  {d : Draft} {dir id : InodeId} {name : Name}

theorem Holds.snoc (h : Holds w c₀ events e.before.tree dir name)
    (hpublishes : ¬ e.PublishesAt dir name)
    (hentry : e.after.tree.child? dir name = e.before.tree.child? dir name)
    (hkept : ∀ id node, e.before.tree.child? dir name = some id →
      e.before.tree.inode? id = some node → (∃ e ∈ events, e.2.PublishesAt dir name) →
      node.content.isDirectory = false → e.after.tree.inode? id = some node) :
    Holds w c₀ (events ++ [(i, e)]) e.after.tree dir name := by
  cases h with
  | initial hnone hsame =>
    exact .initial (List.forall_mem_append.2 ⟨hnone, List.forall_mem_singleton.2 hpublishes⟩)
      (hentry.trans hsame)
  | @published before after i' e' id node hevents hat hlast hmade hid hnode hends hleaves =>
    have hsnoc : events ++ [(i, e)] = before ++ (i', e') :: (after ++ [(i, e)]) := by
      rw [hevents, List.append_assoc, List.cons_append]
    have hplain : node.content.isDirectory = false := by
      rw [hleaves.content]
      rfl
    have hmem : (i', e') ∈ events := by
      rw [hevents]
      exact List.mem_append_right _ List.mem_cons_self
    exact .published hsnoc hat
      (List.forall_mem_append.2 ⟨hlast, List.forall_mem_singleton.2 hpublishes⟩) hmade
      (hentry.trans hid) (hkept id node hid hnode ⟨_, hmem, hat⟩ hplain) hends hleaves

namespace Contest

/-- At the start nothing has happened. -/
theorem start (w : ι → AtomicWrite) (c₀ : Crowd ι π (Except Error Unit)) :
    Contest w c₀ (fun _ => .unmade) [] c₀.machine where
  tree := .refl _
  drafts _ := trivial
  found _ _ := rfl
  makes _ _ hd := by cases hd
  made := by rintro i id ⟨e, he, -⟩; cases he
  sole := by rintro i j id ⟨e, he, -⟩; cases he
  touches i e id he := by cases he
  publishes i e dir name he := by cases he
  names dir name := Or.inl (.initial (List.forall_mem_nil _) rfl)

theorem of_eq (h : Contest w c₀ s events m) (htree : m'.tree = m.tree)
    (hfiles : m'.files = m.files) : Contest w c₀ s events m' where
  tree := by
    rw [htree]
    exact h.tree
  drafts i := (h.drafts i).of_eq htree hfiles
  found := h.found
  makes := h.makes
  made := by
    rw [htree]
    exact h.made
  sole := h.sole
  touches := h.touches
  publishes := h.publishes
  names := by
    rw [htree]
    exact h.names

theorem draft_in (h : Contest w c₀ s events m) (hd : s i = .drafting d) :
    d.In (c₀.view i) m := by
  have hin := h.drafts i
  rw [hd] at hin
  exact hin

/-- A draft is at no destination. -/
theorem apart (h : Contest w c₀ s events m) (hdraws : NoneDraws w c₀)
    (hd : s i = .drafting d) : ¬ IsDestination w c₀ d.dir d.name := by
  intro hdestination
  obtain ⟨k, hdrawn⟩ := (h.draft_in hd).placed.drawn
  exact hdraws i k _ _ hdestination (h.draft_in hd).placed.free hdrawn.symm

/-- Different writes have different drafts. -/
theorem id_ne (h : Contest w c₀ s events m) {d' : Draft} (hd : s i = .drafting d)
    (hd' : s j = .drafting d') (hij : i ≠ j) : d.id ≠ d'.id := by
  intro hid
  have hmade := h.makes i d hd
  rw [hid] at hmade
  exact hij (h.sole i j _ hmade (h.makes j d' hd'))

omit [DecidableEq ι] in
theorem isDestination_of_step (hstep : (s i).Step (w i) (c₀.view i) e s')
    (hpublishes : e.PublishesAt dir name) : IsDestination w c₀ dir name :=
  ⟨i, false, hstep.locate_of_publishesAt hpublishes⟩

/-! ## One step -/

section Step

variable (h : Contest w c₀ s events e.before) (hdraws : NoneDraws w c₀)
  (hstep : (s i).Step (w i) (c₀.view i) e s')

include h hdraws hstep

/-- A step of one write leaves the drafts of the others where they are. -/
theorem other_draft (hij : j ≠ i) (hd : s j = .drafting d) : d.In (c₀.view j) e.after := by
  have hin := h.draft_in hd
  rcases hstep.change with hsame | ⟨d', P, hchange, hown, hplaces⟩
  · rwa [hsame]
  have hid : d.id ≠ d'.id := by
    rcases hown with hd' | ⟨-, hnew, -⟩
    · exact h.id_ne hd hd' hij
    · intro hid
      rw [← hid, hin.inode] at hnew
      cases hnew
  refine hin.of_changesOnly hchange hid ?_
  intro hP
  rcases hplaces _ _ hP with ⟨hdir, hname⟩ | ⟨hpublishes, -⟩
  · have hentry := hin.entry
    rw [hdir, hname] at hentry
    rcases hown with hd' | ⟨-, -, hfree⟩
    · rw [(h.draft_in hd').entry] at hentry
      exact hid (Option.some.inj hentry).symm
    · rw [hfree] at hentry
      cases hentry
  · exact h.apart hdraws hd (isDestination_of_step hstep hpublishes)

/-- A step leaves the files that have been published as they are. -/
theorem published_kept {node : Inode} (hdestination : IsDestination w c₀ dir name)
    (hentry : e.before.tree.child? dir name = some id) (hnode : e.before.tree.inode? id = some node)
    (hplain : node.content.isDirectory = false) : e.after.tree.inode? id = some node := by
  rcases hstep.change with hsame | ⟨d, P, hchange, hown, -⟩
  · rwa [hsame]
  refine hchange.tree.inode?_eq ?_ hnode hplain
  rintro rfl
  rcases hown with hd | ⟨-, hnew, -⟩
  · obtain ⟨rfl, rfl⟩ := (h.draft_in hd).only dir name hentry
    exact h.apart hdraws hd hdestination
  · rw [hnew] at hnode
    cases hnode

omit hdraws in
theorem tree_step : c₀.machine.tree.Overlaid e.after.tree := by
  rcases hstep.change with hsame | ⟨d, P, hchange, hown, hplaces⟩
  · rw [hsame]
    exact h.tree
  refine h.tree.of_changesOnly hchange.tree ?_ ?_
  · rcases hown with hd | ⟨-, hnew, -⟩
    · exact (h.draft_in hd).placed.fresh
    · exact h.tree.inode?_eq_none hnew
  · intro dir name hP hfree
    rcases hplaces dir name hP with ⟨rfl, rfl⟩ | ⟨-, hentry⟩
    · rcases hown with hd | ⟨-, -, hfree⟩
      · exact (h.draft_in hd).placed.free
      · exact h.tree.child?_eq_none hfree
    · rw [hentry] at hfree
      cases hfree

omit hdraws in
theorem found_step (j : ι) (hsettled : Function.update s i s' j ≠ .settled) :
    Event.foundPerm (w j).path (own j (events ++ [(i, e)]))
      = (Function.update s i s' j).found := by
  by_cases hij : j = i
  · subst hij
    rw [Function.update_self] at hsettled ⊢
    obtain ⟨hnotOver, hfound⟩ := hstep.found_eq hsettled
    rw [Crowd.own_snoc, Event.foundPerm_append, h.found j hnotOver, hfound]
    simp [Event.foundPerm]
  · rw [Function.update_of_ne hij] at hsettled ⊢
    rw [Crowd.own_snoc_of_ne fun h => hij h.symm]
    exact h.found j hsettled

omit hdraws in
theorem makes_step (j : ι) (d : Draft) (hd : Function.update s i s' j = .drafting d) :
    Made (events ++ [(i, e)]) j d.id := by
  by_cases hij : j = i
  · subst hij
    rw [Function.update_self] at hd
    subst hd
    rcases hstep.draft_eq with ⟨d', hd', hid⟩ | hmakes
    · rw [← hid]
      exact (h.makes j d' hd').append _
    · exact ⟨e, List.mem_append_right _ List.mem_cons_self, hmakes⟩
  · rw [Function.update_of_ne hij] at hd
    exact (h.makes j d hd).append _

omit hdraws hstep in
/-- What is made was not there before, and so nobody has made it. -/
theorem sole_step (j k : ι) (id : InodeId) (hj : Made (events ++ [(i, e)]) j id)
    (hk : Made (events ++ [(i, e)]) k id) : j = k := by
  have hnew : ∀ j, Made events j id → ¬ e.Makes id := by
    intro j hj hmakes
    have hsome := h.made j id hj
    rw [hmakes.1] at hsome
    cases hsome
  rcases hj.of_snoc with hj | ⟨rfl, hmakes⟩
  · rcases hk.of_snoc with hk | ⟨-, hmakes⟩
    · exact h.sole j k id hj hk
    · exact absurd hmakes (hnew j hj)
  · rcases hk.of_snoc with hk | ⟨rfl, -⟩
    · exact absurd hmakes (hnew k hk)
    · rfl

/-- A name that a step does not concern leads where it led. -/
theorem names_of_entry_eq (dir : InodeId) (name : Name) (hpublishes : ¬ e.PublishesAt dir name)
    (hentry : e.after.tree.child? dir name = e.before.tree.child? dir name)
    (hdraft : ∀ d, s i = .drafting d → dir = d.dir ∧ name = d.name →
      ∃ d', s' = .drafting d' ∧ dir = d'.dir ∧ name = d'.name) :
    Holds w c₀ (events ++ [(i, e)]) e.after.tree dir name
      ∨ ∃ j d, Function.update s i s' j = .drafting d ∧ dir = d.dir ∧ name = d.name := by
  rcases h.names dir name with hholds | ⟨j, d, hd, hplace⟩
  · refine Or.inl (hholds.snoc hpublishes hentry ?_)
    rintro id node hid hnode ⟨⟨j, e'⟩, he', hat⟩ hplain
    exact h.published_kept hdraws hstep (h.publishes j e' dir name he' hat) hid hnode hplain
  · by_cases hij : j = i
    · subst hij
      obtain ⟨d', rfl, hplace'⟩ := hdraft d hd hplace
      exact Or.inr ⟨j, d', Function.update_self .., hplace'⟩
    · refine Or.inr ⟨j, d, ?_, hplace⟩
      rwa [Function.update_of_ne hij]

/-- The name that a draft has left leads to nothing, as it did at the start. -/
theorem holds_left (hd : s i = .drafting d) (hleft : e.after.tree.child? d.dir d.name = none) :
    Holds w c₀ (events ++ [(i, e)]) e.after.tree d.dir d.name := by
  have hapart := h.apart hdraws hd
  have hbefore : ∀ e ∈ events, ¬ e.2.PublishesAt d.dir d.name :=
    fun e he hpublishes => hapart (h.publishes e.1 e.2 _ _ he hpublishes)
  have hstepped : ¬ e.PublishesAt d.dir d.name :=
    fun hpublishes => hapart (isDestination_of_step hstep hpublishes)
  exact .initial (List.forall_mem_append.2 ⟨hbefore, List.forall_mem_singleton.2 hstepped⟩)
    (hleft.trans (h.draft_in hd).placed.free.symm)

/-- After a step each name leads to a draft or to what it should. -/
theorem names_step (dir : InodeId) (name : Name) :
    Holds w c₀ (events ++ [(i, e)]) e.after.tree dir name
      ∨ ∃ j d, Function.update s i s' j = .drafting d ∧ dir = d.dir ∧ name = d.name := by
  have hother := h.names_of_entry_eq hdraws hstep dir name
  have hleaving := fun d => h.holds_left hdraws hstep (d := d)
  generalize hphase : s i = phase at hstep
  cases hstep with
  | idle hsame hpublishes _ _ =>
    refine hother (hpublishes dir name) (by rw [hsame]) fun d hd => ?_
    rw [hphase] at hd
    cases hd
  | @made _ d _ _ hchange hpublishes _ _ =>
    by_cases hplace : dir = d.dir ∧ name = d.name
    · exact Or.inr ⟨i, d, Function.update_self .., hplace⟩
    · refine hother (hpublishes dir name) (hchange.tree.entries _ _ hplace) fun d hd => ?_
      rw [hphase] at hd
      cases hd
  | changed hchange hpublishes _ =>
    refine hother (hpublishes dir name) (hchange.tree.entries _ _ not_false) fun d hd hplace => ?_
    rw [hphase] at hd
    cases hd
    exact ⟨_, rfl, hplace⟩
  | @published _ d goalDir goalName _ hpublishes hchange hleft hentry hinode hends hleaves _ =>
    by_cases hgoal : dir = goalDir ∧ name = goalName
    · obtain ⟨rfl, rfl⟩ := hgoal
      have hfound : Event.foundPerm (w i).path (own i events) = d.found := by
        have hfound := h.found i (by simp [hphase])
        rw [hphase] at hfound
        exact hfound
      rw [← hfound] at hleaves
      exact Or.inl (.published rfl ((hpublishes _ _).2 ⟨rfl, rfl⟩) (List.forall_mem_nil _)
        (h.makes i d hphase) hentry hinode hends hleaves)
    · by_cases hplace : dir = d.dir ∧ name = d.name
      · obtain ⟨rfl, rfl⟩ := hplace
        exact Or.inl (hleaving d hphase hleft)
      · refine hother (fun hat => hgoal ((hpublishes _ _).1 hat))
          (hchange.tree.entries _ _ (not_or.2 ⟨hplace, hgoal⟩)) fun d' hd' hplace' => ?_
        rw [hphase] at hd'
        cases hd'
        exact absurd hplace' hplace
  | @removed _ d hchange hleft hpublishes _ =>
    by_cases hplace : dir = d.dir ∧ name = d.name
    · obtain ⟨rfl, rfl⟩ := hplace
      exact Or.inl (hleaving d hphase hleft)
    · refine hother (hpublishes dir name) (hchange.tree.entries _ _ hplace)
        fun d' hd' hplace' => ?_
      rw [hphase] at hd'
      cases hd'
      exact absurd hplace' hplace

/-- What holds before a step holds after it. -/
theorem step (hin : s'.In (c₀.view i) e.after) :
    Contest w c₀ (Function.update s i s') (events ++ [(i, e)]) e.after where
  tree := h.tree_step hstep
  drafts j := by
    by_cases hij : j = i
    · subst hij
      rwa [Function.update_self]
    · rw [Function.update_of_ne hij]
      cases hd : s j with
      | drafting d => exact h.other_draft hdraws hstep hij hd
      | _ => trivial
  found := h.found_step hstep
  makes := h.makes_step hstep
  made j id hmade := by
    rcases hmade.of_snoc with hmade | ⟨-, hmakes⟩
    · exact hstep.isSome_inode? (h.made j id hmade)
    · exact hmakes.2
  sole := h.sole_step
  touches j e' id he' htouches := by
    rcases List.mem_append.1 he' with he' | he'
    · exact (h.touches j e' id he' htouches).append _
    · cases List.mem_singleton.1 he'
      obtain ⟨d, hd, rfl⟩ := hstep.eq_of_touches htouches
      exact (h.makes i d hd).append _
  publishes j e' dir name he' hpublishes := by
    rcases List.mem_append.1 he' with he' | he'
    · exact h.publishes j e' dir name he' hpublishes
    · cases List.mem_singleton.1 he'
      exact isDestination_of_step hstep hpublishes
  names := h.names_step hdraws hstep

end Step

end Contest

end AtomicWrite

end PortableFiles
