import PortableFiles.Proofs.Writing.Beside
set_option autoImplicit false

/-!
# Atomic writes call by call

A run makes at most one renaming.  Up to it the destination is what it was; when the renaming is
issued the new file is complete and on the device; from then on the destination is the new file,
or what it was if the renaming is refused (`AtomicWrite.publication`).
-/

namespace PortableFiles

variable {fails : Call → Errno → Prop} {m m' : Machine} {events : List Event}

/-! ## Events -/

namespace Event

/-- Whether a call moves an entry. -/
def Renames (e : Event) : Prop := ∃ source destination, e.call = .rename source destination

/-- The permissions that a look at a path, links followed, has shown. -/
def foundPerm? (path : Path) : Event → Option UInt32
  | ⟨.stat at' true, .ok stat, _, _⟩ => if at' = path then some (stat.perm &&& permMask) else none
  | _ => none

theorem foundPerm?_eq_none {e : Event} {path : Path} (h : e.call ≠ .stat path true) :
    e.foundPerm? path = none := by
  unfold foundPerm?
  split
  · rw [if_neg]
    rintro rfl
    exact h rfl
  · rfl

/-- The permissions that the first look at a path in a run has shown. -/
def foundPerm (path : Path) (events : List Event) : Option UInt32 :=
  events.findSome? (foundPerm? path)

end Event

namespace AtomicWrite

/-! ## What is seen of the destination -/

/-- Whether the destination is what it was: absent, or the same inode with the same content and
permissions. -/
def Keeps (w : AtomicWrite) (m m' : Machine) : Prop :=
  ∀ dir name slash, m.locate (fun _ => false) w.path = .ok (.entry dir name slash) →
    m'.tree.held dir name = m.tree.held dir name

/-- Whether the destination is the finished file, on an inode that is new. -/
def Shows (w : AtomicWrite) (m : Machine) (found : Option UInt32) (m' : Machine) : Prop :=
  ∃ dir name slash node, m.locate (fun _ => false) w.path = .ok (.entry dir name slash)
    ∧ m'.tree.held dir name = some (m.tree.nextId, some node) ∧ w.Leaves m found node

/-- What has been done when the renaming is issued. -/
structure Ready (w : AtomicWrite) (m : Machine) (before : List Event) (temp : Path)
    (ready : Machine) : Prop where
  /-- The file that is brought to the device is the new one, with every byte in it.  It is closed
  then, where a signal that comes meanwhile counts for nothing, and nothing is written any more. -/
  durable : ∃ file reply first rest written between closed,
    before = first ++ ⟨.sync file, .ok (), written, written⟩ :: rest
      ∧ (written.file? file).map (·.inode) = some m.tree.nextId
      ∧ written.tree.content? m.tree.nextId = some (.file w.reader.delivered)
      ∧ ⟨.close file, reply, between, closed⟩ ∈ rest
      ∧ (reply = .ok () ∨ reply = .error .interrupted)
      ∧ ∀ e ∈ rest, ∀ f, ¬ e.Writes f
  /-- The path to move leads to it, and it has its permissions. -/
  complete : ∃ node, ready.resolve (fun _ => false) temp = .ok m.tree.nextId
    ∧ ready.tree.inode? m.tree.nextId = some node ∧ w.Leaves m (Event.foundPerm w.path before) node

/-- The runs in which the destination changes at most once, with a renaming that comes when
everything else is done. -/
inductive Publication (w : AtomicWrite) (m : Machine) : List Event → Prop where
  /-- No renaming is issued. -/
  | withheld {events : List Event} (hevents : ∀ e ∈ events, ¬ e.Renames ∧ w.Keeps m e.after) :
      Publication w m events
  | refused {before after : List Event} {temp : Path} {errno : Errno} {ready : Machine}
      (hbefore : ∀ e ∈ before, ¬ e.Renames ∧ w.Keeps m e.after)
      (hready : w.Ready m before temp ready) (hkeeps : w.Keeps m ready)
      (hafter : ∀ e ∈ after, ¬ e.Renames ∧ w.Keeps m e.after) :
      Publication w m (before ++ ⟨.rename temp w.path, .error errno, ready, ready⟩ :: after)
  | published {before after : List Event} {temp : Path} {ready renamed : Machine}
      (hbefore : ∀ e ∈ before, ¬ e.Renames ∧ w.Keeps m e.after)
      (hready : w.Ready m before temp ready)
      (hshows : w.Shows m (Event.foundPerm w.path before) renamed)
      (hafter : ∀ e ∈ after, ¬ e.Renames
        ∧ w.Shows m (Event.foundPerm w.path before) e.after) :
      Publication w m (before ++ ⟨.rename temp w.path, .ok (), ready, renamed⟩ :: after)

end AtomicWrite

/-! ## Looks in a run -/

namespace Event

theorem foundPerm_append (path : Path) (events events' : List Event) :
    foundPerm path (events ++ events') = (foundPerm path events).or (foundPerm path events') :=
  List.findSome?_append

theorem foundPerm_eq_none {path : Path} (h : ∀ e ∈ events, e.call ≠ .stat path true) :
    foundPerm path events = none :=
  List.findSome?_eq_none_iff.2 fun e he => foundPerm?_eq_none (h e he)

end Event

namespace Writing

variable {path : Path} {reader : Reader} {options : Options} {s : Stage} {opening : List Event}
  {made ready : Machine}

theorem Looked.foundPerm_eq {looked : List Event} {kept : Option UInt32}
    (h : Looked fails path options m looked kept) : Event.foundPerm path looked = kept := by
  cases h with
  | spared _ => rfl
  | found _ _ => simp [Event.foundPerm, Event.foundPerm?]
  | missing _ _ => rfl

/-- What a run has shown of permissions when the file is ready is what is kept of them. -/
theorem Preparation.foundPerm_eq (p : Preparation fails m path reader options s ready)
    (hbegun : Begun m path options s opening made) :
    Event.foundPerm path (opening ++ p.steps) = p.kept := by
  have hopening : Event.foundPerm path opening = none := by
    refine Event.foundPerm_eq_none ?_
    intro e he h
    obtain ⟨⟨_, _, _, hcall⟩, -⟩ := hbegun.opens e he
    rw [hcall] at h
    cases h
  have hwrites : Event.foundPerm path p.writes = none := by
    refine Event.foundPerm_eq_none ?_
    intro e he h
    obtain ⟨_, hcall⟩ := p.appends e he
    rw [hcall] at h
    cases h
  have hadjusting : Event.foundPerm path p.adjusting = none := by
    refine Event.foundPerm_eq_none ?_
    intro e he h
    obtain ⟨_, hcall⟩ := p.adjusts e he
    rw [hcall] at h
    cases h
  have hrest : Event.foundPerm path (p.looked ++ p.adjusting) = p.kept := by
    rw [Event.foundPerm_append, hadjusting, Option.or_none, p.look.foundPerm_eq]
  rw [Event.foundPerm_append, hopening, Preparation.steps, Event.foundPerm_append, hwrites]
  exact hrest

/-- After the file is brought to the device, nothing is written. -/
theorem Preparation.not_writes (p : Preparation fails m path reader options s ready) :
    ∀ e ∈ p.looked ++ p.adjusting, ∀ f, ¬ e.Writes f := by
  rintro e he f ⟨part, hcall⟩
  rcases List.mem_append.1 he with he | he
  · have hlook := p.look
    revert he hlook
    generalize p.looked = looked
    generalize p.kept = kept
    intro he hlook
    cases hlook with
    | spared _ => cases he
    | found _ _ =>
      rw [List.mem_singleton.1 he] at hcall
      cases hcall
    | missing _ _ =>
      rw [List.mem_singleton.1 he] at hcall
      cases hcall
  · obtain ⟨_, hadjust⟩ := p.adjusts e he
    rw [hadjust] at hcall
    cases hcall

end Writing

/-! ## Courses as publications -/

namespace AtomicWrite

variable {w : AtomicWrite} {s : Stage} {opening : List Event} {made ready : Machine}

open Writing

theorem Keeps.of_unchanged {now : Machine} (h : m.tree.Unchanged now.tree) (hm : m.WellFormed) :
    w.Keeps m now := by
  intro dir name slash _
  rw [h.held hm.tree]

/-- Whether a new file has a place apart from that of the destination. -/
def IsApart (w : AtomicWrite) (m : Machine) (s : Stage) : Prop :=
  ∀ slash, m.locate (fun _ => false) w.path ≠ .ok (.entry s.dir s.name slash)

/-- While the new file is prepared, the destination is what it was. -/
theorem Keeps.of_holds {now : Machine} (hbegun : Begun m w.path w.effective s opening made)
    (hm : m.WellFormed) (hapart : w.IsApart m s) (h : s.Holds now) : w.Keeps m now := by
  intro dir name slash hplace
  obtain ⟨data, perm, hat⟩ := h
  obtain rfl := hbegun.dir_eq hplace
  have hname : name ≠ s.name := by
    rintro rfl
    exact hapart slash hplace
  exact (hbegun.replaced_of_at hat).held_of_ne hm.tree hname

/-- When the file is ready, everything is done. -/
theorem Ready.of_preparation (p : Preparation fails m w.path w.reader w.effective s ready)
    (hbegun : Begun m w.path w.effective s opening made) :
    w.Ready m (opening ++ p.steps) s.path ready where
  durable := by
    obtain ⟨perm, hwritten⟩ := p.full
    obtain ⟨file, hfile⟩ := Option.isSome_iff_exists.1 p.isOpen
    have hid : s.id = m.tree.nextId := by rw [Stage.id, hbegun.asked.tree]
    refine ⟨s.file, p.closed, opening ++ p.writes,
      ⟨.statOpen s.file, .ok p.stat, p.written, p.written⟩
        :: ⟨.close s.file, p.closed, p.written, p.checked⟩ :: (p.looked ++ p.adjusting),
      p.written, p.written, p.checked, ?_, ?_, ?_,
      List.mem_cons_of_mem _ List.mem_cons_self, p.closes, ?_⟩
    · rw [Preparation.steps, List.append_assoc]
    · rw [hfile, hwritten.file file hfile, ← hid]
      rfl
    · rw [← hid]
      exact hwritten.content?
    · intro e he f hwrites
      rcases List.mem_cons.1 he with rfl | he
      · obtain ⟨_, h⟩ := hwrites
        cases h
      rcases List.mem_cons.1 he with rfl | he
      · obtain ⟨_, h⟩ := hwrites
        cases h
      exact p.not_writes e he f hwrites
  complete := by
    have hid : s.id = m.tree.nextId := by rw [Stage.id, hbegun.asked.tree]
    refine ⟨_, ?_, ?_, p.foundPerm_eq hbegun ▸ p.leaves hbegun⟩
    · rw [← hid]
      exact p.atEnd.resolve_path _
    · rw [← hid]
      exact p.atEnd.inode?

/-- Before the renaming nothing is renamed and the destination is what it was. -/
theorem keeps_before {working : List Event} (hm : m.WellFormed) (hapart : w.IsApart m s)
    (hbegun : Begun m w.path w.effective s opening made)
    (hworking : ∀ e ∈ working, s.Concerns e.call ∧ s.Holds e.before ∧ s.Holds e.after) :
    ∀ e ∈ opening ++ working, ¬ e.Renames ∧ w.Keeps m e.after := by
  intro e he
  rcases List.mem_append.1 he with he | he
  · obtain ⟨⟨_, _, _, hcall⟩, hafter⟩ := hbegun.opens e he
    refine ⟨?_, ?_⟩
    · rintro ⟨_, _, hrename⟩
      rw [hcall] at hrename
      cases hrename
    · rcases hafter with htree | rfl
      · exact .of_unchanged (.of_same (htree ▸ .refl _)) hm
      · exact .of_holds hbegun hm hapart ⟨_, _, hbegun.empty⟩
  · obtain ⟨hconcerns, -, hafter⟩ := hworking e he
    refine ⟨?_, .of_holds hbegun hm hapart hafter⟩
    rintro ⟨_, _, hrename⟩
    rw [hrename] at hconcerns
    cases hconcerns

/-- Whether or not the new file can be removed, the destination is what it was. -/
theorem keeps_removal {between : Machine} {reply : Except Errno Unit} (hm : m.WellFormed)
    (hapart : w.IsApart m s) (hbegun : Begun m w.path w.effective s opening made)
    (hbetween : s.Holds between)
    (hremoval : (Call.unlink s.path).Outcome fails between reply m') :
    ∀ e ∈ [(⟨.unlink s.path, reply, between, m'⟩ : Event)], ¬ e.Renames ∧ w.Keeps m e.after := by
  intro e he
  obtain rfl := List.mem_singleton.1 he
  refine ⟨?_, ?_⟩
  · rintro ⟨_, _, hrename⟩
    cases hrename
  · cases reply with
    | ok _ => exact .of_unchanged (hbegun.unchanged_of_unlink hbetween hremoval) hm
    | error errno =>
      obtain rfl := hremoval.eq_of_error
      exact .of_holds hbegun hm hapart hbetween

/-- After every write of a course the new file is there, since the last calls do not write. -/
theorem holds_of_writes {working last : List Event}
    (hworking : ∀ e ∈ working, s.Concerns e.call ∧ s.Holds e.before ∧ s.Holds e.after)
    (hlast : ∀ e ∈ last, ∀ file, ¬ e.Writes file) :
    ∀ e ∈ working ++ last, (∃ file, e.Writes file) → s.Holds e.after := by
  rintro e he ⟨file, hwrites⟩
  rcases List.mem_append.1 he with he | he
  · exact (hworking e he).2.2
  · exact absurd hwrites (hlast e he file)

/-- A course leaves the tree as it is at every moment, or it makes a new file, which holds whatever
is written.  In the second case, too, it is a publication if the new file is apart. -/
theorem publication_of_course {outcome : Except Error Unit} (hm : m.WellFormed)
    (hcourse : Course fails m w.path w.reader w.effective events outcome m') :
    ((∀ e ∈ events, e.after.tree = m.tree) ∧ w.Publication m events)
      ∨ ∃ s opening made rest, Begun m w.path w.effective s opening made
          ∧ events = opening ++ rest
          ∧ (∀ e ∈ rest, (∃ file, e.Writes file) → s.Holds e.after)
          ∧ (w.IsApart m s → w.Publication m events) := by
  cases hcourse with
  | unmade htree hevents =>
    refine Or.inl ⟨fun e he => (hevents e he).2, .withheld ?_⟩
    intro e he
    obtain ⟨⟨_, _, _, hcall⟩, hafter⟩ := hevents e he
    refine ⟨?_, .of_unchanged (.of_same (hafter ▸ .refl _)) hm⟩
    rintro ⟨_, _, hrename⟩
    rw [hcall] at hrename
    cases hrename
  | abandoned hbegun hworking hbetween hremoval =>
    refine Or.inr ⟨_, _, _, _, hbegun, rfl, holds_of_writes hworking ?_, fun hapart =>
      .withheld fun e he => ?_⟩
    · simp [Event.Writes]
    · rw [← List.append_assoc] at he
      rcases List.mem_append.1 he with he | he
      · exact keeps_before hm hapart hbegun hworking e he
      · exact keeps_removal hm hapart hbegun hbetween hremoval e he
  | refused hbegun p hworking hrename hremoval =>
    refine Or.inr ⟨_, _, _, _, hbegun, rfl, holds_of_writes hworking ?_, fun hapart => ?_⟩
    · simp [Event.Writes]
    · rw [← List.append_assoc]
      exact .refused (keeps_before hm hapart hbegun hworking) (.of_preparation p hbegun)
        (.of_holds hbegun hm hapart ⟨_, _, p.atEnd⟩)
        (keeps_removal hm hapart hbegun ⟨_, _, p.atEnd⟩ hremoval)
  | published hbegun p hworking hrename =>
    refine Or.inr ⟨_, _, _, _, hbegun, rfl, holds_of_writes hworking ?_, fun hapart => ?_⟩
    · simp [Event.Writes]
    · obtain ⟨dir, name, hplace, hreplaced⟩ := hbegun.replaced hm p.atEnd hrename
      rw [← List.append_assoc]
      refine .published (keeps_before hm hapart hbegun hworking) (.of_preparation p hbegun)
        ⟨dir, name, false, _, hplace, hreplaced.held, ?_⟩ fun e he => by cases he
      rw [p.foundPerm_eq hbegun]
      exact p.leaves hbegun

/-- At every moment of an atomic write, whatever fails and wherever it ends, the destination is
what it was or the finished file.  It changes at most once, with a renaming that is issued only
when all bytes are written and on the device, the file is closed and its permissions are set. -/
theorem publication {outcome : Except Error Unit} (hm : m.WellFormed) (hquiet : w.reader.IsQuiet)
    (hdraws : m.NeverDraws (fun _ => false) w.path)
    (hrun : Routine.Runs fails w.routine m events outcome m') : w.Publication m events := by
  rw [routine_eq] at hrun
  rcases publication_of_course hm (course_of_runs hquiet hrun) with
    ⟨-, hpublication⟩ | ⟨s, opening, made, rest, hbegun, -, -, hpublication⟩
  · exact hpublication
  · exact hpublication (hbegun.locate_ne hdraws)

/-- A write of two bytes to a missing file, with permissions. -/
def greeting : AtomicWrite :=
  .ofBytes ⟨[97]⟩ [104, 105] (Options.plain.withFileMode 0o644) none

/-- On the small system this write is a publication, and there is a renaming in it. -/
theorem publication_greeting :
    greeting.Publication (Machine.small fun _ => 7)
        (greeting.routine.outcome.trace (Machine.small fun _ => 7))
      ∧ ∃ e ∈ greeting.routine.outcome.trace (Machine.small fun _ => 7), e.Renames := by
  have hplace : (Machine.small fun _ => 7).locate (fun _ => false) greeting.path
      = .ok (.entry 9 [97] false) := rfl
  have hdraws : (Machine.small fun _ => 7).NeverDraws (fun _ => false) greeting.path := by
    intro k dir name slash h _
    rw [hplace] at h
    cases h
    exact (by decide +kernel : Bytes.ofString (Text.Numeral.decimalString 7) ≠ [97])
  have hruns := Program.runs_run (fun _ _ => False) greeting.routine.outcome
    (Machine.small fun _ => 7)
  refine ⟨publication (Machine.wellFormed_small _) (isQuiet_ofBytes _ _ _ _) hdraws hruns, ?_⟩
  have hany : (greeting.routine.outcome.trace (Machine.small fun _ => 7)).any
      (fun e => match e.call with | .rename .. => true | _ => false) = true := by decide +kernel
  obtain ⟨e, he, hrename⟩ := List.any_eq_true.1 hany
  refine ⟨e, he, ?_⟩
  split at hrename
  · rename_i source destination hcall
    exact ⟨source, destination, hcall⟩
  · cases hrename

end AtomicWrite

end PortableFiles
