import PortableFiles.Proofs.Writing.DraftCalls
import PortableFiles.Proofs.Writing.Publication
set_option autoImplicit false

/-!
# Steps of atomic writes

What a call of an atomic write that keeps to its protocol can do to a machine that others use:
there are five kinds of steps (`Phase.Step`), and each call is one of them, from which the write
goes on as the protocol says (`Phase.exists_step`).
-/

namespace PortableFiles

/-! ## Events -/

namespace Event

/-- Whether a call is one to a file: it writes it, sets its permissions, renames or removes it. -/
def Touches (e : Event) (id : InodeId) : Prop :=
  match e.call with
  | .write file _ => ∃ f, e.before.file? file = some f ∧ f.inode = id
  | .chmod path _ => e.before.resolve (fun _ => true) path = .ok id
  | .rename source _ => e.before.resolve (fun _ => false) source = .ok id
  | .unlink path => e.before.resolve (fun _ => false) path = .ok id
  | _ => False

/-- Whether a call makes a file. -/
def Makes (e : Event) (id : InodeId) : Prop :=
  e.before.tree.inode? id = none ∧ (e.after.tree.inode? id).isSome = true

/-- Whether a call renames a file over a name. -/
def PublishesAt (e : Event) (dir : InodeId) (name : Name) : Prop :=
  ∃ source destination before after slash, e = ⟨.rename source destination, .ok (), before, after⟩
    ∧ before.locate (fun _ => false) destination = .ok (.entry dir name slash)

/-- Whether the removal of a file fails. -/
def FailsToRemove (e : Event) : Prop :=
  ∃ path errno before after, e = ⟨.unlink path, .error errno, before, after⟩

end Event

theorem Event.not_publishesAt {e : Event}
    (h : ∀ source destination, e.call ≠ .rename source destination) (dir : InodeId) (name : Name) :
    ¬ e.PublishesAt dir name := by
  rintro ⟨source, destination, _, _, _, rfl, -⟩
  exact h source destination rfl

/-- A renaming publishes at the one name to which its path leads. -/
theorem Event.publishesAt_rename_iff {source destination : Path} {m m' : Machine}
    {dir dir' : InodeId} {name name' : Name} {slash : Bool}
    (hgoal : m.locate (fun _ => false) destination = .ok (.entry dir name slash)) :
    (⟨.rename source destination, .ok (), m, m'⟩ : Event).PublishesAt dir' name'
      ↔ dir' = dir ∧ name' = name := by
  constructor
  · rintro ⟨_, _, _, _, _, h, hplace⟩
    cases h
    rw [hgoal] at hplace
    cases hplace
    exact ⟨rfl, rfl⟩
  · rintro ⟨rfl, rfl⟩
    exact ⟨_, _, _, _, slash, rfl, hgoal⟩

/-- A call that fails publishes nothing. -/
theorem Event.not_publishesAt_of_error {c : Call} {errno : Errno} {before after : Machine}
    (dir : InodeId) (name : Name) :
    ¬ (⟨c, .error errno, before, after⟩ : Event).PublishesAt dir name := by
  rintro ⟨_, _, _, _, _, h, -⟩
  cases h

/-- A call that fails shows nothing. -/
theorem Event.foundPerm?_of_error {c : Call} {errno : Errno} {before after : Machine}
    (path : Path) : (⟨c, .error errno, before, after⟩ : Event).foundPerm? path = none := by
  unfold foundPerm?
  split
  · rename_i h
    cases h
  · rfl

/-! ## Steps -/

namespace Phase

/-- Whether the draft, if there is one, is on a machine. -/
def In (m₀ m : Machine) : Phase → Prop
  | .drafting d => d.In m₀ m
  | _ => True

/-- What a call of an atomic write can do: nothing, as long as it has made no file; make one; change
it; rename it over the destination, when it is what it should be; remove it. -/
inductive Step (w : AtomicWrite) (m₀ : Machine) : Phase → Event → Phase → Prop where
  | idle {e : Event} (hsame : e.after = e.before) (hpublishes : ∀ dir name, ¬ e.PublishesAt dir name)
      (hfound : e.foundPerm? w.path = none) (htouches : ∀ id, ¬ e.Touches id) :
      Step w m₀ .unmade e .unmade
  | made {e : Event} {d : Draft} (hid : d.id = e.before.tree.nextId)
      (hfree : e.before.tree.child? d.dir d.name = none)
      (hchange : e.before.ChangesOnly d.id (fun dir name => dir = d.dir ∧ name = d.name) e.after)
      (hpublishes : ∀ dir name, ¬ e.PublishesAt dir name)
      (hfound : d.found = none ∧ e.foundPerm? w.path = none) (htouches : ∀ id, ¬ e.Touches id) :
      Step w m₀ .unmade e (.drafting d)
  | changed {e : Event} {d : Draft} {node : Inode} {isOpen : Bool}
      (hchange : e.before.ChangesOnly d.id (fun _ _ => False) e.after)
      (hpublishes : ∀ dir name, ¬ e.PublishesAt dir name)
      (htouches : ∀ id, e.Touches id → id = d.id) :
      Step w m₀ (.drafting d) e
        (.drafting { d with
          node := node, isOpen := isOpen, found := d.found.or (e.foundPerm? w.path) })
  | published {e : Event} {d : Draft} {dir : InodeId} {name : Name}
      (hgoal : m₀.locate (fun _ => false) w.path = .ok (.entry dir name false))
      (hpublishes : ∀ dir' name', e.PublishesAt dir' name' ↔ dir' = dir ∧ name' = name)
      (hchange : e.before.ChangesOnly d.id (fun dir' name' => (dir' = d.dir ∧ name' = d.name)
        ∨ (dir' = dir ∧ name' = name)) e.after)
      (hleft : e.after.tree.child? d.dir d.name = none)
      (hentry : e.after.tree.child? dir name = some d.id)
      (hinode : e.after.tree.inode? d.id = some d.node) (hends : w.reader.Ends)
      (hleaves : w.Leaves m₀ d.found d.node)
      (htouches : ∀ id, e.Touches id → id = d.id) :
      Step w m₀ (.drafting d) e .settled
  | removed {e : Event} {d : Draft}
      (hchange : e.before.ChangesOnly d.id (fun dir name => dir = d.dir ∧ name = d.name) e.after)
      (hleft : e.after.tree.child? d.dir d.name = none)
      (hpublishes : ∀ dir name, ¬ e.PublishesAt dir name)
      (htouches : ∀ id, e.Touches id → id = d.id) :
      Step w m₀ (.drafting d) e .settled

variable {w : AtomicWrite} {m₀ m m' : Machine} {s : Phase} {d : Draft} {c : Call}
  {fails : Call → Errno → Prop}

theorem In.of_eq (h : s.In m₀ m) (htree : m'.tree = m.tree) (hfiles : m'.files = m.files) :
    s.In m₀ m' := by
  cases s with
  | drafting d => exact Draft.In.of_eq h htree hfiles
  | _ => trivial

/-- What is called while there is a draft is called for this draft. -/
theorem Allows.eq_of_touches (h : Allows w m₀ (.drafting d) c) (hd : d.In m₀ m)
    (hm : m₀.Follows m) {reply : Except Errno c.Value} {id : InodeId}
    (htouches : (⟨c, reply, m, m'⟩ : Event).Touches id) : id = d.id := by
  cases h with
  | write hopen =>
    obtain ⟨f, hf, rfl⟩ := htouches
    obtain ⟨data, location, -, hfile⟩ := hd.exists_file? hopen
    rw [hfile] at hf
    cases hf
    rfl
  | chmod => exact hd.resolve hm htouches
  | rename _ _ => exact hd.resolve hm htouches
  | unlink => exact hd.resolve hm htouches
  | sync _ => exact htouches.elim
  | statOpen _ => exact htouches.elim
  | close _ => exact htouches.elim
  | look => exact htouches.elim

/-- A draft that changes without a look at the destination. -/
theorem Step.of_change (hallows : Allows w m₀ (.drafting d) c)
    (hrename : ∀ source destination, c ≠ .rename source destination)
    (hlook : c ≠ .stat w.path true) (hd : d.In m₀ m) (hm : m₀.Follows m)
    (hchange : m.ChangesOnly d.id (fun _ _ => False) m') (reply : Except Errno c.Value)
    (node : Inode) (isOpen : Bool) :
    Step w m₀ (.drafting d) ⟨c, reply, m, m'⟩
      (.drafting { d with node := node, isOpen := isOpen }) := by
  have hfound : (⟨c, reply, m, m'⟩ : Event).foundPerm? w.path = none :=
    Event.foundPerm?_eq_none hlook
  have hstep : Step w m₀ (.drafting d) ⟨c, reply, m, m'⟩ (.drafting { d with
      node := node
      isOpen := isOpen
      found := d.found.or ((⟨c, reply, m, m'⟩ : Event).foundPerm? w.path) }) :=
    .changed hchange (Event.not_publishesAt hrename) fun _ => hallows.eq_of_touches hd hm
  rw [hfound, Option.or_none] at hstep
  exact hstep

/-- A look at the destination shows permissions, which count if they are the first ones. -/
theorem Step.of_look (hd : d.In m₀ m) (hm : m₀.Follows m) (stat : Stat) :
    Step w m₀ (.drafting d) ⟨.stat w.path true, .ok stat, m, m⟩
      (.drafting { d with found := d.found.or (some (stat.perm &&& permMask)) }) := by
  have hfound : (⟨.stat w.path true, .ok stat, m, m⟩ : Event).foundPerm? w.path
      = some (stat.perm &&& permMask) := if_pos rfl
  have hstep : Step w m₀ (.drafting d) ⟨.stat w.path true, .ok stat, m, m⟩ (.drafting { d with
      found := d.found.or ((⟨.stat w.path true, .ok stat, m, m⟩ : Event).foundPerm? w.path) }) :=
    .changed hd.changesOnly_refl (Event.not_publishesAt nofun) fun _ =>
      Allows.look.eq_of_touches hd hm
  rw [hfound] at hstep
  exact hstep

/-- Where a call fails, everything is as it was. -/
theorem exists_step_of_error (hm : m₀.Follows m) (hs : s.In m₀ m) (hallows : s.Allows w m₀ c)
    (errno : Errno) (hclose : ∀ file, c ≠ .close file) (hunlink : ∀ path, c ≠ .unlink path) :
    ∃ s', s.Moves m₀ c (.error errno) s' ∧ s'.In m₀ m ∧ Step w m₀ s ⟨c, .error errno, m, m⟩ s' := by
  refine ⟨s, .failed hclose hunlink, hs, ?_⟩
  cases s with
  | unmade =>
    refine .idle rfl Event.not_publishesAt_of_error (Event.foundPerm?_of_error _) ?_
    cases hallows
    exact fun _ => id
  | drafting d =>
    have hstep : Step w m₀ (.drafting d) ⟨c, .error errno, m, m⟩ (.drafting { d with
        found := d.found.or ((⟨c, .error errno, m, m⟩ : Event).foundPerm? w.path) }) :=
      .changed (Draft.In.changesOnly_refl hs) Event.not_publishesAt_of_error fun _ =>
        hallows.eq_of_touches hs hm
    rw [Event.foundPerm?_of_error, Option.or_none] at hstep
    exact hstep
  | settled => cases hallows

/-- Closing is a step whatever comes of it. -/
theorem exists_step_of_close (hm : m₀.Follows m) (hd : d.In m₀ m) (hopen : d.isOpen = true)
    {reply : Except Errno Unit} (houtcome : (Call.close d.file).Outcome fails m reply m') :
    ∃ s', (drafting d).Moves m₀ (.close d.file) reply s' ∧ s'.In m₀ m'
      ∧ Step w m₀ (.drafting d) ⟨.close d.file, reply, m, m'⟩ s' := by
  obtain ⟨hclosed, hchange⟩ := hd.close hopen houtcome
  exact ⟨_, .closed, hclosed, .of_change (.close hopen) nofun nofun hd hm hchange _ _ _⟩

/-- A call that succeeds is a step, from which it goes on as the protocol says. -/
theorem exists_step_of_ok (hm : m₀.Follows m) (hw : m₀.tree.WellFormed) (hs : s.In m₀ m)
    (hapart : ∀ d, s = .drafting d → ∀ slash,
      m₀.locate (fun _ => false) w.path ≠ .ok (.entry d.dir d.name slash))
    (hallows : s.Allows w m₀ c) {value : c.Value} (houtcome : c.Outcome fails m (.ok value) m') :
    ∃ s', s.Moves m₀ c (.ok value) s' ∧ s'.In m₀ m' ∧ Step w m₀ s ⟨c, .ok value, m, m'⟩ s' := by
  cases hallows with
  | make hpath hnul =>
    obtain ⟨d, ⟨hat, hfile, hopen, hfound, hcontent, hperm⟩, hid, hfree, hd, hchange⟩ :=
      hm.exists_draft hw hpath (houtcome.perform_eq_ok nofun)
    refine ⟨.drafting d, .made hat hfile hopen hfound hcontent hperm, hd, ?_⟩
    exact .made hid hfree hchange (Event.not_publishesAt nofun)
      ⟨hfound, Event.foundPerm?_eq_none nofun⟩ fun _ => id
  | write hopen =>
    obtain ⟨old, perm, hold, htrimmed, hd, hchange⟩ := Draft.In.of_write hs hopen houtcome
    exact ⟨_, .written ⟨old, perm, hold, htrimmed, rfl⟩, hd,
      .of_change (.write hopen) nofun nofun hs hm hchange _ _ _⟩
  | sync hopen =>
    obtain rfl := Call.machine_perform_of_looks (by trivial) (houtcome.perform_eq_ok nofun)
    exact ⟨_, .synced, hs, .of_change (.sync hopen) nofun nofun hs hm
      (Draft.In.changesOnly_refl hs) _ _ _⟩
  | statOpen hopen =>
    have hperform := houtcome.perform_eq_ok nofun
    have hperm := Draft.In.statOpen hs hopen hperform
    obtain rfl := Call.machine_perform_of_looks (by trivial) hperform
    exact ⟨_, .described hperm, hs, .of_change (.statOpen hopen) nofun nofun hs hm
      (Draft.In.changesOnly_refl hs) _ _ _⟩
  | close hopen => exact exists_step_of_close hm hs hopen houtcome
  | @look d =>
    obtain rfl := Call.machine_perform_of_looks (by trivial) (houtcome.perform_eq_ok nofun)
    obtain ⟨data, hdata, hopen⟩ := Draft.In.file hs
    have hd := Draft.In.revise hs (Draft.In.changesOnly_refl hs)
      (d.found.or (some (value.perm &&& permMask))) (Draft.In.inode hs) hdata hopen
    exact ⟨_, .looked, hd, .of_look hs hm value⟩
  | chmod =>
    obtain ⟨hd, hchange⟩ := Draft.In.chmod hs hm (houtcome.perform_eq_ok nofun)
    exact ⟨_, .chmodded, hd, .of_change .chmod nofun nofun hs hm hchange _ _ _⟩
  | @rename d hends hleaves =>
    obtain ⟨dir, name, hgoal, hchange, hleft, hentry, hinode⟩ :=
      Draft.In.rename hs hm (hapart d rfl) (houtcome.perform_eq_ok nofun)
    exact ⟨.settled, .published, trivial, .published (hm.locate hgoal)
      (fun _ _ => Event.publishesAt_rename_iff hgoal) hchange hleft hentry hinode hends hleaves
      fun _ => (Allows.rename hends hleaves).eq_of_touches hs hm⟩
  | unlink =>
    obtain ⟨hchange, hleft⟩ := Draft.In.unlink hs hm (houtcome.perform_eq_ok nofun)
    exact ⟨.settled, .removed, trivial, .removed hchange hleft (Event.not_publishesAt nofun)
      fun _ => (Allows.unlink (w := w)).eq_of_touches hs hm⟩

/-- Each call that the protocol allows is a step, from which it goes on as the protocol says. -/
theorem exists_step (hm : m₀.Follows m) (hw : m₀.tree.WellFormed) (hs : s.In m₀ m)
    (hapart : ∀ d, s = .drafting d → ∀ slash,
      m₀.locate (fun _ => false) w.path ≠ .ok (.entry d.dir d.name slash))
    (hallows : s.Allows w m₀ c) {reply : Except Errno c.Value}
    (houtcome : c.Outcome fails m reply m')
    (hremoves : ¬ (⟨c, reply, m, m'⟩ : Event).FailsToRemove) :
    ∃ s', s.Moves m₀ c reply s' ∧ s'.In m₀ m' ∧ Step w m₀ s ⟨c, reply, m, m'⟩ s' := by
  cases reply with
  | ok value => exact exists_step_of_ok hm hw hs hapart hallows houtcome
  | error errno =>
    have hfailed := exists_step_of_error hm hs hallows errno
    cases hallows with
    | close hopen => exact exists_step_of_close hm hs hopen houtcome
    | unlink => exact absurd ⟨_, _, _, _, rfl⟩ hremoves
    | _ =>
      rw [houtcome.eq_of_error]
      exact hfailed nofun nofun

/-! ## What all steps have in common -/

section Common

variable {e : Event} {s' : Phase} {id : InodeId} {dir : InodeId} {name : Name}

/-- The file that a step changes, and the names at which it does: there is a draft, or a new one,
and the names are its own and the one at which it is published. -/
theorem Step.change (h : Step w m₀ s e s') :
    e.after = e.before ∨ ∃ d P, e.before.ChangesOnly d.id P e.after
      ∧ (s = .drafting d ∨ (s' = .drafting d ∧ e.before.tree.inode? d.id = none
          ∧ e.before.tree.child? d.dir d.name = none))
      ∧ ∀ dir name, P dir name → (dir = d.dir ∧ name = d.name)
          ∨ (e.PublishesAt dir name ∧ e.after.tree.child? dir name = some d.id) := by
  cases h with
  | idle hsame _ _ _ => exact Or.inl hsame
  | @made _ d hid hfree hchange _ _ _ =>
    refine Or.inr ⟨d, _, hchange, Or.inr ⟨rfl, ?_, hfree⟩, fun _ _ => Or.inl⟩
    rw [hid]
    exact e.before.tree.inode?_nextId
  | @changed _ d _ _ hchange _ _ =>
    exact Or.inr ⟨d, _, hchange, Or.inl rfl, fun _ _ => False.elim⟩
  | @published _ d _ _ _ hpublishes hchange _ hentry _ _ _ _ =>
    refine Or.inr ⟨d, _, hchange, Or.inl rfl, fun dir' name' => Or.imp_right fun hgoal => ?_⟩
    obtain ⟨rfl, rfl⟩ := hgoal
    exact ⟨(hpublishes _ _).2 ⟨rfl, rfl⟩, hentry⟩
  | @removed _ d hchange _ _ _ => exact Or.inr ⟨d, _, hchange, Or.inl rfl, fun _ _ => Or.inl⟩

/-- No inode is lost. -/
theorem Step.isSome_inode? (h : Step w m₀ s e s') (hid : (e.before.tree.inode? id).isSome = true) :
    (e.after.tree.inode? id).isSome = true := by
  rcases h.change with hsame | ⟨d, _, hchange, -⟩
  · rwa [hsame]
  · by_cases hown : id = d.id
    · obtain ⟨node, _, hnode, -⟩ := hchange.tree.file
      rw [hown, hnode]
      rfl
    · obtain ⟨f, hf⟩ := hchange.tree.inodes id hown
      rwa [hf, Option.isSome_map]

/-- A draft is there before the step, or it is made by it. -/
theorem Step.draft_eq (h : Step w m₀ s e (.drafting d)) :
    (∃ d', s = .drafting d' ∧ d'.id = d.id) ∨ e.Makes d.id := by
  cases h with
  | made hid _ hchange _ _ _ =>
    obtain ⟨node, _, hnode, -⟩ := hchange.tree.file
    refine Or.inr ⟨?_, ?_⟩
    · rw [hid]
      exact e.before.tree.inode?_nextId
    · rw [hnode]
      rfl
  | changed _ _ _ => exact Or.inl ⟨_, rfl, rfl⟩

/-- What a step touches is the draft. -/
theorem Step.eq_of_touches (h : Step w m₀ s e s') (htouches : e.Touches id) :
    ∃ d, s = .drafting d ∧ id = d.id := by
  cases h with
  | idle _ _ _ hnone => exact absurd htouches (hnone id)
  | made _ _ _ _ _ hnone => exact absurd htouches (hnone id)
  | changed _ _ hown => exact ⟨_, rfl, hown id htouches⟩
  | published _ _ _ _ _ _ _ _ hown => exact ⟨_, rfl, hown id htouches⟩
  | removed _ _ _ hown => exact ⟨_, rfl, hown id htouches⟩

/-- What a step publishes, it publishes at the destination. -/
theorem Step.locate_of_publishesAt (h : Step w m₀ s e s') (hpublishes : e.PublishesAt dir name) :
    m₀.locate (fun _ => false) w.path = .ok (.entry dir name false) := by
  cases h with
  | idle _ hnone _ _ => exact absurd hpublishes (hnone dir name)
  | made _ _ _ hnone _ _ => exact absurd hpublishes (hnone dir name)
  | changed _ hnone _ => exact absurd hpublishes (hnone dir name)
  | published hgoal hone _ _ _ _ _ _ _ =>
    obtain ⟨rfl, rfl⟩ := (hone dir name).1 hpublishes
    exact hgoal
  | removed _ _ hnone _ => exact absurd hpublishes (hnone dir name)

/-- The permissions that a write has seen of its destination. -/
def found : Phase → Option UInt32
  | .drafting d => d.found
  | _ => none

/-- The first permissions that are seen are the ones that count. -/
theorem Step.found_eq (h : Step w m₀ s e s') (hsettled : s' ≠ .settled) :
    s ≠ .settled ∧ s'.found = s.found.or (e.foundPerm? w.path) := by
  cases h with
  | idle _ _ hfound _ => exact ⟨nofun, by rw [hfound]; rfl⟩
  | made _ _ _ _ hfound _ => exact ⟨nofun, by rw [hfound.2]; exact hfound.1⟩
  | changed _ _ _ => exact ⟨nofun, rfl⟩
  | published _ _ _ _ _ _ _ _ _ => exact absurd rfl hsettled
  | removed _ _ _ _ => exact absurd rfl hsettled

end Common

/-! ## Questions -/

/-- Questions leave the process as it was in all that counts. -/
theorem MayAsk.agrees {q : Query} (h : MayAsk m₀ s q) (hm : m₀.process.Agrees m.process) :
    m₀.process.Agrees (q.answer m).2.process := by
  cases h with
  | draw => exact ⟨hm.cwd, hm.who, hm.mask, hm.umask, hm.mayOpen, hm.draws⟩
  | recallMask => exact hm
  | status => exact hm
  | rememberMask => exact ⟨hm.cwd, hm.who, hm.mask, rfl, hm.mayOpen, hm.draws⟩

/-- The process answers as the protocol says. -/
theorem MayAsk.answers {q : Query} (h : MayAsk m₀ s q) (hm : m₀.process.Agrees m.process)
    (hs : s.In m₀ m) : Answers m₀ s q (q.answer m).1 := by
  cases h with
  | draw =>
    change Answers m₀ s .draw (m.draws m.drawn)
    rw [show m.draws = m₀.draws from hm.draws]
    exact .draw
  | recallMask =>
    refine .recallMask ?_
    rw [← show m.mask = m₀.mask from hm.mask]
    exact hm.umask
  | status =>
    have hopen : m.mayOpen = true := hm.mayOpen.trans (Draft.In.placed hs).mayOpen
    change Answers m₀ _ .status (if m.mayOpen then some (m.statusLines.text m.mask) else none)
    rw [if_pos hopen, show m.mask = m₀.mask from hm.mask]
    exact .status (Umask.shown?_text _ _)
  | rememberMask => exact .rememberMask

end Phase

end PortableFiles
