import PortableFiles.Proofs.Kernel.Tree
set_option autoImplicit false

/-!
# Walks that reach an end

The steps of a walk, one by one, and the relation `Tree.Walks` of all walks that reach an end.  The
relation is the walk itself (`walk_eq_ok_iff`); what holds of every walk is proved along it.
-/

namespace PortableFiles.Tree

variable {t : Tree}

/-- Whether a content leads elsewhere. -/
def isLink : Option Content → Bool
  | some (.symlink _) | some (.jump _) => true
  | _ => false

theorem isLink_of_isDirectory {id : InodeId} (h : t.isDirectory id = true) :
    isLink (t.content? id) = false := by
  cases hc : t.content? id with
  | none => rfl
  | some c => cases c <;> simp [isDirectory, entries?, hc, Content.entries?, isLink] at h ⊢

theorem exists_of_isLink {c : Option Content} (h : isLink c = true) :
    (∃ target, c = some (.symlink target)) ∨ ∃ directory, c = some (.jump directory) := by
  cases c with
  | none => cases h
  | some c =>
    cases c with
    | symlink target => exact Or.inl ⟨target, rfl⟩
    | jump directory => exact Or.inr ⟨directory, rfl⟩
    | _ => cases h

/-! ## Steps of a walk -/

section Steps

variable {who : Credentials} {follow : Bool → Bool} {slash : Bool} {d : InodeId} {rest : List Step}
  {again : InodeId → Route → Except Errno Place}

theorem walkWith_of_pass_eq_error {e : Errno} (h : t.pass who d = .error e) (step : Step) :
    t.walkWith who follow again slash d (step :: rest) = .error e := by
  cases step <;> (rw [walkWith, h]; rfl)

theorem walkWith_stay (h : t.pass who d = .ok ()) :
    t.walkWith who follow again slash d (.stay :: rest) =
      if rest = [] then .ok (.dots d false) else t.walkWith who follow again slash d rest := by
  rw [walkWith, h]
  rfl

theorem walkWith_ascend (h : t.pass who d = .ok ()) :
    t.walkWith who follow again slash d (.ascend :: rest) =
      if rest = [] then .ok (.dots d true)
      else t.walkWith who follow again slash (t.parent d) rest := by
  rw [walkWith, h]
  rfl

/-- A last name is not followed where the operation does not ask for it. -/
theorem walkWith_last {n : Name} (h : t.pass who d = .ok ()) (hfollow : follow slash = false) :
    t.walkWith who follow again slash d [.descend n] = .ok (.entry d n slash) := by
  rw [walkWith, h]
  simp [hfollow, bind, Except.bind]

/-- A symbolic link leads on, unless it is last and not to be followed. -/
theorem walkWith_symlink {n : Name} {target : Bytes} (h : t.pass who d = .ok ())
    (hlink : (t.child? d n).bind t.content? = some (.symlink target)) :
    t.walkWith who follow again slash d (.descend n :: rest) =
      if rest = [] && !follow slash then .ok (.entry d n slash)
      else again d ((Route.ofBytes target).followedBy rest slash) := by
  rw [walkWith, h, hlink]
  rfl

/-- A link straight to a directory leads on, unless it is last and not to be followed. -/
theorem walkWith_jump {n : Name} {directory : InodeId} (h : t.pass who d = .ok ())
    (hlink : (t.child? d n).bind t.content? = some (.jump directory)) :
    t.walkWith who follow again slash d (.descend n :: rest) =
      if rest = [] && !follow slash then .ok (.entry d n slash)
      else again directory ⟨false, rest, slash⟩ := by
  rw [walkWith, h, hlink]
  rfl

/-- A name that is no link leads into a directory. -/
theorem walkWith_descend {n : Name} (h : t.pass who d = .ok ())
    (hlink : isLink ((t.child? d n).bind t.content?) = false) :
    t.walkWith who follow again slash d (.descend n :: rest) =
      if rest = [] then .ok (.entry d n slash)
      else
        match t.find d n with
        | .ok (some id) =>
          if t.isDirectory id then t.walkWith who follow again slash id rest
          else .error .notDirectory
        | .ok none => .error .noEntry
        | .error e => .error e := by
  rw [walkWith, h]
  by_cases hrest : rest = []
  · subst hrest
    cases hc : (t.child? d n).bind t.content? with
    | none => simp [bind, Except.bind]
    | some c => cases c <;> simp [hc, isLink, bind, Except.bind] at hlink ⊢
  · cases hfind : t.find d n with
    | error e =>
      cases hc : (t.child? d n).bind t.content? with
      | none => simp [hrest, bind, Except.bind]
      | some c => cases c <;> simp [hrest, hc, isLink, bind, Except.bind] at hlink ⊢
    | ok found =>
      cases hc : (t.child? d n).bind t.content? with
      | none => cases found <;> simp [hrest, bind, Except.bind]
      | some c =>
        cases c <;> cases found <;> simp [hrest, hc, isLink, bind, Except.bind] at hlink ⊢

end Steps

/-! ## The relation of walks -/

/-- The directory at which a route starts. -/
def start (t : Tree) (d : InodeId) (route : Route) : InodeId := if route.absolute then t.root else d

/-- The walks along `steps` from a directory on which at most `budget` links are met. -/
inductive Walks (t : Tree) (who : Credentials) (follow : Bool → Bool) :
    Nat → InodeId → List Step → Bool → Place → Prop where
  | reached {budget : Nat} {d : InodeId} {slash : Bool} :
      Walks t who follow budget d [] slash (.reached d)
  | dot {budget : Nat} {d : InodeId} {slash : Bool} (hpass : t.pass who d = .ok ()) :
      Walks t who follow budget d [.stay] slash (.dots d false)
  | dotdot {budget : Nat} {d : InodeId} {slash : Bool} (hpass : t.pass who d = .ok ()) :
      Walks t who follow budget d [.ascend] slash (.dots d true)
  | stay {budget : Nat} {d : InodeId} {rest : List Step} {slash : Bool} {place : Place}
      (hpass : t.pass who d = .ok ()) (hrest : rest ≠ [])
      (h : Walks t who follow budget d rest slash place) :
      Walks t who follow budget d (.stay :: rest) slash place
  | ascend {budget : Nat} {d : InodeId} {rest : List Step} {slash : Bool} {place : Place}
      (hpass : t.pass who d = .ok ()) (hrest : rest ≠ [])
      (h : Walks t who follow budget (t.parent d) rest slash place) :
      Walks t who follow budget d (.ascend :: rest) slash place
  | last {budget : Nat} {d : InodeId} {n : Name} {slash : Bool} (hpass : t.pass who d = .ok ())
      (hname : follow slash = false ∨ isLink ((t.child? d n).bind t.content?) = false) :
      Walks t who follow budget d [.descend n] slash (.entry d n slash)
  | descend {budget : Nat} {d id : InodeId} {n : Name} {rest : List Step} {slash : Bool}
      {place : Place} (hpass : t.pass who d = .ok ()) (hrest : rest ≠ [])
      (hlink : isLink ((t.child? d n).bind t.content?) = false)
      (hfind : t.find d n = .ok (some id)) (hdirectory : t.isDirectory id = true)
      (h : Walks t who follow budget id rest slash place) :
      Walks t who follow budget d (.descend n :: rest) slash place
  | symlink {budget : Nat} {d : InodeId} {n : Name} {rest : List Step} {slash : Bool}
      {place : Place} {target : Bytes} (hpass : t.pass who d = .ok ())
      (hgo : rest ≠ [] ∨ follow slash = true)
      (hlink : (t.child? d n).bind t.content? = some (.symlink target))
      (h : Walks t who follow budget (t.start d (Route.ofBytes target))
        ((Route.ofBytes target).followedBy rest slash).steps
        ((Route.ofBytes target).followedBy rest slash).slash place) :
      Walks t who follow (budget + 1) d (.descend n :: rest) slash place
  | jump {budget : Nat} {d directory : InodeId} {n : Name} {rest : List Step} {slash : Bool}
      {place : Place} (hpass : t.pass who d = .ok ()) (hgo : rest ≠ [] ∨ follow slash = true)
      (hlink : (t.child? d n).bind t.content? = some (.jump directory))
      (h : Walks t who follow budget directory rest slash place) :
      Walks t who follow (budget + 1) d (.descend n :: rest) slash place

section Relation

variable {who : Credentials} {follow : Bool → Bool} {budget : Nat} {d : InodeId}
  {steps : List Step} {slash : Bool} {place : Place}

theorem start_followedBy (r : Route) (rest : List Step) (slash : Bool) :
    t.start d (r.followedBy rest slash) = t.start d r := by
  unfold Route.followedBy
  split <;> rfl

/-- What the walk makes of a link that is met: it goes on while some of the budget is left. -/
def again (t : Tree) (who : Credentials) (follow : Bool → Bool) :
    Nat → InodeId → Route → Except Errno Place
  | 0 => fun _ _ => .error .tooManyLinks
  | budget + 1 => t.walk who follow budget

theorem walk_eq (budget : Nat) (d : InodeId) (route : Route) :
    t.walk who follow budget d route
      = t.walkWith who follow (t.again who follow budget) route.slash (t.start d route)
          route.steps := by
  cases budget <;> rfl

theorem Walks.eq_ok (h : Walks t who follow budget d steps slash place) :
    t.walkWith who follow (t.again who follow budget) slash d steps = .ok place := by
  induction h with
  | reached => rfl
  | dot hpass => rw [walkWith_stay hpass, if_pos rfl]
  | dotdot hpass => rw [walkWith_ascend hpass, if_pos rfl]
  | stay hpass hrest _ ih => rw [walkWith_stay hpass, if_neg hrest, ih]
  | ascend hpass hrest _ ih => rw [walkWith_ascend hpass, if_neg hrest, ih]
  | last hpass hname =>
    rcases hname with hfollow | hlink
    · exact walkWith_last hpass hfollow
    · rw [walkWith_descend hpass hlink, if_pos rfl]
  | descend hpass hrest hlink hfind hdirectory _ ih =>
    rw [walkWith_descend hpass hlink, if_neg hrest, hfind]
    simp only [hdirectory, if_true, ih]
  | symlink hpass hgo hlink _ ih =>
    rw [walkWith_symlink hpass hlink, if_neg (by rcases hgo with h | h <;> simp [h]), again,
      walk_eq, start_followedBy, ih]
  | jump hpass hgo hlink _ ih =>
    rw [walkWith_jump hpass hlink, if_neg (by rcases hgo with h | h <;> simp [h]), again, walk_eq]
    exact ih

/-- Along the steps of one route the walk is in the relation, if it is where links lead. -/
theorem Walks.of_again
    (hagain : ∀ d route place, t.again who follow budget d route = .ok place →
      ∃ left, budget = left + 1
        ∧ Walks t who follow left (t.start d route) route.steps route.slash place)
    (h : t.walkWith who follow (t.again who follow budget) slash d steps = .ok place) :
    Walks t who follow budget d steps slash place := by
  induction steps generalizing d with
  | nil =>
    cases h
    exact .reached
  | cons step rest ih =>
    cases hp : t.pass who d with
    | error e =>
      rw [walkWith_of_pass_eq_error hp] at h
      cases h
    | ok u =>
      cases step with
      | stay =>
        rw [walkWith_stay hp] at h
        split at h
        · rename_i hrest
          cases h
          exact hrest ▸ .dot hp
        · rename_i hrest
          exact .stay hp hrest (ih h)
      | ascend =>
        rw [walkWith_ascend hp] at h
        split at h
        · rename_i hrest
          cases h
          exact hrest ▸ .dotdot hp
        · rename_i hrest
          exact .ascend hp hrest (ih h)
      | descend n =>
        by_cases hlink : isLink ((t.child? d n).bind t.content?) = true
        · by_cases hlast : (rest = [] && !follow slash) = true
          · obtain ⟨hrest, hfollow⟩ : rest = [] ∧ follow slash = false := by simpa using hlast
            subst hrest
            rw [walkWith_last hp hfollow] at h
            cases h
            exact .last hp (Or.inl hfollow)
          · have hgo : rest ≠ [] ∨ follow slash = true := by
              by_cases hrest : rest = []
              · exact Or.inr (by simpa [hrest] using hlast)
              · exact Or.inl hrest
            rcases exists_of_isLink hlink with ⟨target, hc⟩ | ⟨directory, hc⟩
            · rw [walkWith_symlink hp hc, if_neg hlast] at h
              obtain ⟨left, rfl, hwalks⟩ := hagain _ _ _ h
              rw [start_followedBy] at hwalks
              exact .symlink hp hgo hc hwalks
            · rw [walkWith_jump hp hc, if_neg hlast] at h
              obtain ⟨left, rfl, hwalks⟩ := hagain _ _ _ h
              exact .jump hp hgo hc hwalks
        · have hplain : isLink ((t.child? d n).bind t.content?) = false := by simpa using hlink
          rw [walkWith_descend hp hplain] at h
          split at h
          · rename_i hrest
            cases h
            exact hrest ▸ .last hp (Or.inr hplain)
          · rename_i hrest
            split at h
            · rename_i id hfind
              split at h
              · rename_i hdirectory
                exact .descend hp hrest hplain hfind hdirectory (ih h)
              · cases h
            · cases h
            · cases h

theorem Walks.of_eq_ok
    (h : t.walkWith who follow (t.again who follow budget) slash d steps = .ok place) :
    Walks t who follow budget d steps slash place := by
  induction budget generalizing d steps slash place with
  | zero => exact Walks.of_again (fun _ _ _ hagain => by cases hagain) h
  | succ budget ih =>
    refine Walks.of_again (fun d route place hagain => ⟨budget, rfl, ih ?_⟩) h
    rw [← walk_eq]
    exact hagain

/-- The relation is the walk. -/
theorem walk_eq_ok_iff (budget : Nat) (d : InodeId) (route : Route) :
    t.walk who follow budget d route = .ok place ↔
      Walks t who follow budget (t.start d route) route.steps route.slash place := by
  rw [walk_eq]
  exact ⟨Walks.of_eq_ok, Walks.eq_ok⟩

end Relation

/-! ## What every walk has in common -/

section Facts

variable {who : Credentials} {follow : Bool → Bool} {budget : Nat} {d e : InodeId}
  {before steps : List Step} {slash slash' : Bool} {x y : Name} {place : Place}

/-- Where a walk makes a step, the process may pass. -/
theorem Walks.pass_start {step : Step}
    (h : Walks t who follow budget d (step :: steps) slash place) : t.pass who d = .ok () := by
  cases h <;> assumption

/-- Where a walk ends at a name, the process may pass. -/
theorem Walks.pass_of_entry (h : Walks t who follow budget d steps slash (.entry e x slash')) :
    t.pass who e = .ok () := by
  generalize hplace : Place.entry e x slash' = place at h
  induction h with
  | reached => cases hplace
  | dot => cases hplace
  | dotdot => cases hplace
  | last hpass _ =>
    cases hplace
    exact hpass
  | stay _ _ _ ih => exact ih hplace
  | ascend _ _ _ ih => exact ih hplace
  | descend _ _ _ _ _ _ ih => exact ih hplace
  | symlink _ _ _ _ ih => exact ih hplace
  | jump _ _ _ _ ih => exact ih hplace

theorem isDirectory_of_pass (h : t.pass who d = .ok ()) : t.isDirectory d = true := by
  unfold pass at h
  split at h
  · rename_i node hnode
    by_cases hdirectory : node.content.isDirectory = true
    · simpa [isDirectory, entries?, content?, hnode, Content.isDirectory] using hdirectory
    · simp [hdirectory] at h
  · cases h

/-- Steps that end in a name go on where some of them are left. -/
theorem ne_nil_of_cons_eq {step : Step} {rest : List Step}
    (h : step :: rest = before ++ [.descend x]) (hrest : rest ≠ []) :
    ∃ before', before = step :: before' ∧ rest = before' ++ [.descend x] := by
  cases before with
  | nil =>
    simp only [List.nil_append, List.cons.injEq] at h
    exact absurd h.2 hrest
  | cons first before' =>
    simp only [List.cons_append, List.cons.injEq] at h
    exact ⟨before', by rw [h.1], h.2⟩

/-- The first of some steps with `.stay` among them is that one, or comes before it. -/
theorem cons_eq_append_stay {step : Step} {rest before after : List Step}
    (h : step :: rest = before ++ .stay :: after) :
    (before = [] ∧ step = .stay ∧ rest = after)
      ∨ ∃ before', before = step :: before' ∧ rest = before' ++ .stay :: after := by
  cases before with
  | nil =>
    cases h
    exact Or.inl ⟨rfl, rfl, rfl⟩
  | cons first before' =>
    cases h
    exact Or.inr ⟨before', rfl, rfl⟩

/-- Staying where one is on the way makes no difference. -/
theorem Walks.drop_stay {after : List Step} (hafter : after ≠ [])
    (h : Walks t who follow budget d (before ++ .stay :: after) slash place) :
    Walks t who follow budget d (before ++ after) slash place := by
  generalize hsteps : before ++ .stay :: after = steps at h
  induction h generalizing before with
  | reached => simp at hsteps
  | dot _ =>
    rcases cons_eq_append_stay hsteps.symm with ⟨-, -, hrest⟩ | ⟨before', -, hrest⟩
    · exact absurd hrest.symm hafter
    · simp at hrest
  | dotdot _ =>
    rcases cons_eq_append_stay hsteps.symm with ⟨-, hstep, -⟩ | ⟨before', -, hrest⟩
    · cases hstep
    · simp at hrest
  | last _ _ =>
    rcases cons_eq_append_stay hsteps.symm with ⟨-, hstep, -⟩ | ⟨before', -, hrest⟩
    · cases hstep
    · simp at hrest
  | stay hpass _ h ih =>
    rcases cons_eq_append_stay hsteps.symm with ⟨rfl, -, rfl⟩ | ⟨before', rfl, hrest⟩
    · exact h
    · exact .stay hpass (by simp [hafter]) (ih hrest.symm)
  | ascend hpass _ _ ih =>
    rcases cons_eq_append_stay hsteps.symm with ⟨-, hstep, -⟩ | ⟨before', rfl, hrest⟩
    · cases hstep
    · exact .ascend hpass (by simp [hafter]) (ih hrest.symm)
  | descend hpass _ hlink hfind hdirectory _ ih =>
    rcases cons_eq_append_stay hsteps.symm with ⟨-, hstep, -⟩ | ⟨before', rfl, hrest⟩
    · cases hstep
    · exact .descend hpass (by simp [hafter]) hlink hfind hdirectory (ih hrest.symm)
  | symlink hpass _ hlink _ ih =>
    rcases cons_eq_append_stay hsteps.symm with ⟨-, hstep, -⟩ | ⟨before', rfl, rfl⟩
    · cases hstep
    · refine .symlink hpass (Or.inl (by simp [hafter])) hlink ?_
      rw [Route.followedBy, if_neg (by simp)] at ih
      rw [Route.followedBy, if_neg (by simp [hafter])]
      simpa using ih (List.append_assoc _ _ _)
  | jump hpass _ hlink _ ih =>
    rcases cons_eq_append_stay hsteps.symm with ⟨-, hstep, -⟩ | ⟨before', rfl, hrest⟩
    · cases hstep
    · exact .jump hpass (Or.inl (by simp [hafter])) hlink (ih hrest.symm)

/-- Where links are followed at the end, the walk that follows none there reaches an end, too. -/
theorem Walks.unfollowed (h : Walks t who follow budget d steps slash place) :
    ∃ place', Walks t who (fun _ => false) budget d steps slash place' := by
  induction h with
  | reached => exact ⟨_, .reached⟩
  | dot hpass => exact ⟨_, .dot hpass⟩
  | dotdot hpass => exact ⟨_, .dotdot hpass⟩
  | last hpass _ => exact ⟨_, .last hpass (Or.inl rfl)⟩
  | stay hpass hrest _ ih =>
    obtain ⟨place', h⟩ := ih
    exact ⟨place', .stay hpass hrest h⟩
  | ascend hpass hrest _ ih =>
    obtain ⟨place', h⟩ := ih
    exact ⟨place', .ascend hpass hrest h⟩
  | descend hpass hrest hlink hfind hdirectory _ ih =>
    obtain ⟨place', h⟩ := ih
    exact ⟨place', .descend hpass hrest hlink hfind hdirectory h⟩
  | @symlink _ _ _ rest _ _ _ hpass _ hlink _ ih =>
    by_cases hrest : rest = []
    · subst hrest
      exact ⟨_, .last hpass (Or.inl rfl)⟩
    · obtain ⟨place', h⟩ := ih
      exact ⟨place', .symlink hpass (Or.inl hrest) hlink h⟩
  | @jump _ _ _ _ rest _ _ hpass _ hlink _ ih =>
    by_cases hrest : rest = []
    · subst hrest
      exact ⟨_, .last hpass (Or.inl rfl)⟩
    · obtain ⟨place', h⟩ := ih
      exact ⟨place', .jump hpass (Or.inl hrest) hlink h⟩

variable (hfollow : ∀ slash, follow slash = false)

include hfollow

/-- A walk that follows no link at its end stops at the last name that is given. -/
theorem Walks.last_step (h : Walks t who follow budget d steps slash (.entry e x slash')) :
    slash' = slash ∧ ∃ before, steps = before ++ [.descend x] := by
  generalize hplace : Place.entry e x slash' = place at h
  induction h with
  | reached => cases hplace
  | dot => cases hplace
  | dotdot => cases hplace
  | last _ _ =>
    cases hplace
    exact ⟨rfl, [], rfl⟩
  | stay _ _ _ ih =>
    obtain ⟨hslash, before, hrest⟩ := ih hplace
    exact ⟨hslash, .stay :: before, by rw [hrest]; rfl⟩
  | ascend _ _ _ ih =>
    obtain ⟨hslash, before, hrest⟩ := ih hplace
    exact ⟨hslash, .ascend :: before, by rw [hrest]; rfl⟩
  | descend _ _ _ _ _ _ ih =>
    obtain ⟨hslash, before, hrest⟩ := ih hplace
    exact ⟨hslash, _ :: before, by rw [hrest]; rfl⟩
  | jump _ hgo _ _ ih =>
    obtain ⟨hslash, before, hrest⟩ := ih hplace
    exact ⟨hslash, _ :: before, by rw [hrest]; rfl⟩
  | @symlink _ _ _ rest slash _ target _ hgo _ _ ih =>
    have hrest : rest ≠ [] := hgo.resolve_right (by simp [hfollow])
    obtain ⟨hslash, before, hsteps⟩ := ih hplace
    simp only [Route.followedBy, if_neg hrest] at hslash hsteps
    -- The end of a link's target and more steps is the end of these.
    obtain ⟨rest', last, rfl⟩ := List.eq_nil_or_concat rest |>.resolve_left hrest
    rw [List.concat_eq_append, ← List.append_assoc] at hsteps
    obtain ⟨-, hlast⟩ := List.append_inj' hsteps rfl
    exact ⟨hslash, _ :: rest', by rw [List.concat_eq_append, hlast]; rfl⟩

/-- Another last name leads to another entry of the same directory. -/
theorem Walks.retarget
    (h : Walks t who follow budget d (before ++ [.descend x]) slash (.entry e x slash))
    (y : Name) (slash' : Bool) :
    Walks t who follow budget d (before ++ [.descend y]) slash' (.entry e y slash') := by
  generalize hsteps : before ++ [.descend x] = steps at h
  generalize hplace : Place.entry e x slash = place at h
  induction h generalizing before with
  | reached => cases hplace
  | dot => cases hplace
  | dotdot => cases hplace
  | last hpass _ =>
    cases hplace
    obtain rfl : before = [] := by
      cases before with
      | nil => rfl
      | cons _ before' => simp at hsteps
    exact .last hpass (Or.inl (hfollow _))
  | stay hpass hrest _ ih =>
    obtain ⟨before', rfl, hrest'⟩ := ne_nil_of_cons_eq hsteps.symm hrest
    exact .stay hpass (by simp) (ih hrest'.symm hplace)
  | ascend hpass hrest _ ih =>
    obtain ⟨before', rfl, hrest'⟩ := ne_nil_of_cons_eq hsteps.symm hrest
    exact .ascend hpass (by simp) (ih hrest'.symm hplace)
  | descend hpass hrest hlink hfind hdirectory _ ih =>
    obtain ⟨before', rfl, hrest'⟩ := ne_nil_of_cons_eq hsteps.symm hrest
    exact .descend hpass (by simp) hlink hfind hdirectory (ih hrest'.symm hplace)
  | symlink hpass hgo hlink _ ih =>
    have hrest := hgo.resolve_right (by simp [hfollow])
    obtain ⟨before', rfl, rfl⟩ := ne_nil_of_cons_eq hsteps.symm hrest
    refine .symlink hpass (Or.inl (by simp)) hlink ?_
    simp only [Route.followedBy, if_neg hrest, ← List.append_assoc] at ih
    simpa [Route.followedBy] using ih rfl hplace
  | jump hpass hgo hlink _ ih =>
    have hrest := hgo.resolve_right (by simp [hfollow])
    obtain ⟨before', rfl, rfl⟩ := ne_nil_of_cons_eq hsteps.symm hrest
    exact .jump hpass (Or.inl (by simp)) hlink (ih rfl hplace)

/-- A walk that stops at a name that is no link does so whether or not links are followed. -/
theorem Walks.of_not_isLink {follow' : Bool → Bool}
    (h : Walks t who follow budget d steps slash (.entry e x slash'))
    (hlink : isLink ((t.child? e x).bind t.content?) = false) :
    Walks t who follow' budget d steps slash (.entry e x slash') := by
  generalize hplace : Place.entry e x slash' = place at h
  induction h with
  | reached => cases hplace
  | dot => cases hplace
  | dotdot => cases hplace
  | last hpass _ =>
    cases hplace
    exact .last hpass (Or.inr hlink)
  | stay hpass hrest _ ih => exact .stay hpass hrest (ih hplace)
  | ascend hpass hrest _ ih => exact .ascend hpass hrest (ih hplace)
  | descend hpass hrest hplain hfind hdirectory _ ih =>
    exact .descend hpass hrest hplain hfind hdirectory (ih hplace)
  | symlink hpass hgo htarget _ ih =>
    have hrest := hgo.resolve_right (by simp [hfollow])
    exact .symlink hpass (Or.inl hrest) htarget (ih hplace)
  | jump hpass hgo htarget _ ih =>
    have hrest := hgo.resolve_right (by simp [hfollow])
    exact .jump hpass (Or.inl hrest) htarget (ih hplace)

end Facts

end PortableFiles.Tree
