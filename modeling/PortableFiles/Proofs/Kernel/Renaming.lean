import Mathlib.Data.List.Forall2
import PortableFiles.Proofs.Kernel.Walk
set_option autoImplicit false

/-!
# Trees that differ in names and permissions

Two trees are alike (`Tree.Alike`) if they hold the same under the same inode numbers, except that
names may stand for one another (`Renaming`) and that permissions and owners do not count.  To a
process to which permissions do not apply they look the same, and a walk along a path ends as it does
along the path with the names that stand for its own (`Tree.Alike.locate`).
-/

namespace PortableFiles

/-- Which names stand for which: none for two, and none that can be held for one that cannot. -/
structure Renaming where
  rel : Name → Name → Prop
  eq_iff {a a' b b' : Name} : rel a a' → rel b b' → (a = b ↔ a' = b')
  long_iff {a a' : Name} : rel a a' → (a.length > Tree.maxName ↔ a'.length > Tree.maxName)

/-- Two answers that are related values or the same error. -/
inductive Agree {ε α β : Type} (Q : α → β → Prop) : Except ε α → Except ε β → Prop where
  | ok {a : α} {b : β} (h : Q a b) : Agree Q (.ok a) (.ok b)
  | error (e : ε) : Agree Q (.error e) (.error e)

/-- Two related options are empty, or they hold related values. -/
theorem cases_of_rel {α β : Type} {r : α → β → Prop} {x : Option α} {y : Option β}
    (h : Option.Rel r x y) :
    (x = none ∧ y = none) ∨ ∃ a b, x = some a ∧ y = some b ∧ r a b := by
  cases h with
  | none => exact Or.inl ⟨rfl, rfl⟩
  | some h => exact Or.inr ⟨_, _, rfl, rfl, h⟩

namespace Agree

variable {ε α α' β β' : Type} {Q : α → α' → Prop} {S : β → β' → Prop} {x : Except ε α}
  {x' : Except ε α'}

theorem mono {Q' : α → α' → Prop} (h : Agree Q x x') (hQ : ∀ a a', Q a a' → Q' a a') :
    Agree Q' x x' := by
  cases h with
  | ok h => exact .ok (hQ _ _ h)
  | error e => exact .error e

theorem bind {f : α → Except ε β} {f' : α' → Except ε β'} (h : Agree Q x x')
    (hf : ∀ a a', Q a a' → Agree S (f a) (f' a')) : Agree S (x >>= f) (x' >>= f') := by
  cases h with
  | ok h => exact hf _ _ h
  | error e => exact .error e

/-- The related values are the answers. -/
theorem and_eq (h : Agree Q x x') : Agree (fun a a' => Q a a' ∧ x = .ok a) x x' := by
  cases h with
  | ok h => exact .ok ⟨h, rfl⟩
  | error e => exact .error e

/-- One answer agrees with itself. -/
theorem of_eq {y y' : Except ε α} (h : y = y') : Agree Eq y y' := by
  subst h
  cases y with
  | ok a => exact .ok rfl
  | error e => exact .error e

end Agree

namespace Renaming

variable {ρ ρ' : Renaming}

/-! ## Steps and routes -/

/-- Whether two steps are one, up to names. -/
inductive Steps (ρ : Renaming) : Step → Step → Prop where
  | stay : Steps ρ .stay .stay
  | ascend : Steps ρ .ascend .ascend
  | descend {n n' : Name} (h : ρ.rel n n') : Steps ρ (.descend n) (.descend n')

/-- Whether two routes are one, up to names. -/
structure Routes (ρ : Renaming) (r r' : Route) : Prop where
  absolute : r.absolute = r'.absolute
  steps : List.Forall₂ ρ.Steps r.steps r'.steps
  slash : r.slash = r'.slash

/-- Whether two walks end at one place, up to its name. -/
inductive Places (ρ : Renaming) : Place → Place → Prop where
  | reached (dir : InodeId) : Places ρ (.reached dir) (.reached dir)
  | dots (dir : InodeId) (up : Bool) : Places ρ (.dots dir up) (.dots dir up)
  | entry (dir : InodeId) {n n' : Name} (h : ρ.rel n n') (slash : Bool) :
    Places ρ (.entry dir n slash) (.entry dir n' slash)

theorem nil_iff {l l' : List Step} (h : List.Forall₂ ρ.Steps l l') : l = [] ↔ l' = [] := by
  rw [← List.length_eq_zero_iff, h.length_eq, List.length_eq_zero_iff]

theorem Routes.mono {r r' : Route} (h : ρ.Routes r r') (hle : ∀ n n', ρ.rel n n' → ρ'.rel n n') :
    ρ'.Routes r r' where
  absolute := h.absolute
  steps := h.steps.imp fun _ _ hstep => by
    cases hstep with
    | stay => exact .stay
    | ascend => exact .ascend
    | descend hn => exact .descend (hle _ _ hn)
  slash := h.slash

theorem Routes.followedBy {r r' : Route} (h : ρ.Routes r r') {rest rest' : List Step}
    (hrest : List.Forall₂ ρ.Steps rest rest') (slash : Bool) :
    ρ.Routes (r.followedBy rest slash) (r'.followedBy rest' slash) := by
  unfold Route.followedBy
  cases hrest with
  | nil => exact ⟨h.absolute, h.steps, by simp [h.slash]⟩
  | cons hfirst hrest =>
    exact ⟨h.absolute, List.rel_append h.steps (.cons hfirst hrest), rfl⟩

/-- Whether two paths are one, up to names: what a walk and a check look at is the same. -/
structure Paths (ρ : Renaming) (p p' : Path) : Prop where
  nil_iff : p.bytes = [] ↔ p'.bytes = []
  long_iff : p.bytes.length ≥ Tree.maxPath ↔ p'.bytes.length ≥ Tree.maxPath
  hasNul : p.hasNul = p'.hasNul
  routes : ρ.Routes (.ofBytes p.bytes) (.ofBytes p'.bytes)

theorem Paths.mono {p p' : Path} (h : ρ.Paths p p') (hle : ∀ n n', ρ.rel n n' → ρ'.rel n n') :
    ρ'.Paths p p' := { h with routes := h.routes.mono hle }

/-! ## Entries -/

/-- Whether two directories hold the same, up to names. -/
def Entries (ρ : Renaming) (es es' : FinMap Name InodeId) : Prop :=
  List.Forall₂ (fun e e' => ρ.rel e.1 e'.1 ∧ e.2 = e'.2) es.entries es'.entries

namespace Entries

variable {es es' : FinMap Name InodeId} {n n' : Name}

theorem get? (h : ρ.Entries es es') (hn : ρ.rel n n') : es.get? n = es'.get? n' := by
  obtain ⟨l⟩ := es
  obtain ⟨l'⟩ := es'
  change FinMap.lookup n l = FinMap.lookup n' l'
  change List.Forall₂ _ l l' at h
  induction h with
  | nil => rfl
  | cons hfirst _ ih =>
    have hkey := ρ.eq_iff hfirst.1 hn
    rw [FinMap.lookup, FinMap.lookup, hfirst.2, ih]
    simp only [hkey]

theorem erase (h : ρ.Entries es es') (hn : ρ.rel n n') : ρ.Entries (es.erase n) (es'.erase n') := by
  refine List.rel_filter ?_ h
  intro e e' he
  simp only [ne_eq, decide_eq_true_eq]
  exact not_congr (ρ.eq_iff he.1 hn)

theorem insert (h : ρ.Entries es es') (hn : ρ.rel n n') (id : InodeId) :
    ρ.Entries (es.insert n id) (es'.insert n' id) := .cons ⟨hn, rfl⟩ (h.erase hn)

theorem isSome_findKey? (h : ρ.Entries es es') (p : InodeId → Bool) :
    (es.findKey? p).isSome = (es'.findKey? p).isSome := by
  obtain ⟨l⟩ := es
  obtain ⟨l'⟩ := es'
  change ((l.find? _).map _).isSome = ((l'.find? _).map _).isSome
  change List.Forall₂ _ l l' at h
  rw [Option.isSome_map, Option.isSome_map]
  induction h with
  | nil => rfl
  | @cons e e' _ _ hfirst _ ih =>
    rw [List.find?_cons, List.find?_cons, hfirst.2]
    cases p e'.2 with
    | true => rfl
    | false => exact ih

theorem nil_iff (h : ρ.Entries es es') : es.entries = [] ↔ es'.entries = [] := by
  rw [← List.length_eq_zero_iff, h.length_eq, List.length_eq_zero_iff]

theorem mono (h : ρ.Entries es es') (hle : ∀ n n', ρ.rel n n' → ρ'.rel n n') : ρ'.Entries es es' :=
  List.Forall₂.imp (fun _ _ he => ⟨hle _ _ he.1, he.2⟩) h

end Entries

/-! ## Files -/

/-- Whether two directories, regular files or symbolic links hold the same, up to names.  A link
leads where it led: its target has only names that stand for themselves. -/
inductive Contents (ρ : Renaming) : Content → Content → Prop where
  | file (data : Bytes) : Contents ρ (.file data) (.file data)
  | directory (parent : InodeId) {es es' : FinMap Name InodeId} (h : ρ.Entries es es') :
    Contents ρ (.directory parent es) (.directory parent es')
  | symlink {target : Bytes} (h : ρ.Routes (.ofBytes target) (.ofBytes target)) :
    Contents ρ (.symlink target) (.symlink target)

/-- Whether two files are alike, apart from permissions and owners.  Nothing of them is fixed. -/
structure Inodes (ρ : Renaming) (node node' : Inode) : Prop where
  content : ρ.Contents node.content node'.content
  volume : node.volume = node'.volume
  free : node.fixed = .nothing
  free' : node'.fixed = .nothing

namespace Contents

variable {c c' : Content}

theorem isDirectory (h : ρ.Contents c c') : c.isDirectory = c'.isDirectory := by
  cases h <;> rfl

theorem fileType (h : ρ.Contents c c') : c.fileType = c'.fileType := by
  cases h <;> rfl

theorem data? (h : ρ.Contents c c') : c.data? = c'.data? := by
  cases h <;> rfl

theorem mono (h : ρ.Contents c c') (hle : ∀ n n', ρ.rel n n' → ρ'.rel n n') : ρ'.Contents c c' := by
  cases h with
  | file data => exact .file data
  | directory parent hentries => exact .directory parent (hentries.mono hle)
  | symlink htarget => exact .symlink (htarget.mono hle)

end Contents

end Renaming

/-- Whether two trees hold the same under the same inode numbers, up to names, permissions and
owners. -/
structure Tree.Alike (ρ : Renaming) (t t' : Tree) : Prop where
  root : t.root = t'.root
  inode? : ∀ id, Option.Rel ρ.Inodes (t.inode? id) (t'.inode? id)
  distinct : t.inodes.keys.Nodup
  distinct' : t'.inodes.keys.Nodup

namespace Tree.Alike

variable {ρ : Renaming} {t t' : Tree} {n n' : Name}

/-! ## Looks -/

theorem content? (h : Alike ρ t t') (id : InodeId) :
    Option.Rel ρ.Contents (t.content? id) (t'.content? id) := by
  rw [Tree.content?, Tree.content?]
  rcases cases_of_rel (h.inode? id) with ⟨hx, hy⟩ | ⟨node, node', hx, hy, hnode⟩
  · rw [hx, hy]
    exact .none
  · rw [hx, hy]
    exact .some hnode.content

theorem entries? (h : Alike ρ t t') (id : InodeId) :
    Option.Rel ρ.Entries (t.entries? id) (t'.entries? id) := by
  rw [Tree.entries?, Tree.entries?]
  rcases cases_of_rel (h.content? id) with ⟨hx, hy⟩ | ⟨c, c', hx, hy, hcontent⟩
  · rw [hx, hy]
    exact .none
  · rw [hx, hy]
    cases hcontent with
    | directory parent hentries => exact .some hentries
    | _ => exact .none

theorem isSome_inode? (h : Alike ρ t t') (id : InodeId) :
    (t.inode? id).isSome = (t'.inode? id).isSome := by
  rcases cases_of_rel (h.inode? id) with ⟨hx, hy⟩ | ⟨node, node', hx, hy, -⟩
  · rw [hx, hy]
  · rw [hx, hy, Option.isSome_some, Option.isSome_some]

theorem isDirectory (h : Alike ρ t t') (id : InodeId) : t.isDirectory id = t'.isDirectory id := by
  rw [Tree.isDirectory, Tree.isDirectory]
  rcases cases_of_rel (h.entries? id) with ⟨hx, hy⟩ | ⟨es, es', hx, hy, -⟩
  · rw [hx, hy]
  · rw [hx, hy, Option.isSome_some, Option.isSome_some]

theorem child? (h : Alike ρ t t') (dir : InodeId) (hn : ρ.rel n n') :
    t.child? dir n = t'.child? dir n' := by
  rw [Tree.child?, Tree.child?]
  rcases cases_of_rel (h.entries? dir) with ⟨hx, hy⟩ | ⟨es, es', hx, hy, hentries⟩
  · rw [hx, hy]
    rfl
  · rw [hx, hy]
    exact hentries.get? hn

theorem parent (h : Alike ρ t t') (dir : InodeId) : t.parent dir = t'.parent dir := by
  rw [Tree.parent, Tree.parent]
  rcases cases_of_rel (h.content? dir) with ⟨hx, hy⟩ | ⟨c, c', hx, hy, hcontent⟩
  · rw [hx, hy]
  · rw [hx, hy]
    cases hcontent <;> rfl

theorem isLinked (h : Alike ρ t t') (dir : InodeId) : t.isLinked dir = t'.isLinked dir := by
  rw [Tree.isLinked, Tree.isLinked, Tree.nameOf?, Tree.nameOf?, h.root, h.parent]
  rcases cases_of_rel (h.entries? (t'.parent dir)) with ⟨hx, hy⟩ | ⟨es, es', hx, hy, hentries⟩
  · rw [hx, hy]
  · rw [hx, hy, Option.bind_some, Option.bind_some, hentries.isSome_findKey?]

theorem volume (h : Alike ρ t t') (id : InodeId) : t.volume id = t'.volume id := by
  rw [Tree.volume, Tree.volume]
  rcases cases_of_rel (h.inode? id) with ⟨hx, hy⟩ | ⟨node, node', hx, hy, hnode⟩
  · rw [hx, hy]
  · rw [hx, hy]
    exact hnode.volume

theorem isMount (h : Alike ρ t t') (dir : InodeId) : t.isMount dir = t'.isMount dir := by
  rw [Tree.isMount, Tree.isMount, h.isDirectory, h.parent, h.volume, h.volume]

theorem takesNames (h : Alike ρ t t') (dir : InodeId) : t.takesNames dir = t'.takesNames dir := by
  rw [Tree.takesNames, Tree.takesNames, h.isLinked, h.volume]

theorem find (h : Alike ρ t t') (dir : InodeId) (hn : ρ.rel n n') :
    t.find dir n = t'.find dir n' := by
  unfold Tree.find
  rw [h.child? dir hn, h.takesNames]
  simp only [ρ.long_iff hn]

/-- A process to which permissions do not apply passes the same directories. -/
theorem pass (h : Alike ρ t t') {who : Credentials} (hwho : who.privileged = true)
    (dir : InodeId) : t.pass who dir = t'.pass who dir := by
  unfold Tree.pass
  rcases cases_of_rel (h.inode? dir) with ⟨hx, hy⟩ | ⟨node, node', hx, hy, hnode⟩
  · rw [hx, hy]
  · rw [hx, hy]
    simp only [hnode.content.isDirectory, Credentials.may, hwho, Bool.true_or]

theorem lineage (h : Alike ρ t t') (fuel : Nat) (dir : InodeId) :
    t.lineage fuel dir = t'.lineage fuel dir := by
  induction fuel generalizing dir with
  | zero => rfl
  | succ fuel ih => rw [Tree.lineage, Tree.lineage, h.parent, ih]

/-! ## Walks -/

section Walks

variable {who : Credentials} {follow : Bool → Bool}
  {again again' : InodeId → Route → Except Errno Place}

/-- The contents under two names that stand for one another. -/
theorem linked (h : Alike ρ t t') (d : InodeId) (hn : ρ.rel n n') :
    Option.Rel ρ.Contents ((t.child? d n).bind t.content?) ((t'.child? d n').bind t'.content?) := by
  rw [h.child? d hn]
  cases t'.child? d n' with
  | none => exact .none
  | some id => exact h.content? id

/-- Going down to a name that is no link. -/
theorem walkWith_plain (h : Alike ρ t t') {slash : Bool} {d : InodeId} {rest rest' : List Step}
    (hnil : rest = [] ↔ rest' = [])
    (hrest : ∀ id, Agree ρ.Places (t.walkWith who follow again slash id rest)
      (t'.walkWith who follow again' slash id rest'))
    (hok : t.pass who d = .ok ()) (hok' : t'.pass who d = .ok ()) (hn : ρ.rel n n')
    (hlink : isLink ((t.child? d n).bind t.content?) = false)
    (hlink' : isLink ((t'.child? d n').bind t'.content?) = false) :
    Agree ρ.Places (t.walkWith who follow again slash d (.descend n :: rest))
      (t'.walkWith who follow again' slash d (.descend n' :: rest')) := by
  rw [walkWith_descend hok hlink, walkWith_descend hok' hlink']
  by_cases hlast : rest = []
  · rw [if_pos hlast, if_pos (hnil.1 hlast)]
    exact .ok (.entry d hn slash)
  · rw [if_neg hlast, if_neg (mt hnil.2 hlast), h.find d hn]
    cases t'.find d n' with
    | error e => exact .error e
    | ok found =>
      cases found with
      | none => exact .error _
      | some id =>
        simp only [h.isDirectory]
        split
        · exact hrest id
        · exact .error _

/-- A walk ends at the same place, if it does after every link. -/
theorem walkWith (h : Alike ρ t t') (hwho : who.privileged = true)
    (hagain : ∀ d r r', ρ.Routes r r' → Agree ρ.Places (again d r) (again' d r')) {slash : Bool}
    {steps steps' : List Step} (hsteps : List.Forall₂ ρ.Steps steps steps') (d : InodeId) :
    Agree ρ.Places (t.walkWith who follow again slash d steps)
      (t'.walkWith who follow again' slash d steps') := by
  induction hsteps generalizing d with
  | nil => exact .ok (.reached d)
  | @cons step step' rest rest' hstep hrest ih =>
    have hnil := Renaming.nil_iff hrest
    have hpass := h.pass hwho d
    cases hok : t.pass who d with
    | error e =>
      rw [Tree.walkWith_of_pass_eq_error hok,
        Tree.walkWith_of_pass_eq_error (hpass.symm.trans hok)]
      exact .error e
    | ok _ =>
      have hok' : t'.pass who d = .ok () := hpass.symm.trans hok
      cases hstep with
      | stay =>
        rw [Tree.walkWith_stay hok, Tree.walkWith_stay hok']
        by_cases hlast : rest = []
        · rw [if_pos hlast, if_pos (hnil.1 hlast)]
          exact .ok (.dots d false)
        · rw [if_neg hlast, if_neg (mt hnil.2 hlast)]
          exact ih d
      | ascend =>
        rw [Tree.walkWith_ascend hok, Tree.walkWith_ascend hok', h.parent]
        by_cases hlast : rest = []
        · rw [if_pos hlast, if_pos (hnil.1 hlast)]
          exact .ok (.dots d true)
        · rw [if_neg hlast, if_neg (mt hnil.2 hlast)]
          exact ih _
      | @descend n n' hn =>
        rcases cases_of_rel (h.linked d hn) with ⟨hx, hy⟩ | ⟨c, c', hx, hy, hcontent⟩
        · exact h.walkWith_plain hnil (fun id => ih id) hok hok' hn (by rw [hx]; rfl)
            (by rw [hy]; rfl)
        · cases hcontent with
          | symlink htarget =>
            rw [walkWith_symlink hok hx, walkWith_symlink hok' hy]
            by_cases hlast : rest = []
            · rw [hlast, hnil.1 hlast]
              cases follow slash with
              | false => exact .ok (.entry d hn slash)
              | true => exact hagain d _ _ (htarget.followedBy .nil slash)
            · rw [if_neg (by simp [hlast]), if_neg (by simp [mt hnil.2 hlast])]
              exact hagain d _ _ (htarget.followedBy hrest slash)
          | _ =>
            exact h.walkWith_plain hnil (fun id => ih id) hok hok' hn (by rw [hx]; rfl)
              (by rw [hy]; rfl)

/-- A walk on which only so many links are followed ends at the same place. -/
theorem walk (h : Alike ρ t t') (hwho : who.privileged = true) (budget : Nat) (d : InodeId)
    {r r' : Route} (hr : ρ.Routes r r') :
    Agree ρ.Places (t.walk who follow budget d r) (t'.walk who follow budget d r') := by
  induction budget generalizing d r r' with
  | zero =>
    rw [Tree.walk, Tree.walk, hr.absolute, hr.slash, h.root]
    exact h.walkWith hwho (fun _ _ _ _ => .error _) hr.steps _
  | succ budget ih =>
    rw [Tree.walk, Tree.walk, hr.absolute, hr.slash, h.root]
    exact h.walkWith hwho (fun d _ _ hr => ih d hr) hr.steps _

/-- A path leads to the same place. -/
theorem locate (h : Alike ρ t t') (hwho : who.privileged = true) (cwd : InodeId)
    {path path' : Path} (hpath : ρ.Paths path path') :
    Agree ρ.Places (t.locate who cwd follow path) (t'.locate who cwd follow path') := by
  unfold Tree.locate
  simp only [hpath.nil_iff, hpath.long_iff]
  split
  · exact .error _
  · split
    · exact .error _
    · exact h.walk hwho _ _ hpath.routes

theorem inodeAt (h : Alike ρ t t') {place place' : Place} (hplace : ρ.Places place place') :
    t.inodeAt place = t'.inodeAt place' := by
  cases hplace with
  | reached dir => rfl
  | dots dir up => rw [Tree.inodeAt, Tree.inodeAt, h.parent]
  | entry dir hn slash =>
    rw [Tree.inodeAt, Tree.inodeAt, h.find dir hn]
    simp only [h.isDirectory]

/-- A path leads to the same inode. -/
theorem resolve (h : Alike ρ t t') (hwho : who.privileged = true) (cwd : InodeId)
    {path path' : Path} (hpath : ρ.Paths path path') :
    Agree Eq (t.resolve who cwd follow path) (t'.resolve who cwd follow path') :=
  (h.locate hwho cwd hpath).bind fun _ _ hplace => .of_eq (h.inodeAt hplace)

end Walks

end Tree.Alike

/-! ## The keys of a map -/

namespace FinMap

variable {κ α : Type} [DecidableEq κ] {m : FinMap κ α}

theorem keys_erase (m : FinMap κ α) (k : κ) : (m.erase k).keys = m.keys.filter (· ≠ k) := by
  rw [keys, erase, keys, List.filter_map]
  rfl

theorem nodup_keys_insert (h : m.keys.Nodup) (k : κ) (v : α) : (m.insert k v).keys.Nodup := by
  change (k :: (m.erase k).keys).Nodup
  rw [keys_erase, List.nodup_cons]
  exact ⟨by simp, h.filter _⟩

theorem nodup_keys_modify (h : m.keys.Nodup) (k : κ) (f : α → α) : (m.modify k f).keys.Nodup := by
  unfold modify
  split
  · exact nodup_keys_insert h _ _
  · exact h

theorem mem_keys_iff (m : FinMap κ α) (k : κ) : k ∈ m.keys ↔ (m.get? k).isSome = true := by
  obtain ⟨l⟩ := m
  change k ∈ l.map Prod.fst ↔ (lookup k l).isSome = true
  induction l with
  | nil => simp [lookup]
  | cons e rest ih =>
    rw [List.map_cons, List.mem_cons, lookup]
    by_cases h : e.1 = k
    · simp [h]
    · rw [if_neg h, ih]
      simp [Ne.symm h]

/-- Two maps with distinct and the same keys have as many entries. -/
theorem length_entries_eq {β : Type} {m' : FinMap κ β} (h : m.keys.Nodup) (h' : m'.keys.Nodup)
    (hsame : ∀ k, (m.get? k).isSome = (m'.get? k).isSome) :
    m.entries.length = m'.entries.length := by
  have hperm : m.keys.Perm m'.keys := by
    refine (List.perm_ext_iff_of_nodup h h').2 fun k => ?_
    rw [mem_keys_iff, mem_keys_iff, hsame]
  have hlength := hperm.length_eq
  rwa [keys, keys, List.length_map, List.length_map] at hlength

theorem above_le_iff (l : List (Nat × α)) (bound : Nat) :
    above l ≤ bound ↔ ∀ k ∈ l.map Prod.fst, k < bound := by
  induction l with
  | nil => simp [above]
  | cons e rest ih =>
    rw [above, Nat.max_le, ih, Nat.add_one_le_iff, List.map_cons, List.forall_mem_cons]

/-- Two maps with the same keys have the same key that is not in use. -/
theorem fresh_eq {m : FinMap Nat α} {β : Type} {m' : FinMap Nat β}
    (hsame : ∀ k, (m.get? k).isSome = (m'.get? k).isSome) : m.fresh = m'.fresh := by
  have hkeys : ∀ k, k ∈ m.keys ↔ k ∈ m'.keys := fun k => by
    rw [mem_keys_iff, mem_keys_iff, hsame]
  refine Nat.le_antisymm ((above_le_iff _ _).2 fun k hk => ?_)
    ((above_le_iff _ _).2 fun k hk => ?_)
  · exact (above_le_iff _ _).1 (Nat.le_refl m'.fresh) k ((hkeys k).1 hk)
  · exact (above_le_iff _ _).1 (Nat.le_refl m.fresh) k ((hkeys k).2 hk)

end FinMap

namespace Tree.Alike

variable {ρ ρ' : Renaming} {t t' : Tree} {n n' : Name}

theorem nextId (h : Alike ρ t t') : t.nextId = t'.nextId := FinMap.fresh_eq h.isSome_inode?

theorem isWithin (h : Alike ρ t t') (above dir : InodeId) :
    t.isWithin above dir = t'.isWithin above dir := by
  rw [Tree.isWithin, Tree.isWithin, h.lineage,
    FinMap.length_entries_eq h.distinct h.distinct' h.isSome_inode?]

theorem mono (h : Alike ρ t t') (hle : ∀ n n', ρ.rel n n' → ρ'.rel n n') : Alike ρ' t t' :=
  { h with
    inode? := fun id => by
      rcases cases_of_rel (h.inode? id) with ⟨hx, hy⟩ | ⟨node, node', hx, hy, hnode⟩
      · rw [hx, hy]
        exact .none
      · rw [hx, hy]
        exact .some { hnode with content := hnode.content.mono hle } }

/-! ## Changes -/

/-- One inode is changed in both trees. -/
theorem updateInode (h : Alike ρ t t') (id : InodeId) {f f' : Inode → Inode}
    (hf : ∀ node node', ρ.Inodes node node' → ρ.Inodes (f node) (f' node')) :
    Alike ρ (t.updateInode id f) (t'.updateInode id f') where
  root := h.root
  inode? i := by
    rw [inode?_updateInode, inode?_updateInode]
    split
    · rcases cases_of_rel (h.inode? id) with ⟨hx, hy⟩ | ⟨node, node', hx, hy, hnode⟩
      · rw [hx, hy]
        exact .none
      · rw [hx, hy]
        exact .some (hf _ _ hnode)
    · exact h.inode? i
  distinct := FinMap.nodup_keys_modify h.distinct _ _
  distinct' := FinMap.nodup_keys_modify h.distinct' _ _

/-- Permissions of the first tree do not count. -/
theorem updateInode_left (h : Alike ρ t t') (id : InodeId) {f : Inode → Inode}
    (hf : ∀ node node', ρ.Inodes node node' → ρ.Inodes (f node) node') :
    Alike ρ (t.updateInode id f) t' where
  root := h.root
  inode? i := by
    rw [inode?_updateInode]
    split
    · rename_i hi
      subst hi
      rcases cases_of_rel (h.inode? i) with ⟨hx, hy⟩ | ⟨node, node', hx, hy, hnode⟩
      · rw [hx, hy]
        exact .none
      · rw [hx, hy]
        exact .some (hf _ _ hnode)
    · exact h.inode? i
  distinct := FinMap.nodup_keys_modify h.distinct _ _
  distinct' := h.distinct'

theorem updateEntries (h : Alike ρ t t') (dir : InodeId)
    {f f' : FinMap Name InodeId → FinMap Name InodeId}
    (hf : ∀ es es', ρ.Entries es es' → ρ.Entries (f es) (f' es')) :
    Alike ρ (t.updateEntries dir f) (t'.updateEntries dir f') := by
  refine h.updateInode dir fun node node' hnode => ?_
  obtain ⟨content, perm, uid, gid, volume, fixed⟩ := node
  obtain ⟨content', perm', uid', gid', volume', fixed'⟩ := node'
  have hcontent : ρ.Contents content content' := hnode.content
  cases hcontent with
  | directory parent hentries =>
    exact ⟨.directory parent (hf _ _ hentries), hnode.volume, hnode.free, hnode.free'⟩
  | _ => exact hnode

theorem setEntry (h : Alike ρ t t') (dir : InodeId) (hn : ρ.rel n n') (id : InodeId) :
    Alike ρ (t.setEntry dir n id) (t'.setEntry dir n' id) :=
  h.updateEntries dir fun _ _ hes => hes.insert hn id

theorem removeEntry (h : Alike ρ t t') (dir : InodeId) (hn : ρ.rel n n') :
    Alike ρ (t.removeEntry dir n) (t'.removeEntry dir n') :=
  h.updateEntries dir fun _ _ hes => hes.erase hn

theorem setParent (h : Alike ρ t t') (dir parent : InodeId) :
    Alike ρ (t.setParent dir parent) (t'.setParent dir parent) := by
  refine h.updateInode dir fun node node' hnode => ?_
  obtain ⟨content, perm, uid, gid, volume, fixed⟩ := node
  obtain ⟨content', perm', uid', gid', volume', fixed'⟩ := node'
  have hcontent : ρ.Contents content content' := hnode.content
  cases hcontent with
  | directory _ hentries =>
    exact ⟨.directory parent hentries, hnode.volume, hnode.free, hnode.free'⟩
  | _ => exact hnode

/-- One inode is added to both trees. -/
theorem addInode (h : Alike ρ t t') {node node' : Inode} (hnode : ρ.Inodes node node') :
    Alike ρ (t.addInode node) (t'.addInode node') where
  root := h.root
  inode? i := by
    rw [inode?_addInode, inode?_addInode, h.nextId]
    split
    · exact .some hnode
    · exact h.inode? i
  distinct := FinMap.nodup_keys_insert h.distinct _ _
  distinct' := FinMap.nodup_keys_insert h.distinct' _ _

theorem addEntry (h : Alike ρ t t') (dir : InodeId) (hn : ρ.rel n n') {node node' : Inode}
    (hnode : ρ.Inodes node node') :
    Alike ρ (t.addEntry dir n node) (t'.addEntry dir n' node') := by
  rw [Tree.addEntry, Tree.addEntry, h.nextId]
  exact (h.addInode hnode).setEntry dir hn _

end Tree.Alike

end PortableFiles
