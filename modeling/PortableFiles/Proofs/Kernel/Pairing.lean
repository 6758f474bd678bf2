import PortableFiles.Proofs.Kernel.AlikeMachines
import PortableFiles.Proofs.Path.Sibling
set_option autoImplicit false

/-!
# Kept names and one pair

Two renamings.  In one, every name of some kind stands for itself and no other name stands for
anything (`Renaming.keeping`); trees that are alike in this way hold the same
(`Tree.Alike.content?_eq`).  The other has one pair of further names (`Renaming.pairing`), as a file
that is made under a drawn name has on two machines that draw differently.  When the first of the
trees has no such name any more, nor has the second (`Tree.Alike.keeping_of_pairing`).
-/

namespace PortableFiles

variable {P : Name → Prop} {n n' : Name}

/-! ## Names of one kind -/

/-- Whether all names along a route are of one kind. -/
def Route.Named (P : Name → Prop) (r : Route) : Prop := ∀ n, Step.descend n ∈ r.steps → P n

/-- Whether all names along a path are of one kind. -/
def Path.Named (P : Name → Prop) (p : Path) : Prop := (Route.ofBytes p.bytes).Named P

/-- Whether all names in a tree are of one kind: those of its entries and those along the targets of
its links. -/
structure Tree.Named (P : Name → Prop) (t : Tree) : Prop where
  entries : ∀ dir n id, t.child? dir n = some id → P n
  targets : ∀ id target, t.content? id = some (.symlink target) → (Route.ofBytes target).Named P

/-- Whether this is a regular file, a directory or a symbolic link. -/
def Content.isPlain : Content → Bool
  | .file _ | .directory .. | .symlink _ => true
  | _ => false

/-- Whether a tree is one of regular files, directories and symbolic links, which anybody with the
rights may change. -/
structure Tree.Plain (t : Tree) : Prop where
  contents : ∀ id node, t.inode? id = some node → node.content.isPlain = true
  free : ∀ id node, t.inode? id = some node → node.fixed = .nothing
  distinct : t.inodes.keys.Nodup

/-! ### Checks -/

/-- The check that all names along a route are of one kind. -/
def Route.allNamed (p : Name → Bool) (r : Route) : Bool :=
  r.steps.all fun
    | .descend n => p n
    | _ => true

theorem Route.named_of_allNamed {r : Route} {p : Name → Bool} (h : r.allNamed p = true)
    (hp : ∀ n, p n = true → P n) : r.Named P :=
  fun n hn => hp n (List.all_eq_true.1 h (.descend n) hn)

namespace Tree

variable {t : Tree}

/-- The check that all names in a tree are of one kind. -/
def allNamed (p : Name → Bool) (t : Tree) : Bool :=
  t.inodes.entries.all fun e =>
    match e.2.content with
    | .directory _ entries => entries.keys.all p
    | .symlink target => (Route.ofBytes target).allNamed p
    | _ => true

/-- A tree that passes the check has names of one kind only. -/
theorem named_of_allNamed {p : Name → Bool} (h : t.allNamed p = true)
    (hp : ∀ n, p n = true → P n) : t.Named P where
  entries dir n id hchild := by
    obtain ⟨es, hes, hid⟩ := Option.bind_eq_some_iff.1 hchild
    obtain ⟨content, hcontent, hentries⟩ := Option.bind_eq_some_iff.1 hes
    obtain ⟨node, hnode, rfl⟩ := Option.map_eq_some_iff.1 hcontent
    have hcheck := List.all_eq_true.1 h _ (FinMap.mem_entries_of_get?_eq_some hnode)
    cases hc : node.content with
    | directory parent held =>
      rw [hc] at hentries
      cases hentries
      simp only [hc] at hcheck
      refine hp n (List.all_eq_true.1 hcheck n ((FinMap.mem_keys_iff _ _).2 ?_))
      exact Option.isSome_of_mem hid
    | _ =>
      rw [hc] at hentries
      cases hentries
  targets id target htarget := by
    obtain ⟨node, hnode, hcontent⟩ := Option.map_eq_some_iff.1 htarget
    have hcheck := List.all_eq_true.1 h _ (FinMap.mem_entries_of_get?_eq_some hnode)
    simp only [hcontent] at hcheck
    exact Route.named_of_allNamed hcheck hp

/-- The check of a tree for plain files that anybody with the rights may change. -/
def isPlain (t : Tree) : Bool :=
  (t.inodes.entries.all fun e => e.2.content.isPlain && e.2.fixed = .nothing)
    && decide t.inodes.keys.Nodup

theorem plain_of_isPlain (h : t.isPlain = true) : t.Plain := by
  rw [isPlain, Bool.and_eq_true, List.all_eq_true, decide_eq_true_iff] at h
  obtain ⟨hall, hdistinct⟩ := h
  have hcheck : ∀ id node, t.inode? id = some node →
      node.content.isPlain = true ∧ node.fixed = .nothing := fun id node hnode => by
    simpa using hall _ (FinMap.mem_entries_of_get?_eq_some hnode)
  exact ⟨fun id node h => (hcheck id node h).1, fun id node h => (hcheck id node h).2, hdistinct⟩

end Tree

/-- The name of an entry leads somewhere. -/
theorem Tree.exists_child? {t : Tree} {dir parent : InodeId} {es : FinMap Name InodeId}
    (hdir : t.content? dir = some (.directory parent es)) {e : Name × InodeId}
    (he : e ∈ es.entries) : ∃ id, t.child? dir e.1 = some id := by
  have hkey : e.1 ∈ es.keys := List.mem_map_of_mem he
  rw [FinMap.mem_keys_iff] at hkey
  obtain ⟨id, hid⟩ := Option.isSome_iff_exists.1 hkey
  refine ⟨id, ?_⟩
  rw [child?, entries?, hdir]
  exact hid

namespace Renaming

/-! ## Kept names -/

/-- Every name of one kind stands for itself. -/
def keeping (P : Name → Prop) : Renaming where
  rel n n' := n' = n ∧ P n
  eq_iff := by
    rintro a _ b _ ⟨rfl, -⟩ ⟨rfl, -⟩
    exact Iff.rfl
  long_iff := by
    rintro a _ ⟨rfl, -⟩
    exact Iff.rfl

theorem routes_keeping {r : Route} (h : r.Named P) : (keeping P).Routes r r where
  absolute := rfl
  steps := List.forall₂_same.2 fun step hstep => by
    cases step with
    | stay => exact .stay
    | ascend => exact .ascend
    | descend n => exact .descend ⟨rfl, h n hstep⟩
  slash := rfl

theorem named_of_routes {r : Route} (h : (keeping P).Routes r r) : r.Named P := by
  intro n hn
  have hstep := List.forall₂_same.1 h.steps _ hn
  cases hstep with
  | descend hn => exact hn.2

theorem paths_keeping {p : Path} (h : p.Named P) : (keeping P).Paths p p :=
  ⟨Iff.rfl, Iff.rfl, rfl, routes_keeping h⟩

/-- Directories with the same names hold the same. -/
theorem entries_eq {es es' : FinMap Name InodeId} (h : (keeping P).Entries es es') : es = es' := by
  refine congrArg FinMap.mk ?_
  have heq : List.Forall₂ Eq es.entries es'.entries :=
    h.imp fun e e' he => Prod.ext he.1.1.symm he.2
  exact List.forall₂_eq_eq_eq ▸ heq

/-! ## One pair -/

/-- A name that a new file can have, which a walk goes down to. -/
structure IsProper (name : Name) : Prop where
  isPlain : Path.IsPlain name
  step : Route.stepOf name = .descend name
  noNul : 0 ∉ name
  short : name.length ≤ Tree.maxName

/-- Two names that are not of some kind. -/
structure Pair (P : Name → Prop) where
  left : Name
  right : Name
  left_new : ¬ P left
  right_new : ¬ P right
  left_proper : IsProper left
  right_proper : IsProper right

/-- Every name of one kind stands for itself, and one name that is not of this kind for another. -/
def pairing (p : Pair P) : Renaming where
  rel n n' := (n' = n ∧ P n) ∨ (n = p.left ∧ n' = p.right)
  eq_iff := by
    have hleft : ∀ n, P n → n ≠ p.left := by
      rintro _ hn rfl
      exact p.left_new hn
    have hright : ∀ n, P n → n ≠ p.right := by
      rintro _ hn rfl
      exact p.right_new hn
    rintro a _ b _ (⟨rfl, ha⟩ | ⟨rfl, rfl⟩) (⟨rfl, hb⟩ | ⟨rfl, rfl⟩)
    · exact Iff.rfl
    · exact iff_of_false (hleft _ ha) (hright _ ha)
    · exact iff_of_false (hleft _ hb).symm (hright _ hb).symm
    · exact iff_of_true rfl rfl
  long_iff := by
    rintro a _ (⟨rfl, -⟩ | ⟨rfl, rfl⟩)
    · exact Iff.rfl
    · exact iff_of_false (Nat.not_lt.2 p.left_proper.short) (Nat.not_lt.2 p.right_proper.short)

theorem rel_pairing (p : Pair P) (h : (keeping P).rel n n') : (pairing p).rel n n' := Or.inl h

theorem pair_rel_pairing (p : Pair P) : (pairing p).rel p.left p.right := Or.inr ⟨rfl, rfl⟩

theorem hasNul_join {dir : Path} {name : Name} (h : IsProper name) :
    (dir.join name).hasNul = dir.hasNul := by
  have hhead : ¬ name.head? = some Path.slash := by
    intro hslash
    exact h.isPlain.noSlash Path.slash (List.mem_of_head? hslash) rfl
  have hname : name.contains 0 = false := by simpa using h.noNul
  have hslash : (0 : UInt8) ≠ Path.slash := by decide
  unfold Path.join Path.hasNul
  rw [if_neg hhead]
  split
  · rw [List.contains_append, hname, Bool.or_false]
  · rw [List.contains_append, List.contains_cons, hname]
    simp [hslash]

/-- The pair in one directory makes two paths that are one, up to names. -/
theorem paths_pairing {dir : Path} (hdir : dir.Named P) (hne : dir.bytes ≠ []) (p : Pair P)
    (hlong : (dir.join p.left).bytes.length ≥ Tree.maxPath
      ↔ (dir.join p.right).bytes.length ≥ Tree.maxPath) :
    (pairing p).Paths (dir.join p.left) (dir.join p.right) := by
  have hnonempty : ∀ {name : Name}, IsProper name → (dir.join name).bytes ≠ [] := by
    intro name hname hnil
    have hnames := Path.names_join dir hname.isPlain
    rw [hnil] at hnames
    simp [Path.names_nil] at hnames
  have hsteps : ∀ {name : Name}, IsProper name → (Route.ofBytes (dir.join name).bytes).steps
      = (Route.ofBytes dir.bytes).steps ++ [.descend name] := by
    intro name hname
    rw [Path.steps_ofBytes, Path.names_join dir hname.isPlain, List.map_append, List.map_singleton,
      hname.step, Path.steps_ofBytes]
  refine ⟨iff_of_false (hnonempty p.left_proper) (hnonempty p.right_proper), hlong, ?_, ?_, ?_, ?_⟩
  · rw [hasNul_join p.left_proper, hasNul_join p.right_proper]
  · exact (Path.isAbsolute_join p.left_proper.isPlain hne).trans
      (Path.isAbsolute_join p.right_proper.isPlain hne).symm
  · rw [hsteps p.left_proper, hsteps p.right_proper]
    refine List.rel_append ((routes_keeping hdir).mono fun _ _ => rel_pairing p).steps ?_
    exact .cons (.descend (pair_rel_pairing p)) .nil
  · rw [Route.slash_ofBytes_join dir p.left_proper.isPlain,
      Route.slash_ofBytes_join dir p.right_proper.isPlain]

end Renaming

open Renaming (keeping pairing Pair)

/-! ## The directory of a path -/

/-- The names along the directory of a path are names along the path. -/
theorem Path.Named.parentDir {p : Path} (h : p.Named P) : p.parentDir.Named P := by
  have hdot : ∀ n, Step.descend n ∉ (Route.ofBytes current.bytes).steps := by
    intro n hn
    cases List.mem_singleton.1 hn
  unfold Path.parentDir
  split
  · rename_i parent hparent
    split
    · exact fun n hn => absurd hn (hdot n)
    · intro n hn
      refine h n ?_
      rw [steps_ofBytes] at hn ⊢
      obtain ⟨component, hcomponent, hstep⟩ := List.mem_map.1 hn
      refine List.mem_map.2 ⟨component, ?_, hstep⟩
      rcases parent?_eq_some hparent with hnil | ⟨kept, others, hpieces, hlast, hbytes⟩
      · rw [hnil] at hcomponent
        cases hcomponent
      · rw [hbytes, names_anchor_append hpieces hlast] at hcomponent
        rw [names_eq, hpieces, List.filter_append, ← List.append_assoc]
        exact List.mem_append_left _ hcomponent
  · exact fun n hn => absurd hn (hdot n)

/-! ## Trees -/

namespace Tree

variable {t t' : Tree}

/-- A tree in which all names are of one kind is like itself. -/
theorem Plain.alike (h : t.Plain) (hnamed : t.Named P) : t.Alike (keeping P) t where
  root := rfl
  inode? id := by
    cases hnode : t.inode? id with
    | none => exact .none
    | some node =>
      refine .some ⟨?_, rfl, h.free id node hnode, h.free id node hnode⟩
      have hplain := h.contents id node hnode
      have hcontent : t.content? id = some node.content := by rw [content?, hnode]; rfl
      cases hc : node.content with
      | file data => exact .file data
      | directory parent es =>
        rw [hc] at hcontent
        refine .directory parent (List.forall₂_same.2 fun e he => ⟨⟨rfl, ?_⟩, rfl⟩)
        obtain ⟨child, hchild⟩ := exists_child? hcontent he
        exact hnamed.entries id e.1 child hchild
      | symlink target =>
        rw [hc] at hcontent
        exact .symlink (Renaming.routes_keeping (hnamed.targets id target hcontent))
      | _ =>
        rw [hc] at hplain
        cases hplain
  distinct := h.distinct
  distinct' := h.distinct

namespace Alike

/-- Trees with the same names hold the same. -/
theorem content?_eq (h : t.Alike (keeping P) t') (id : InodeId) :
    t.content? id = t'.content? id := by
  rcases cases_of_rel (h.content? id) with ⟨hx, hy⟩ | ⟨c, c', hx, hy, hcontent⟩
  · rw [hx, hy]
  · rw [hx, hy]
    cases hcontent with
    | directory parent hentries => rw [Renaming.entries_eq hentries]
    | _ => rfl

/-- The names of trees that are alike are of the kind that is kept. -/
theorem named (h : t.Alike (keeping P) t') : t.Named P where
  entries dir n id hchild := by
    rw [Tree.child?] at hchild
    rcases cases_of_rel (h.entries? dir) with ⟨hx, -⟩ | ⟨es, es', hx, -, hentries⟩
    · rw [hx] at hchild
      cases hchild
    · rw [hx] at hchild
      obtain rfl := Renaming.entries_eq hentries
      have hmem := FinMap.mem_entries_of_get?_eq_some hchild
      exact (List.forall₂_same.1 hentries _ hmem).1.2
  targets id target htarget := by
    rcases cases_of_rel (h.content? id) with ⟨hx, -⟩ | ⟨c, c', hx, -, hcontent⟩
    · rw [htarget] at hx
      cases hx
    · rw [htarget] at hx
      cases hx
      cases hcontent with
      | symlink hroutes => exact Renaming.named_of_routes hroutes

/-- When a pair of names is gone from the first tree, it is gone from both. -/
theorem keeping_of_pairing {p : Pair P} (h : t.Alike (pairing p) t') (hnamed : t.Named P) :
    t.Alike (keeping P) t' :=
  { h with
    inode? := fun id => by
      rcases cases_of_rel (h.inode? id) with ⟨hx, hy⟩ | ⟨node, node', hx, hy, hnode⟩
      · rw [hx, hy]
        exact .none
      · rw [hx, hy]
        refine .some { hnode with content := ?_ }
        have hcontent : t.content? id = some node.content := by rw [Tree.content?, hx]; rfl
        have hrel := hnode.content
        generalize node.content = c, node'.content = c' at hcontent hrel
        cases hrel with
        | file data => exact .file data
        | symlink _ => exact .symlink (Renaming.routes_keeping (hnamed.targets id _ hcontent))
        | @directory parent es _ hentries =>
          have hkept : ∀ e ∈ es.entries, P e.1 := fun e he => by
            obtain ⟨child, hchild⟩ := exists_child? hcontent he
            exact hnamed.entries id e.1 child hchild
          refine .directory parent (((List.forall₂_and_left _ _).2 ⟨hkept, hentries⟩).imp ?_)
          rintro e e' ⟨hname, hkeep | ⟨hpair, -⟩, hid⟩
          · exact ⟨hkeep, hid⟩
          · rw [hpair] at hname
            exact absurd hname p.left_new }

end Alike

/-! ## Names after a new file -/

theorem Named.of_same (h : t.Named P) (hsame : t'.Same t) : t'.Named P where
  entries dir n id hchild := h.entries dir n id (by rwa [← hsame.child?])
  targets id target htarget := h.targets id target (by rwa [← hsame.content?])

/-- A file without a name brings no name. -/
theorem Named.addInode (h : t.Named P) {node : Inode} {data : Bytes}
    (hnode : node.content = .file data) : (t.addInode node).Named P where
  entries dir n id hchild := by
    rw [child?_addInode dir hnode] at hchild
    exact h.entries dir n id hchild
  targets id target htarget := by
    rw [content?, inode?_addInode] at htarget
    split at htarget
    · rw [Option.map_some, hnode] at htarget
      cases htarget
    · exact h.targets id target htarget

/-- A file with a name brings that name. -/
theorem Named.addEntry (h : t.Named P) {dir : InodeId} (hdir : t.isDirectory dir = true) (hn : P n)
    {node : Inode} {data : Bytes} (hnode : node.content = .file data) :
    (t.addEntry dir n node).Named P where
  entries d x id hchild := by
    by_cases hplace : d = dir ∧ x = n
    · rw [hplace.2]
      exact hn
    · rw [child?_addEntry_of_ne hdir hnode hplace] at hchild
      exact h.entries d x id hchild
  targets id target htarget := by
    by_cases hid : id = t.nextId
    · rw [content?, hid, inode?_addEntry_nextId hdir, Option.map_some, hnode] at htarget
      cases htarget
    · obtain ⟨f, hf⟩ := inode?_addEntry_eq_map n node hdir hid
      rw [content?, hf] at htarget
      refine h.targets id target ?_
      rw [content?]
      cases hold : t.inode? id with
      | none => simp [hold] at htarget
      | some old =>
        rw [hold, Option.map_some, Option.map_some] at htarget
        rw [Option.map_some]
        obtain ⟨content, _, _, _, _, _⟩ := old
        cases content <;> simp_all [Inode.mapEntries]

end Tree

end PortableFiles
