import Mathlib.Logic.Relation
import PortableFiles.Path.Extended
set_option autoImplicit false

/-!
# Resolving components

What a list of components comes down to, said without a stack: empty components and `.` may be left
out, a name may be left out together with a `..` right after it, and so may a `..` with nothing
before it.  Every list comes down to names in this way, and always to the same ones, which are those
that `resolve` finds (`ExtendedPath.resolvesTo_iff`).
-/

namespace PortableFiles.ExtendedPath

variable {components names shorter : List Bytes} {name : Bytes}

/-- Whether a component is a name: it is not empty, not `.` and not `..`. -/
def IsName (component : Bytes) : Prop :=
  component ≠ [] ∧ component ≠ [dot] ∧ component ≠ [dot, dot]

/-- Leaving something out of a list of components that does not change what they lead to. -/
inductive Shortens : List Bytes → List Bytes → Prop where
  /-- An empty component or `.` stays where it is. -/
  | stay (before after : List Bytes) {component : Bytes}
      (h : component = [] ∨ component = [dot]) :
      Shortens (before ++ component :: after) (before ++ after)
  /-- `..` takes the name before it back. -/
  | back (before after : List Bytes) {name : Bytes} (h : IsName name) :
      Shortens (before ++ name :: [dot, dot] :: after) (before ++ after)
  /-- `..` does not lead above the root. -/
  | root (after : List Bytes) : Shortens ([dot, dot] :: after) after

/-- Whether components come down to these names. -/
def ResolvesTo (components names : List Bytes) : Prop :=
  Relation.ReflTransGen Shortens components names ∧ ∀ name ∈ names, IsName name

/-! ## One component at a time -/

theorem resolveFrom_stay {component : Bytes} (h : component = [] ∨ component = [dot])
    (stack rest : List Bytes) :
    resolveFrom stack (component :: rest) = resolveFrom stack rest := by
  rw [resolveFrom, if_pos h]

theorem resolveFrom_back (stack rest : List Bytes) :
    resolveFrom stack ([dot, dot] :: rest) = resolveFrom stack.tail rest := by
  rw [resolveFrom, if_neg (by decide), if_pos rfl]

theorem resolveFrom_name (h : IsName name) (stack rest : List Bytes) :
    resolveFrom stack (name :: rest) = resolveFrom (name :: stack) rest := by
  rw [resolveFrom, if_neg (not_or.2 ⟨h.1, h.2.1⟩), if_neg h.2.2]

/-- A component that is no name stays where it is or leads back. -/
theorem component_cases (component : Bytes) :
    (component = [] ∨ component = [dot]) ∨ component = [dot, dot] ∨ IsName component := by
  by_cases hstay : component = [] ∨ component = [dot]
  · exact .inl hstay
  · obtain ⟨hempty, hdot⟩ := not_or.1 hstay
    by_cases hback : component = [dot, dot]
    · exact .inr (.inl hback)
    · exact .inr (.inr ⟨hempty, hdot, hback⟩)

/-! ## What is left out does not matter -/

theorem resolveFrom_append (stack first second : List Bytes) :
    resolveFrom stack (first ++ second) = resolveFrom (resolveFrom stack first).reverse second := by
  induction first generalizing stack with
  | nil => rw [List.nil_append, resolveFrom, List.reverse_reverse]
  | cons component rest ih =>
    rw [List.cons_append]
    rcases component_cases component with hstay | rfl | hname
    · rw [resolveFrom_stay hstay, resolveFrom_stay hstay, ih]
    · rw [resolveFrom_back, resolveFrom_back, ih]
    · rw [resolveFrom_name hname, resolveFrom_name hname, ih]

/-- Leaving something out changes nothing. -/
theorem Shortens.resolve_eq (h : Shortens components shorter) :
    resolve components = resolve shorter := by
  cases h with
  | stay before after h =>
    rw [resolve, resolve, resolveFrom_append, resolveFrom_append, resolveFrom_stay h]
  | back before after h =>
    rw [resolve, resolve, resolveFrom_append, resolveFrom_append, resolveFrom_name h,
      resolveFrom_back, List.tail_cons]
  | root after => rw [resolve, resolve, resolveFrom_back, List.tail_nil]

theorem resolve_eq_of_shortens (h : Relation.ReflTransGen Shortens components shorter) :
    resolve components = resolve shorter := by
  induction h with
  | refl => rfl
  | tail _ hstep ih => rw [ih, hstep.resolve_eq]

/-! ## What is left are names -/

/-- Names stay as they are. -/
theorem resolveFrom_names (h : ∀ name ∈ names, IsName name) (stack : List Bytes) :
    resolveFrom stack names = stack.reverse ++ names := by
  induction names generalizing stack with
  | nil => rw [resolveFrom, List.append_nil]
  | cons name rest ih =>
    obtain ⟨hname, hrest⟩ := List.forall_mem_cons.1 h
    rw [resolveFrom_name hname, ih hrest, List.reverse_cons, List.append_assoc,
      List.singleton_append]

/-- All that is found are names among the components and those that were there before. -/
theorem mem_resolveFrom {stack : List Bytes} (h : name ∈ resolveFrom stack components) :
    name ∈ stack ∨ name ∈ components ∧ IsName name := by
  induction components generalizing stack with
  | nil => exact .inl (List.mem_reverse.1 h)
  | cons component rest ih =>
    rcases component_cases component with hstay | rfl | hname
    · rw [resolveFrom_stay hstay] at h
      exact (ih h).imp_right fun found => ⟨List.mem_cons_of_mem _ found.1, found.2⟩
    · rw [resolveFrom_back] at h
      rcases ih h with hstack | ⟨hrest, hname⟩
      · exact .inl (List.mem_of_mem_tail hstack)
      · exact .inr ⟨List.mem_cons_of_mem _ hrest, hname⟩
    · rw [resolveFrom_name hname] at h
      rcases ih h with hstack | ⟨hrest, hfound⟩
      · rcases List.mem_cons.1 hstack with rfl | hstack
        · exact .inr ⟨List.mem_cons_self, hname⟩
        · exact .inl hstack
      · exact .inr ⟨List.mem_cons_of_mem _ hrest, hfound⟩

theorem mem_resolve (h : name ∈ resolve components) : name ∈ components ∧ IsName name :=
  (mem_resolveFrom h).resolve_left List.not_mem_nil

/-- Whatever names were found already, leaving out leads to those that are found in the end. -/
theorem shortens_resolveFrom {stack : List Bytes} (h : ∀ name ∈ stack, IsName name)
    (components : List Bytes) :
    Relation.ReflTransGen Shortens (stack.reverse ++ components)
      (resolveFrom stack components) := by
  -- The names found so far stand in front of what is left.  The next component goes, takes the last
  -- of them with it, or becomes one of them.
  induction components generalizing stack with
  | nil => rw [resolveFrom, List.append_nil]
  | cons component rest ih =>
    rcases component_cases component with hstay | rfl | hname
    · rw [resolveFrom_stay hstay]
      exact .head (.stay stack.reverse rest hstay) (ih h)
    · rw [resolveFrom_back]
      cases stack with
      | nil => exact .head (.root rest) (ih h)
      | cons name below =>
        obtain ⟨hname, hbelow⟩ := List.forall_mem_cons.1 h
        rw [List.reverse_cons, List.append_assoc, List.singleton_append]
        exact .head (.back below.reverse rest hname) (ih hbelow)
    · rw [resolveFrom_name hname]
      have hmore := ih (List.forall_mem_cons.2 ⟨hname, h⟩)
      rwa [List.reverse_cons, List.append_assoc, List.singleton_append] at hmore

/-- Components come down to the names that are found in them, and to no others. -/
theorem resolvesTo_iff : ResolvesTo components names ↔ names = resolve components := by
  constructor
  · rintro ⟨hshortens, hnames⟩
    rw [resolve_eq_of_shortens hshortens, resolve, resolveFrom_names hnames, List.reverse_nil,
      List.nil_append]
  · rintro rfl
    exact ⟨shortens_resolveFrom (fun _ h => absurd h List.not_mem_nil) components,
      fun _ h => (mem_resolve h).2⟩

end PortableFiles.ExtendedPath
