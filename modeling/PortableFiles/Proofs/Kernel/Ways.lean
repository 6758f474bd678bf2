import PortableFiles.Proofs.Kernel.Opening
set_option autoImplicit false

/-!
# Leaves, and the ways to them

No walk passes through a leaf, which is an inode that is neither a directory nor a link.  Two trees
that differ in leaves only have the same ways (`Tree.SameWays`): every path leads where it led, and
every name is found where it was.  To write a file, or to give it permissions, is such a change
(`Tree.SameWays.updateInode`).
-/

namespace PortableFiles

/-- Whether a content is neither a directory nor a link. -/
def Content.isLeaf : Content → Bool
  | .directory .. | .symlink _ | .jump _ => false
  | _ => true

namespace Content

variable {c : Content}

theorem entries?_of_isLeaf (h : c.isLeaf = true) : c.entries? = none := by
  cases c with
  | directory _ _ => cases h
  | _ => rfl

theorem isLink_of_isLeaf (h : c.isLeaf = true) : Tree.isLink (some c) = false := by
  cases c with
  | symlink _ => cases h
  | jump _ => cases h
  | _ => rfl

end Content

namespace Tree

/-- Two trees that differ in leaves only. -/
structure SameWays (t t' : Tree) : Prop where
  root : t'.root = t.root
  inodes : ∀ id, t'.inode? id = t.inode? id ∨ ∃ node node', t.inode? id = some node ∧
    t'.inode? id = some node' ∧ node.content.isLeaf = true ∧ node'.content.isLeaf = true ∧
    node'.volume = node.volume

namespace SameWays

variable {t t' t'' : Tree}

theorem symm (h : t.SameWays t') : t'.SameWays t where
  root := h.root.symm
  inodes id := by
    rcases h.inodes id with hsame | ⟨node, node', hnode, hnode', hleaf, hleaf', hvolume⟩
    · exact Or.inl hsame.symm
    · exact Or.inr ⟨node', node, hnode', hnode, hleaf', hleaf, hvolume.symm⟩

/-- A leaf changes. -/
theorem updateInode {id : InodeId} {node : Inode} {f : Inode → Inode}
    (hnode : t.inode? id = some node) (hleaf : node.content.isLeaf = true)
    (hleaf' : (f node).content.isLeaf = true) (hvolume : (f node).volume = node.volume) :
    t.SameWays (t.updateInode id f) where
  root := rfl
  inodes i := by
    by_cases hi : i = id
    · subst hi
      exact Or.inr ⟨node, f node, hnode, by rw [inode?_updateInode, if_pos rfl, hnode]; rfl,
        hleaf, hleaf', hvolume⟩
    · exact Or.inl (by rw [inode?_updateInode, if_neg hi])

variable (h : t.SameWays t')

include h

/-- What an inode holds is the same, or it is a leaf before and after. -/
theorem contents (id : InodeId) : t'.content? id = t.content? id ∨ ∃ c c',
    t.content? id = some c ∧ t'.content? id = some c' ∧ c.isLeaf = true ∧ c'.isLeaf = true := by
  rcases h.inodes id with hsame | ⟨node, node', hnode, hnode', hleaf, hleaf', -⟩
  · exact Or.inl (by rw [content?, hsame, content?])
  · exact Or.inr ⟨_, _, by rw [content?, hnode]; rfl, by rw [content?, hnode']; rfl, hleaf, hleaf'⟩

theorem entries? : t'.entries? = t.entries? := by
  funext id
  rw [Tree.entries?, Tree.entries?]
  rcases h.contents id with hsame | ⟨c, c', hc, hc', hleaf, hleaf'⟩
  · rw [hsame]
  · rw [hc, hc', Option.bind_some, Option.bind_some, Content.entries?_of_isLeaf hleaf,
      Content.entries?_of_isLeaf hleaf']

theorem child? : t'.child? = t.child? := by
  funext dir name
  rw [Tree.child?, h.entries?, Tree.child?]

theorem isDirectory : t'.isDirectory = t.isDirectory := by
  funext id
  rw [Tree.isDirectory, h.entries?, Tree.isDirectory]

theorem parent : t'.parent = t.parent := by
  have hself : ∀ {t : Tree} {id c}, t.content? id = some c → c.isLeaf = true →
      t.parent id = id := by
    intro t id c hc hleaf
    rw [Tree.parent, hc]
    cases c with
    | directory _ _ => cases hleaf
    | _ => rfl
  funext id
  rcases h.contents id with hsame | ⟨c, c', hc, hc', hleaf, hleaf'⟩
  · rw [Tree.parent, hsame, Tree.parent]
  · rw [hself hc hleaf, hself hc' hleaf']

theorem volume : t'.volume = t.volume := by
  funext id
  rcases h.inodes id with hsame | ⟨node, node', hnode, hnode', -, -, hvolume⟩
  · rw [Tree.volume, hsame, Tree.volume]
  · rw [Tree.volume, hnode', Tree.volume, hnode]
    exact hvolume

theorem find : t'.find = t.find := by
  have hlinked : t'.isLinked = t.isLinked := by
    funext dir
    rw [isLinked, nameOf?, h.root, h.parent, h.entries?, isLinked, nameOf?]
  funext dir name
  rw [Tree.find, takesNames, h.child?, hlinked, h.volume, Tree.find, takesNames]

theorem pass : t'.pass = t.pass := by
  have hrefused : ∀ {t : Tree} {who id node}, t.inode? id = some node →
      node.content.isLeaf = true → t.pass who id = .error .notDirectory := by
    intro t who id node hnode hleaf
    rw [Tree.pass, hnode]
    simp [Content.isDirectory, Content.entries?_of_isLeaf hleaf]
  funext who id
  rcases h.inodes id with hsame | ⟨node, node', hnode, hnode', hleaf, hleaf', -⟩
  · rw [Tree.pass, hsame, Tree.pass]
  · rw [hrefused hnode hleaf, hrefused hnode' hleaf']

/-- What a name leads to is the same link, or no link before and after. -/
theorem linked (d : InodeId) (n : Name) :
    (t'.child? d n).bind t'.content? = (t.child? d n).bind t.content? ∨
      (isLink ((t'.child? d n).bind t'.content?) = false ∧
        isLink ((t.child? d n).bind t.content?) = false) := by
  rw [h.child?]
  cases t.child? d n with
  | none => exact Or.inl rfl
  | some id =>
    rcases h.contents id with hsame | ⟨c, c', hc, hc', hleaf, hleaf'⟩
    · exact Or.inl hsame
    · rw [Option.bind_some, Option.bind_some, hc, hc']
      exact Or.inr ⟨Content.isLink_of_isLeaf hleaf', Content.isLink_of_isLeaf hleaf⟩

theorem link_eq {d : InodeId} {n : Name} {c : Content} (hlink : isLink (some c) = true)
    (hc : (t.child? d n).bind t.content? = some c) :
    (t'.child? d n).bind t'.content? = some c := by
  rcases h.linked d n with hsame | ⟨-, hnone⟩
  · rw [hsame, hc]
  · rw [hc, hlink] at hnone
    cases hnone

theorem not_isLink {d : InodeId} {n : Name}
    (hc : isLink ((t.child? d n).bind t.content?) = false) :
    isLink ((t'.child? d n).bind t'.content?) = false := by
  rcases h.linked d n with hsame | ⟨hnone, -⟩
  · rw [hsame, hc]
  · exact hnone

/-- A walk goes on as before. -/
theorem walks {who : Credentials} {follow : Bool → Bool} {budget : Nat} {d : InodeId}
    {steps : List Step} {slash : Bool} {place : Place}
    (hwalks : Walks t who follow budget d steps slash place) :
    Walks t' who follow budget d steps slash place := by
  induction hwalks with
  | reached => exact .reached
  | dot hpass => exact .dot (by rwa [h.pass])
  | dotdot hpass => exact .dotdot (by rwa [h.pass])
  | stay hpass hrest _ ih => exact .stay (by rwa [h.pass]) hrest ih
  | ascend hpass hrest _ ih => exact .ascend (by rwa [h.pass]) hrest (by rwa [h.parent])
  | last hpass hname => exact .last (by rwa [h.pass]) (hname.imp_right h.not_isLink)
  | descend hpass hrest hlink hfind hdirectory _ ih =>
    exact .descend (by rwa [h.pass]) hrest (h.not_isLink hlink) (by rwa [h.find])
      (by rwa [h.isDirectory]) ih
  | symlink hpass hgo hlink _ ih =>
    refine .symlink (by rwa [h.pass]) hgo (h.link_eq rfl hlink) ?_
    rwa [start, h.root]
  | jump hpass hgo hlink _ ih => exact .jump (by rwa [h.pass]) hgo (h.link_eq rfl hlink) ih

/-- A path leads where it led. -/
theorem locate {who : Credentials} {cwd : InodeId} {follow : Bool → Bool} {path : Path}
    {place : Place} (hlocated : t.locate who cwd follow path = .ok place) :
    t'.locate who cwd follow path = .ok place := by
  unfold Tree.locate at hlocated ⊢
  obtain ⟨hempty, hlocated⟩ := ite_error_eq_ok_iff.1 hlocated
  obtain ⟨hlong, hlocated⟩ := ite_error_eq_ok_iff.1 hlocated
  rw [if_neg hempty, if_neg hlong, walk_eq_ok_iff, start, h.root]
  exact h.walks ((walk_eq_ok_iff _ _ _).1 hlocated)

theorem inodeAt : t'.inodeAt = t.inodeAt := by
  funext place
  cases place <;> simp only [Tree.inodeAt, h.parent, h.find, h.isDirectory]

/-- A path leads to the inode to which it led. -/
theorem resolve {who : Credentials} {cwd : InodeId} {follow : Bool → Bool} {path : Path}
    {id : InodeId} (hresolved : t.resolve who cwd follow path = .ok id) :
    t'.resolve who cwd follow path = .ok id := by
  obtain ⟨place, hplace, hid⟩ := bind_eq_ok_iff.1 hresolved
  exact bind_eq_ok_iff.2 ⟨place, h.locate hplace, by rwa [h.inodeAt]⟩

end SameWays

end Tree

end PortableFiles
