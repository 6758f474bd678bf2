import PortableFiles.Proofs.Kernel.Walk
set_option autoImplicit false

/-!
# A new entry and the paths that do not meet it

A new file under a free name changes what a directory holds and nothing else.  Every walk that
reached its end still reaches it (`walk_addEntry_of_ok`), and where every entry leads to an inode,
a walk that failed fails again, at most for another reason (`walk_addEntry`).
-/

namespace PortableFiles.Tree

variable {t : Tree} {dir : InodeId} {name : Name} {node : Inode} {data : Bytes}

/-- A directory that has room for a name and does not hold it. -/
structure Vacant (t : Tree) (dir : InodeId) (name : Name) : Prop where
  isDirectory : t.isDirectory dir = true
  find : t.find dir name = .ok none

/-- Nothing is found under a missing name that is not too long, in a directory that takes names. -/
theorem find_eq_ok_none_iff {d : InodeId} {n : Name} : t.find d n = .ok none ↔
    t.child? d n = none ∧ t.takesNames d = true ∧ n.length ≤ maxName := by
  unfold Tree.find
  cases t.child? d n with
  | some id => simp
  | none =>
    by_cases htakes : t.takesNames d = true
    · by_cases hlong : n.length > maxName
      · simp [htakes, hlong, Nat.not_le.2 hlong]
      · simp [htakes, hlong, Nat.not_lt.1 hlong]
    · simp [htakes]

theorem Vacant.child? (h : t.Vacant dir name) : t.child? dir name = none :=
  (find_eq_ok_none_iff.1 h.find).1

theorem Vacant.takesNames (h : t.Vacant dir name) : t.takesNames dir = true :=
  (find_eq_ok_none_iff.1 h.find).2.1

/-- A directory with room for one name has room for another one that it does not hold. -/
theorem Vacant.sibling (h : t.Vacant dir name) {n : Name} (hshort : n.length ≤ maxName)
    (hfree : t.child? dir n = none) : t.Vacant dir n :=
  ⟨h.isDirectory, find_eq_ok_none_iff.2 ⟨hfree, h.takesNames, hshort⟩⟩

theorem child?_eq_of_find {d id : InodeId} {n : Name} (h : t.find d n = .ok (some id)) :
    t.child? d n = some id := by
  unfold Tree.find at h
  split at h
  · cases h
    assumption
  · split at h
    · cases h
    · split at h <;> cases h

/-! ## Directories and inodes -/

theorem isSome_inode?_of_isDirectory {id : InodeId} (h : t.isDirectory id = true) :
    (t.inode? id).isSome = true := by
  cases hnode : t.inode? id with
  | none => simp [isDirectory, entries?, content?, hnode] at h
  | some node => rfl

theorem ne_nextId_of_isSome {id : InodeId} (h : (t.inode? id).isSome = true) : id ≠ t.nextId := by
  rintro rfl
  rw [inode?_nextId] at h
  cases h

theorem ne_nextId_of_isDirectory {id : InodeId} (h : t.isDirectory id = true) : id ≠ t.nextId :=
  ne_nextId_of_isSome (isSome_inode?_of_isDirectory h)

/-! ## Looks at a tree with a new file -/

section Looks

variable (hdir : t.isDirectory dir = true) (hnode : node.content = .file data)

include hdir

theorem inode?_addEntry (i : InodeId) :
    (t.addEntry dir name node).inode? i =
      if i = t.nextId then some node
      else if i = dir then (t.inode? dir).map (Inode.mapEntries fun e => e.insert name t.nextId)
      else t.inode? i := by
  have hne := ne_nextId_of_isDirectory hdir
  rw [addEntry, setEntry, updateEntries_eq, inode?_updateInode, inode?_addInode, inode?_addInode,
    if_neg hne]
  by_cases hi : i = dir
  · simp [hi, hne]
  · simp [hi]

theorem inode?_addEntry_nextId : (t.addEntry dir name node).inode? t.nextId = some node := by
  rw [inode?_addEntry hdir, if_pos rfl]

/-- Besides the new file and its directory everything is as it was. -/
theorem inode?_addEntry_of_ne {i : InodeId} (hnew : i ≠ t.nextId) (hi : i ≠ dir) :
    (t.addEntry dir name node).inode? i = t.inode? i := by
  rw [inode?_addEntry hdir, if_neg hnew, if_neg hi]

/-- The directory has other entries. -/
theorem inode?_addEntry_dir :
    (t.addEntry dir name node).inode? dir =
      (t.inode? dir).map (Inode.mapEntries fun e => e.insert name t.nextId) := by
  rw [inode?_addEntry hdir, if_neg (ne_nextId_of_isDirectory hdir), if_pos rfl]

variable (name node) in
/-- An inode that was there may only have other entries. -/
theorem inode?_addEntry_eq_map {i : InodeId} (hnew : i ≠ t.nextId) :
    ∃ f, (t.addEntry dir name node).inode? i = (t.inode? i).map (Inode.mapEntries f) := by
  rw [inode?_addEntry hdir, if_neg hnew]
  split
  · rename_i hi
    subst hi
    exact ⟨_, rfl⟩
  · refine ⟨id, ?_⟩
    cases t.inode? i with
    | none => rfl
    | some node =>
      simp only [Option.map_some, Option.some.injEq, Inode.mapEntries, id]
      cases node with
      | mk content => cases content <;> rfl

/-- The new file can be changed before it is made. -/
theorem updateInode_addEntry (f : Inode → Inode) :
    Same ((t.addEntry dir name node).updateInode t.nextId f) (t.addEntry dir name (f node)) := by
  refine ⟨rfl, ?_⟩
  funext i
  rw [inode?_updateInode, inode?_addEntry_nextId hdir, inode?_addEntry hdir, inode?_addEntry hdir]
  split <;> rfl

theorem volume_addEntry {i : InodeId} (hi : i ≠ t.nextId) :
    (t.addEntry dir name node).volume i = t.volume i := by
  obtain ⟨f, hf⟩ := inode?_addEntry_eq_map name node hdir hi
  rw [volume, hf, volume]
  cases t.inode? i <;> simp

variable (name node) in
theorem pass_addEntry (who : Credentials) {d : InodeId} (hd : d ≠ t.nextId) :
    (t.addEntry dir name node).pass who d = t.pass who d := by
  obtain ⟨f, hf⟩ := inode?_addEntry_eq_map name node hdir hd
  rw [pass, hf, pass]
  cases t.inode? d with
  | none => rfl
  | some above => simp [Credentials.may]

theorem content?_addEntry_of_not_isDirectory {i : InodeId} (hnew : i ≠ t.nextId)
    (hi : t.isDirectory i = false) : (t.addEntry dir name node).content? i = t.content? i := by
  have hother : i ≠ dir := by
    rintro rfl
    rw [hdir] at hi
    cases hi
  rw [content?, inode?_addEntry_of_ne hdir hnew hother, content?]

include hnode

theorem entries?_addEntry (i : InodeId) :
    (t.addEntry dir name node).entries? i =
      if i = dir then (t.entries? dir).map (·.insert name t.nextId) else t.entries? i := by
  rw [entries?, content?, inode?_addEntry hdir]
  by_cases hnew : i = t.nextId
  · have hother : ¬ i = dir := fun h => ne_nextId_of_isDirectory hdir (h.symm.trans hnew)
    rw [if_pos hnew, if_neg hother, hnew, entries?, content?, inode?_nextId]
    simp [hnode, Content.entries?]
  · rw [if_neg hnew]
    split
    · rename_i hi
      rw [entries?, content?]
      cases t.inode? dir <;> simp
    · rfl

/-- The one new entry. -/
theorem child?_addEntry (d : InodeId) (n : Name) :
    (t.addEntry dir name node).child? d n =
      if d = dir ∧ n = name then some t.nextId else t.child? d n := by
  rw [child?, entries?_addEntry hdir hnode]
  by_cases hd : d = dir
  · subst hd
    cases hentries : t.entries? d with
    | none => simp [isDirectory, hentries] at hdir
    | some entries =>
      by_cases hn : n = name <;> simp [child?, hentries, FinMap.get?_insert, hn]
  · simp [hd, child?]

theorem child?_addEntry_self : (t.addEntry dir name node).child? dir name = some t.nextId := by
  rw [child?_addEntry hdir hnode, if_pos ⟨rfl, rfl⟩]

theorem child?_addEntry_of_ne {d : InodeId} {n : Name} (h : ¬ (d = dir ∧ n = name)) :
    (t.addEntry dir name node).child? d n = t.child? d n := by
  rw [child?_addEntry hdir hnode, if_neg h]

theorem isDirectory_addEntry (i : InodeId) :
    (t.addEntry dir name node).isDirectory i = t.isDirectory i := by
  rw [isDirectory, entries?_addEntry hdir hnode, isDirectory]
  split
  · rename_i hi
    simp [hi]
  · rfl

theorem parent_addEntry (i : InodeId) : (t.addEntry dir name node).parent i = t.parent i := by
  by_cases hnew : i = t.nextId
  · rw [hnew, parent, content?, inode?_addEntry_nextId hdir, parent, content?, inode?_nextId]
    simp [hnode]
  · obtain ⟨f, hf⟩ := inode?_addEntry_eq_map name node hdir hnew
    rw [parent, content?, hf, parent, content?]
    cases t.inode? i with
    | none => rfl
    | some above =>
      cases above with
      | mk content => cases content <;> rfl

theorem find_addEntry_self : (t.addEntry dir name node).find dir name = .ok (some t.nextId) := by
  rw [find, child?_addEntry_self hdir hnode]

end Looks

/-! ## Names where one was free -/

section Names

variable (hv : t.Vacant dir name) (hnode : node.content = .file data)

include hv hnode

theorem nameOf?_addEntry (d : InodeId) {id : InodeId} (hid : id ≠ t.nextId) :
    (t.addEntry dir name node).nameOf? d id = t.nameOf? d id := by
  rw [nameOf?, entries?_addEntry hv.isDirectory hnode, nameOf?]
  split
  · rename_i hd
    subst hd
    cases hentries : t.entries? d with
    | none => rfl
    | some entries =>
      have hfree : entries.get? name = none := by simpa [child?, hentries] using hv.child?
      have hother : decide (t.nextId = id) = false := decide_eq_false hid.symm
      simp only [Option.map_some, Option.bind_some]
      exact FinMap.findKey?_insert hfree hother
  · rfl

theorem isLinked_addEntry {d : InodeId} (hd : d ≠ t.nextId) :
    (t.addEntry dir name node).isLinked d = t.isLinked d := by
  rw [isLinked, parent_addEntry hv.isDirectory hnode, nameOf?_addEntry hv hnode _ hd, isLinked]
  rfl

theorem find_addEntry_of_ne {d : InodeId} {n : Name} (hd : d ≠ t.nextId)
    (h : ¬ (d = dir ∧ n = name)) : (t.addEntry dir name node).find d n = t.find d n := by
  rw [find, takesNames, child?_addEntry_of_ne hv.isDirectory hnode h,
    isLinked_addEntry hv hnode hd, volume_addEntry hv.isDirectory hd, find, takesNames]

end Names

/-! ## How walks end -/

/-- Whether a walk ends as it did before, or where nothing was found meets something that is no
directory. -/
def EndsAs (after before : Except Errno Place) : Prop :=
  after = before ∨ (before = .error .noEntry ∧ after = .error .notDirectory)

theorem EndsAs.eq_of_ok {after before : Except Errno Place} {place : Place}
    (h : EndsAs after before) (hok : before = .ok place) : after = .ok place := by
  rcases h with h | ⟨h, -⟩
  · exact h.trans hok
  · rw [hok] at h
    cases h

theorem EndsAs.eq_of_ok' {after before : Except Errno Place} {place : Place}
    (h : EndsAs after before) (hok : after = .ok place) : before = .ok place := by
  rcases h with h | ⟨-, h⟩
  · exact h.symm.trans hok
  · rw [hok] at h
    cases h

/-! ## Walks in a tree with a new file -/

section Walks

variable (hv : t.Vacant dir name) (hnode : node.content = .file data)
  {who : Credentials} {follow : Bool → Bool}

include hv hnode

variable (who) in
/-- No step leaves the new file. -/
theorem pass_addEntry_nextId :
    t.pass who t.nextId = .error .noEntry
      ∧ (t.addEntry dir name node).pass who t.nextId = .error .notDirectory := by
  rw [pass, inode?_nextId, pass, inode?_addEntry_nextId hv.isDirectory]
  simp [Content.isDirectory, Content.entries?, hnode]

/-- What is found under a name is the same, or it is no link before and after. -/
theorem linked_addEntry (d : InodeId) (n : Name) :
    ((t.addEntry dir name node).child? d n).bind (t.addEntry dir name node).content?
        = (t.child? d n).bind t.content?
      ∨ (isLink (((t.addEntry dir name node).child? d n).bind
            (t.addEntry dir name node).content?) = false
          ∧ isLink ((t.child? d n).bind t.content?) = false) := by
  have hnew : (t.addEntry dir name node).content? t.nextId = some (.file data) := by
    rw [content?, inode?_addEntry_nextId hv.isDirectory]
    simp [hnode]
  by_cases hplace : d = dir ∧ n = name
  · right
    rw [hplace.1, hplace.2, child?_addEntry_self hv.isDirectory hnode, hv.child?]
    simp [hnew, isLink]
  · rw [child?_addEntry_of_ne hv.isDirectory hnode hplace]
    cases hentry : t.child? d n with
    | none => exact Or.inl rfl
    | some j =>
      simp only [Option.bind_some]
      by_cases hj : j = t.nextId
      · right
        rw [hj, hnew, content?, inode?_nextId]
        exact ⟨rfl, rfl⟩
      · by_cases hdirectory : t.isDirectory j = true
        · right
          have hdirectory' := hdirectory
          rw [← isDirectory_addEntry hv.isDirectory hnode] at hdirectory'
          exact ⟨isLink_of_isDirectory hdirectory', isLink_of_isDirectory hdirectory⟩
        · left
          exact content?_addEntry_of_not_isDirectory hv.isDirectory hj (by simpa using hdirectory)

/-- The step to a name that is no link, if the rest of the walk ends as before. -/
theorem walkWith_addEntry_plain {again again' : InodeId → Route → Except Errno Place}
    {slash : Bool} {rest : List Step}
    (hrest : ∀ d, EndsAs ((t.addEntry dir name node).walkWith who follow again' slash d rest)
      (t.walkWith who follow again slash d rest))
    {d : InodeId} {n : Name} (hd : d ≠ t.nextId) (hp : t.pass who d = .ok ())
    (hlink' : isLink (((t.addEntry dir name node).child? d n).bind
      (t.addEntry dir name node).content?) = false)
    (hlink : isLink ((t.child? d n).bind t.content?) = false) :
    EndsAs
      ((t.addEntry dir name node).walkWith who follow again' slash d (.descend n :: rest))
      (t.walkWith who follow again slash d (.descend n :: rest)) := by
  rw [walkWith_descend hp hlink,
    walkWith_descend ((pass_addEntry name node hv.isDirectory who hd).trans hp) hlink']
  split
  · exact Or.inl rfl
  · by_cases hplace : d = dir ∧ n = name
    · -- The new file stands where nothing was, and it is no directory.
      have hfile : (t.addEntry dir name node).isDirectory t.nextId = false := by
        rw [isDirectory_addEntry hv.isDirectory hnode, isDirectory, entries?, content?,
          inode?_nextId]
        rfl
      rw [hplace.1, hplace.2, hv.find, find_addEntry_self hv.isDirectory hnode]
      simp only [hfile]
      exact Or.inr ⟨rfl, rfl⟩
    · rw [find_addEntry_of_ne hv hnode hd hplace]
      split
      · rw [isDirectory_addEntry hv.isDirectory hnode]
        split
        · exact hrest _
        · exact Or.inl rfl
      · exact Or.inl rfl
      · exact Or.inl rfl

/-- Along the same steps a walk ends as before, if it does so from where links lead. -/
theorem walkWith_addEntry {again again' : InodeId → Route → Except Errno Place}
    (hagain : ∀ d route, EndsAs (again' d route) (again d route)) (slash : Bool) (d : InodeId)
    (steps : List Step) :
    EndsAs ((t.addEntry dir name node).walkWith who follow again' slash d steps)
      (t.walkWith who follow again slash d steps) := by
  induction steps generalizing d with
  | nil => exact Or.inl rfl
  | cons step rest ih =>
    by_cases hd : d = t.nextId
    · obtain ⟨hbefore, hafter⟩ := pass_addEntry_nextId hv hnode who
      rw [hd, walkWith_of_pass_eq_error hbefore, walkWith_of_pass_eq_error hafter]
      exact Or.inr ⟨rfl, rfl⟩
    · have hpass := pass_addEntry name node hv.isDirectory who hd
      cases hp : t.pass who d with
      | error e =>
        rw [walkWith_of_pass_eq_error hp, walkWith_of_pass_eq_error (hpass.trans hp)]
        exact Or.inl rfl
      | ok u =>
        cases step with
        | stay =>
          rw [walkWith_stay hp, walkWith_stay (hpass.trans hp)]
          split
          · exact Or.inl rfl
          · exact ih d
        | ascend =>
          rw [walkWith_ascend hp, walkWith_ascend (hpass.trans hp),
            parent_addEntry hv.isDirectory hnode]
          split
          · exact Or.inl rfl
          · exact ih _
        | descend n =>
          by_cases hlink : isLink ((t.child? d n).bind t.content?) = true
          · have hsame := (linked_addEntry hv hnode d n).resolve_right fun h => by
              rw [h.2] at hlink
              cases hlink
            rcases exists_of_isLink hlink with ⟨target, hc⟩ | ⟨directory, hc⟩
            · rw [walkWith_symlink hp hc, walkWith_symlink (hpass.trans hp) (hsame.trans hc)]
              split
              · exact Or.inl rfl
              · exact hagain _ _
            · rw [walkWith_jump hp hc, walkWith_jump (hpass.trans hp) (hsame.trans hc)]
              split
              · exact Or.inl rfl
              · exact hagain _ _
          · have hplain : isLink ((t.child? d n).bind t.content?) = false := by simpa using hlink
            refine walkWith_addEntry_plain hv hnode ih hd hp ?_ hplain
            rcases linked_addEntry hv hnode d n with hsame | hneither
            · rw [hsame]
              exact hplain
            · exact hneither.1

/-- A walk ends as before. -/
theorem walk_addEntry (budget : Nat) (d : InodeId) (route : Route) :
    EndsAs ((t.addEntry dir name node).walk who follow budget d route)
      (t.walk who follow budget d route) := by
  induction budget generalizing d route with
  | zero => exact walkWith_addEntry hv hnode (fun _ _ => Or.inl rfl) _ _ _
  | succ budget ih => exact walkWith_addEntry hv hnode ih _ _ _

/-- A path leads where it led. -/
theorem locate_addEntry (cwd : InodeId) (path : Path) :
    EndsAs ((t.addEntry dir name node).locate who cwd follow path)
      (t.locate who cwd follow path) := by
  unfold locate
  split
  · exact Or.inl rfl
  · split
    · exact Or.inl rfl
    · exact walk_addEntry hv hnode _ _ _

end Walks

end PortableFiles.Tree
