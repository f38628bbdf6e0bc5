import Installer.Proofs.Markup.Place

/-! # Nested directories

A path of ids leads from one directory element down to another.  `heldAt?` reads what the directory
at a path holds beside its subdirectories, and the laws of this module say how the reading changes
when a place of the tree is changed.  They hold in tidy trees, where the directories inside one
element have ids and no two of them share one.
-/

namespace Installer.Markup

open Element

namespace Element

/-! ## Following ids -/

def directoryIds (e : Element) : List (Option String) :=
  (e.elementsNamed "Directory").map id?

/-- What an element holds directly beside directories. -/
def holdings (e : Element) : List Element :=
  e.elements.filter fun child => child.name != "Directory"

/-- The ends of all chains of nested directories that start inside `e` and have the given ids. -/
def directoriesAt (e : Element) : List String → List Element
  | [] => [e]
  | id :: path =>
    (e.elements.filter (hasNameAndId "Directory" id)).flatMap fun child => child.directoriesAt path

/-- The end of the first chain of nested directories with the given ids. -/
def follow? (e : Element) : List String → Option Element
  | [] => some e
  | id :: path =>
    (e.elements.find? (hasNameAndId "Directory" id)).bind fun child => child.follow? path

theorem follow?_append (e : Element) (front back : List String) :
    e.follow? (front ++ back) = (e.follow? front).bind fun d => d.follow? back := by
  induction front generalizing e with
  | nil => rfl
  | cons id rest ih =>
    rw [List.cons_append, follow?, follow?, Option.bind_assoc]
    simp only [ih]

def heldAt? (e : Element) (path : List String) : Option (List Element) :=
  (e.follow? path).map holdings

@[simp] theorem heldAt?_nil (e : Element) : e.heldAt? [] = some e.holdings := rfl

theorem heldAt?_cons (e : Element) (id : String) (path : List String) :
    e.heldAt? (id :: path) =
      (e.elements.find? (hasNameAndId "Directory" id)).bind fun child => child.heldAt? path := by
  rw [heldAt?, follow?, Option.map_bind]
  rfl

theorem isSome_heldAt? (e : Element) (path : List String) :
    (e.heldAt? path).isSome = (e.follow? path).isSome :=
  Option.isSome_map

theorem hasNameAndId_eq_true {e : Element} {name id : String} :
    hasNameAndId name id e = true ↔ e.name = name ∧ e.id? = some id := by
  simp [hasNameAndId]

theorem holdings_addAll (e : Element) {children : List Element}
    (none : ∀ child ∈ children, child.name ≠ "Directory") :
    (e.addAll children).holdings = e.holdings ++ children := by
  have kept : children.filter (fun child => child.name != "Directory") = children :=
    List.filter_eq_self.mpr fun child mem => by simpa using none child mem
  rw [holdings, elements_addAll, List.filter_append, kept]
  rfl

theorem heldAt?_addAll_cons (e : Element) {children : List Element}
    (none : ∀ child ∈ children, child.name ≠ "Directory") (id : String) (path : List String) :
    (e.addAll children).heldAt? (id :: path) = e.heldAt? (id :: path) := by
  have missing : children.find? (hasNameAndId "Directory" id) = Option.none :=
    List.find?_eq_none.mpr fun child mem => by simp [hasNameAndId, none child mem]
  rw [heldAt?_cons, heldAt?_cons, elements_addAll, List.find?_append, missing, Option.or_none]

/-! ## Tidy trees -/

/-- The ids of the directories among elements with the given tags. -/
def directoryIdsOf (tags : List (String × List (String × String))) : List (Option String) :=
  (tags.filter fun t => t.1 == "Directory").map fun t => t.2.lookup "Id"

theorem directoryIds_eq_tags (e : Element) :
    e.directoryIds = directoryIdsOf (e.elements.map tag) := by
  rw [directoryIdsOf, List.filter_map, List.map_map]
  rfl

/-- An element with the tag `parent` may hold elements with the given tags: no two directories among
them share an id, each of them has one, and only a directory holds directories. -/
structure TidyTags (parent : String × List (String × String))
    (tags : List (String × List (String × String))) : Prop where
  nodup : (directoryIdsOf tags).Nodup
  identified : none ∉ directoryIdsOf tags
  inside : parent.1 ≠ "Directory" → directoryIdsOf tags = []

/-- Directories stand in directories only, have ids, and share no id with a sibling. -/
def Tidy (e : Element) : Prop :=
  Everywhere (fun x => TidyTags x.tag (x.elements.map tag)) e

theorem Tidy.nodup {e : Element} (tidy : Tidy e) : e.directoryIds.Nodup := by
  rw [directoryIds_eq_tags]
  exact tidy.here.nodup

theorem Tidy.everywhere_nodup {e : Element} (tidy : Tidy e) :
    Everywhere (fun x => x.directoryIds.Nodup) e :=
  Everywhere.mono tidy fun x tags => by
    rw [directoryIds_eq_tags]
    exact tags.nodup

theorem mem_directoryIds_of_mem {e child : Element} (mem : child ∈ e.elements)
    (directory : child.name = "Directory") : child.id? ∈ e.directoryIds :=
  List.mem_map_of_mem (List.mem_filter.mpr ⟨mem, by simp [directory]⟩)

theorem Tidy.exists_id {e child : Element} (tidy : Tidy e) (mem : child ∈ e.elements)
    (directory : child.name = "Directory") : ∃ id, child.id? = some id := by
  have identified := tidy.here.identified
  rw [← directoryIds_eq_tags] at identified
  cases declared : child.id? with
  | none => exact absurd (declared ▸ mem_directoryIds_of_mem mem directory) identified
  | some id => exact ⟨id, rfl⟩

theorem tidy_iff {e : Element} :
    Tidy e ↔ TidyTags e.tag (e.elements.map tag) ∧ ∀ child ∈ e.elements, Tidy child :=
  everywhere_iff

theorem tidyTags_of_none {e : Element} (none : e.directoryIds = []) :
    TidyTags e.tag (e.elements.map tag) := by
  rw [directoryIds_eq_tags] at none
  exact ⟨by simp [none], by simp [none], fun _ => none⟩

/-- No directory is outside the nested directories of a tidy tree. -/
theorem Tidy.only {e : Element} : Tidy e → e.name ≠ "Directory" → Only (· ≠ "Directory") e := by
  refine e.induct (motive := fun e => Tidy e → e.name ≠ "Directory" → Only (· ≠ "Directory") e)
    fun e ih tidy other => ?_
  refine only_iff.mpr ⟨other, fun child mem => ih child mem (tidy.child mem) fun directory => ?_⟩
  have none := tidy.here.inside other
  rw [← directoryIds_eq_tags] at none
  simpa [none] using mem_directoryIds_of_mem mem directory

theorem directoryIds_eq_nil {e : Element} (none : ∀ child ∈ e.elements, child.name ≠ "Directory") :
    e.directoryIds = [] := by
  rw [directoryIds, elementsNamed, List.map_eq_nil_iff, List.filter_eq_nil_iff]
  exact fun child mem => by simpa using none child mem

/-- A tree without directories is tidy. -/
theorem tidy_of_only {e : Element} : Only (· ≠ "Directory") e → Tidy e := by
  refine e.induct (motive := fun e => Only (· ≠ "Directory") e → Tidy e) fun e ih only => ?_
  refine tidy_iff.mpr ⟨tidyTags_of_none ?_, fun child mem => ih child mem (only.child mem)⟩
  exact directoryIds_eq_nil fun child mem => (only.child mem).here

theorem directoryIds_addAll (e : Element) {children : List Element}
    (none : ∀ child ∈ children, child.name ≠ "Directory") :
    (e.addAll children).directoryIds = e.directoryIds := by
  have dropped : children.filter (fun child => child.name == "Directory") = [] :=
    List.filter_eq_nil_iff.mpr fun child mem => by simpa using none child mem
  rw [directoryIds, elementsNamed, elements_addAll, List.filter_append, dropped, List.append_nil]
  rfl

theorem tidyTags_congr {tag₁ tag₂ : String × List (String × String)}
    {tags₁ tags₂ : List (String × List (String × String))} (name : tag₁.1 = tag₂.1)
    (ids : directoryIdsOf tags₁ = directoryIdsOf tags₂) (tidy : TidyTags tag₁ tags₁) :
    TidyTags tag₂ tags₂ :=
  ⟨ids ▸ tidy.nodup, ids ▸ tidy.identified, fun other => ids ▸ tidy.inside (name ▸ other)⟩

theorem Tidy.addAll {e : Element} (tidy : Tidy e) {children : List Element}
    (only : ∀ child ∈ children, Only (· ≠ "Directory") child) : Tidy (e.addAll children) := by
  have none : ∀ child ∈ children, child.name ≠ "Directory" := fun child mem => (only child mem).here
  rw [tidy_iff] at tidy ⊢
  constructor
  · refine tidyTags_congr rfl ?_ tidy.1
    rw [← directoryIds_eq_tags, ← directoryIds_eq_tags, directoryIds_addAll e none]
  · rw [elements_addAll, List.forall_mem_append]
    exact ⟨tidy.2, fun child mem => tidy_of_only (only child mem)⟩

/-- A directory goes into another one if no directory there has its id. -/
theorem Tidy.addDirectory {e child : Element} (tidy : Tidy e) (parent : e.name = "Directory")
    (inside : Tidy child) {id : String} (directory : hasNameAndId "Directory" id child = true)
    (new : ∀ x ∈ e.elements, hasNameAndId "Directory" id x = false) : Tidy (e.add child) := by
  obtain ⟨name, identified⟩ := hasNameAndId_eq_true.mp directory
  have ids : (e.add child).directoryIds = e.directoryIds ++ [some id] := by
    simp [directoryIds, elementsNamed, name, identified]
  -- the id is new, so the ids stay different
  have fresh : some id ∉ e.directoryIds := fun mem => by
    obtain ⟨x, among, same⟩ := List.mem_map.mp mem
    obtain ⟨among, isDirectory⟩ := List.mem_filter.mp among
    have : hasNameAndId "Directory" id x = true :=
      hasNameAndId_eq_true.mpr ⟨by simpa using isDirectory, same⟩
    exact absurd (new x among) (by simp [this])
  have old := tidy.here
  rw [tidy_iff]
  constructor
  · refine ⟨?_, ?_, fun other => absurd parent other⟩
    · rw [← directoryIds_eq_tags, ids]
      exact List.nodup_append.mpr ⟨tidy.nodup, by simp, fun a mem b last equal => by
        simp only [List.mem_singleton] at last
        exact fresh (last ▸ equal ▸ mem)⟩
    · have identified := old.identified
      rw [← directoryIds_eq_tags] at identified ⊢
      simp [ids, identified]
  · simp only [elements_add, List.forall_mem_append, List.forall_mem_singleton]
    exact ⟨fun x mem => tidy.child mem, inside⟩

/-! ## Changes at a place -/

section Changes

variable {name : String} {attrs : List (String × String)} {front back : List (Node Element)}
  {child e : Element} {id : String}

/-- The parent of the changed directory holds beside directories what it held before. -/
theorem holdings_among (here : child.name = "Directory") :
    holdings ⟨name, attrs, front ++ .element child :: back⟩ =
      holdings ⟨name, attrs, front⟩ ++ holdings ⟨name, attrs, back⟩ := by
  simp [holdings, here]

theorem find?_among
    (first : ∀ x ∈ elements ⟨name, attrs, front⟩, hasNameAndId "Directory" id x = false)
    (here : hasNameAndId "Directory" id child = true) :
    (elements ⟨name, attrs, front ++ .element child :: back⟩).find? (hasNameAndId "Directory" id) =
      some child := by
  have missing : (elements ⟨name, attrs, front⟩).find? (hasNameAndId "Directory" id) = none :=
    List.find?_eq_none.mpr fun x mem => by simp [first x mem]
  simp [missing, here]

theorem find?_among_of_ne (other : hasNameAndId "Directory" id child = false) :
    (elements ⟨name, attrs, front ++ .element child :: back⟩).find? (hasNameAndId "Directory" id) =
      ((elements ⟨name, attrs, front⟩).find? (hasNameAndId "Directory" id)).or
        ((elements ⟨name, attrs, back⟩).find? (hasNameAndId "Directory" id)) := by
  simp [other]

/-- Below a changed directory the change is seen, elsewhere it is not. -/
theorem heldAt?_among
    (first : ∀ x ∈ elements ⟨name, attrs, front⟩, hasNameAndId "Directory" id x = false)
    (here : hasNameAndId "Directory" id child = true) (same : e.tag = child.tag) :
    (∀ path, heldAt? ⟨name, attrs, front ++ .element e :: back⟩ (id :: path) = e.heldAt? path) ∧
      ∀ path, path.head? ≠ some id →
        heldAt? ⟨name, attrs, front ++ .element e :: back⟩ path =
          heldAt? ⟨name, attrs, front ++ .element child :: back⟩ path := by
  have here' : hasNameAndId "Directory" id e = true := by
    rw [hasNameAndId_eq_of_tag same]
    exact here
  obtain ⟨directory, identified⟩ := hasNameAndId_eq_true.mp here
  have directory' : e.name = "Directory" := (name_eq_of_tag same).trans directory
  constructor
  · intro path
    rw [heldAt?_cons, find?_among first here', Option.bind_some]
  · intro path other
    cases path with
    | nil => rw [heldAt?_nil, heldAt?_nil, holdings_among directory, holdings_among directory']
    | cons id' path =>
      -- the search passes by the child before and after the change
      have different : hasNameAndId "Directory" id' child = false := by
        rw [← Bool.not_eq_true, hasNameAndId_eq_true, identified]
        rintro ⟨-, equal⟩
        exact other (by simpa using equal.symm)
      have different' : hasNameAndId "Directory" id' e = false := by
        rw [hasNameAndId_eq_of_tag same]
        exact different
      rw [heldAt?_cons, heldAt?_cons, find?_among_of_ne different, find?_among_of_ne different']

theorem follow?_among
    (first : ∀ x ∈ elements ⟨name, attrs, front⟩, hasNameAndId "Directory" id x = false)
    (here : hasNameAndId "Directory" id child = true) (path : List String) :
    follow? ⟨name, attrs, front ++ .element child :: back⟩ (id :: path) = child.follow? path := by
  rw [follow?, find?_among first here, Option.bind_some]

/-- In a tidy tree no directory before another one among the same children has its id. -/
theorem Tidy.first (tidy : Tidy ⟨name, attrs, front ++ .element child :: back⟩)
    (here : hasNameAndId "Directory" id child = true) :
    ∀ x ∈ elements ⟨name, attrs, front⟩, hasNameAndId "Directory" id x = false := by
  obtain ⟨directory, identified⟩ := hasNameAndId_eq_true.mp here
  intro x mem
  rw [← Bool.not_eq_true]
  intro twin
  obtain ⟨directory', identified'⟩ := hasNameAndId_eq_true.mp twin
  have nodup := tidy.nodup
  simp only [directoryIds, elementsNamed, elements_mk_append, elements_mk_cons, List.filter_append,
    directory, List.filter_cons, beq_self_eq_true, if_true, List.map_append, List.map_cons,
    identified] at nodup
  -- the id of an earlier child with this name would be there a second time
  refine (List.nodup_append.mp nodup).2.2 (some id) ?_ (some id) (List.mem_cons_self ..) rfl
  exact List.mem_map.mpr ⟨x, List.mem_filter.mpr ⟨mem, by simp [directory']⟩, identified'⟩

end Changes

theorem follow?_directory {e d : Element} {path : List String} (start : e.name = "Directory")
    (found : e.follow? path = some d) : d.name = "Directory" := by
  induction path generalizing e with
  | nil =>
    cases found
    exact start
  | cons id path ih =>
    rw [follow?, Option.bind_eq_some_iff] at found
    obtain ⟨child, among, below⟩ := found
    exact ih (hasNameAndId_eq_true.mp (List.find?_some among)).1 below

theorem follow?_id {e d : Element} {path : List String} {id : String}
    (found : e.follow? (path ++ [id]) = some d) : d.id? = some id := by
  induction path generalizing e with
  | nil =>
    rw [List.nil_append, follow?, Option.bind_eq_some_iff] at found
    obtain ⟨child, among, below⟩ := found
    cases below
    exact (hasNameAndId_eq_true.mp (List.find?_some among)).2
  | cons first path ih =>
    rw [List.cons_append, follow?, Option.bind_eq_some_iff] at found
    obtain ⟨child, -, below⟩ := found
    exact ih below

theorem follow?_mem_subtree {e d : Element} {path : List String}
    (found : e.follow? path = some d) : d ∈ e.subtree := by
  induction path generalizing e with
  | nil =>
    cases found
    exact List.mem_cons_self ..
  | cons id path ih =>
    rw [follow?, Option.bind_eq_some_iff] at found
    obtain ⟨child, first, rest⟩ := found
    refine List.mem_cons_of_mem _ ?_
    rw [descendants_eq_flatMap, List.mem_flatMap]
    exact ⟨child, List.mem_of_find?_eq_some first, ih rest⟩

/-- A path that is not empty leads to a directory below. -/
theorem follow?_below {e d : Element} {path : List String} (found : e.follow? path = some d)
    (below : path ≠ []) : d ∈ e.descendants ∧ d.name = "Directory" := by
  cases path with
  | nil => exact absurd rfl below
  | cons id path =>
    rw [follow?, Option.bind_eq_some_iff] at found
    obtain ⟨child, first, rest⟩ := found
    have directory := (hasNameAndId_eq_true.mp (List.find?_some first)).1
    refine ⟨?_, follow?_directory directory rest⟩
    rw [descendants_eq_flatMap, List.mem_flatMap]
    exact ⟨child, List.mem_of_find?_eq_some first, follow?_mem_subtree rest⟩

/-- At most one directory of a tidy tree has a given id among its siblings. -/
theorem Tidy.filter_eq {e child : Element} {id : String} (tidy : Tidy e)
    (found : e.elements.find? (hasNameAndId "Directory" id) = some child) :
    e.elements.filter (hasNameAndId "Directory" id) = [child] := by
  have same : ∀ x ∈ e.elements.filter (hasNameAndId "Directory" id), x.id? = some id :=
    fun x mem => (hasNameAndId_eq_true.mp (List.mem_filter.mp mem).2).2
  have part :
      ((e.elements.filter (hasNameAndId "Directory" id)).map id?).Sublist e.directoryIds := by
    refine List.Sublist.map _ (List.monotone_filter_right _ fun x holds => ?_)
    simpa using (hasNameAndId_eq_true.mp holds).1
  have nodup := tidy.nodup.sublist part
  have first : (e.elements.filter (hasNameAndId "Directory" id)).head? = some child := by
    rw [List.head?_filter, found]
  obtain ⟨rest, list⟩ := List.head?_eq_some_iff.mp first
  rw [list] at same nodup ⊢
  cases rest with
  | nil => rfl
  | cons second others =>
    -- a second directory would have the same id
    have twice : child.id? = second.id? := by rw [same child (by simp), same second (by simp)]
    simp [twice] at nodup

/-- In a tidy tree all chains of nested directories with the same ids are one. -/
theorem Tidy.directoriesAt_eq {e : Element} (tidy : Tidy e) (path : List String) :
    e.directoriesAt path = (e.follow? path).toList := by
  induction path generalizing e with
  | nil => rfl
  | cons id path ih =>
    rw [directoriesAt, follow?]
    cases found : e.elements.find? (hasNameAndId "Directory" id) with
    | none =>
      have none : e.elements.filter (hasNameAndId "Directory" id) = [] := by
        rw [List.filter_eq_nil_iff]
        exact List.find?_eq_none.mp found
      simp [none]
    | some child =>
      rw [tidy.filter_eq found]
      simpa using ih (tidy.child (List.mem_of_find?_eq_some found))

/-- Every directory inside a tidy tree is at the end of a path of ids. -/
theorem Tidy.exists_path {e : Element} : Tidy e → ∀ d ∈ e.descendants, d.name = "Directory" →
    ∃ path, path ≠ [] ∧ e.follow? path = some d := by
  refine e.induct (motive := fun e => Tidy e → ∀ d ∈ e.descendants, d.name = "Directory" →
    ∃ path, path ≠ [] ∧ e.follow? path = some d) fun e ih tidy d mem directory => ?_
  rw [descendants_eq_flatMap, List.mem_flatMap] at mem
  obtain ⟨child, isChild, inside⟩ := mem
  have isDirectory : child.name = "Directory" := by
    -- what is no directory has no directories below it
    by_contra other
    have tidyChild : Tidy child := tidy.child isChild
    exact tidyChild.only other d inside directory
  obtain ⟨id, identified⟩ := tidy.exists_id isChild isDirectory
  have here := hasNameAndId_eq_true.mpr ⟨isDirectory, identified⟩
  -- no other child has this name and id, so the search ends in this one
  have found : e.elements.find? (hasNameAndId "Directory" id) = some child := by
    cases search : e.elements.find? (hasNameAndId "Directory" id) with
    | none => exact absurd here (List.find?_eq_none.mp search child isChild)
    | some other =>
      have mem : child ∈ e.elements.filter (hasNameAndId "Directory" id) :=
        List.mem_filter.mpr ⟨isChild, here⟩
      rw [tidy.filter_eq search, List.mem_singleton] at mem
      rw [mem]
  rcases List.mem_cons.mp inside with rfl | below
  · exact ⟨[id], by simp, by rw [follow?, found]; rfl⟩
  · obtain ⟨path, -, leads⟩ := ih child isChild (tidy.child isChild) d below directory
    exact ⟨id :: path, by simp, by rw [follow?, found]; exact leads⟩

end Element

namespace Focus

variable {focus : Focus Element} {whole : Element}

/-- The focus is on the whole element, or on the directory at the end of a path of ids. -/
inductive IsAt : Focus Element → Element → List String → Prop where
  | whole (e : Element) : IsAt (.whole e) e []
  | child {focus : Focus Element} {child : Element} {id : String} {path : List String}
      (name : String) (attrs : List (String × String)) (front back : List (Node Element))
      (here : hasNameAndId "Directory" id child = true)
      (first : ∀ x ∈ elements ⟨name, attrs, front⟩, hasNameAndId "Directory" id x = false)
      (inside : IsAt focus child path) :
      IsAt (focus.within fun e => ⟨name, attrs, front ++ .element e :: back⟩)
        ⟨name, attrs, front ++ .element child :: back⟩ (id :: path)

namespace IsAt

variable {path : List String}

theorem isPlace (isAt : focus.IsAt whole path) : focus.IsPlace whole := by
  induction isAt with
  | whole e => exact .whole e
  | child name attrs front back _ _ _ ih => exact .child name attrs front back ih

theorem follow (isAt : focus.IsAt whole path) : whole.follow? path = some focus.node := by
  induction isAt with
  | whole e => rfl
  | child name attrs front back here first _ ih =>
    rw [follow?_among first here]
    exact ih

/-- A change to the directory is seen at its path and below. -/
theorem heldAt?_put (isAt : focus.IsAt whole path) {e : Element} (same : e.tag = focus.node.tag)
    (rest : List String) : (focus.put e).heldAt? (path ++ rest) = e.heldAt? rest := by
  induction isAt with
  | whole _ => rfl
  | child name attrs front back here first inside ih =>
    exact ((heldAt?_among first here (inside.isPlace.tag_put same)).1 _).trans (ih same)

/-- It is not seen at any other path. -/
theorem heldAt?_put_of_not_isPrefix (isAt : focus.IsAt whole path) {e : Element}
    (same : e.tag = focus.node.tag) {other : List String} (apart : ¬ path <+: other) :
    (focus.put e).heldAt? other = whole.heldAt? other := by
  induction isAt generalizing other with
  | whole _ => exact absurd other.nil_prefix apart
  | @child focus child id path name attrs front back here first inside ih =>
    obtain ⟨below, beside⟩ := heldAt?_among first here (inside.isPlace.tag_put same)
    -- a path that begins with the id of the child goes on there, all others pass by it
    by_cases head : other.head? = some id
    · obtain ⟨tail, rfl⟩ : ∃ tail, other = id :: tail := List.head?_eq_some_iff.mp head
      have apart' : ¬ path <+: tail := fun isPrefix =>
        apart (List.cons_prefix_cons.mpr ⟨rfl, isPrefix⟩)
      have old : heldAt? ⟨name, attrs, front ++ .element child :: back⟩ (id :: tail) =
          child.heldAt? tail := (heldAt?_among first here rfl).1 tail
      exact (below tail).trans ((ih same apart').trans old.symm)
    · exact beside other head

end IsAt

/-- A directory of a tidy tree is at the end of a path of ids. -/
theorem IsPlace.exists_isAt (place : focus.IsPlace whole) (tidy : Tidy whole)
    (directory : focus.node.name = "Directory") : ∃ path, focus.IsAt whole path := by
  induction place with
  | whole e => exact ⟨[], .whole e⟩
  | @child focus child name attrs front back inside ih =>
    have tidyChild : Tidy child := tidy.child (by simp)
    -- the way down passes directories only, each of which has an id of its own
    have isDirectory : child.name = "Directory" := by
      by_contra other
      exact (inside.only_node (tidyChild.only other)).here directory
    obtain ⟨id, identified⟩ := tidy.exists_id (by simp : child ∈ _) isDirectory
    have here := hasNameAndId_eq_true.mpr ⟨isDirectory, identified⟩
    obtain ⟨path, isAt⟩ := ih tidyChild directory
    exact ⟨id :: path, .child name attrs front back here (tidy.first here) isAt⟩

/-- The search among the children of a directory ends at the path of the id. -/
theorem isAt_of_focusChild? {parent : Element} {id : String}
    (found : parent.focusChild? (hasNameAndId "Directory" id) = some focus) :
    focus.IsAt parent [id] := by
  obtain ⟨name, attrs, nodes⟩ := parent
  rw [focusChild?, Option.map_eq_some_iff] at found
  obtain ⟨⟨node, put⟩, among, rfl⟩ := found
  obtain ⟨front, back, rfl, here, first, rfl⟩ := focusAmong?_eq_some among
  exact .child name attrs front back here first (.whole node)

theorem IsPlace.tidy_put {e : Element} (place : focus.IsPlace whole) (tidy : Tidy whole)
    (same : e.tag = focus.node.tag) (inside : Tidy e) : Tidy (focus.put e) :=
  place.everywhere tidy same inside

/-! ## Subdirectories that may have to be made -/

/-- The focus is on the subdirectory `id` of `parent`, which stays as it is apart from that
subdirectory. A subdirectory that was not there before holds nothing yet. -/
structure IsSubdirectory (focus : Focus Element) (parent : Element) (id : String) : Prop where
  directory : hasNameAndId "Directory" id focus.node = true
  tidy_node : Tidy focus.node
  tidy_put : ∀ e : Element, e.tag = focus.node.tag → Tidy e → Tidy (focus.put e)
  tag_put : ∀ e, (focus.put e).tag = parent.tag
  below : ∀ e : Element, e.tag = focus.node.tag → ∀ path,
    (focus.put e).heldAt? (id :: path) = e.heldAt? path
  apart : ∀ e : Element, e.tag = focus.node.tag → ∀ path, path.head? ≠ some id →
    (focus.put e).heldAt? path = parent.heldAt? path
  node_nil : focus.node.heldAt? [] = some ((parent.heldAt? [id]).getD [])
  node_cons : ∀ first rest,
    focus.node.heldAt? (first :: rest) = parent.heldAt? (id :: first :: rest)
  ids : ∀ name, name ≠ "Directory" → ∀ e : Element,
    ((focus.put e).idsNamed name ++ focus.node.idsNamed name).Perm
      (parent.idsNamed name ++ e.idsNamed name)

theorem isSubdirectory_of_found {parent : Element} {id : String} (tidy : Tidy parent)
    (found : parent.focusChild? (hasNameAndId "Directory" id) = some focus) :
    focus.IsSubdirectory parent id := by
  obtain ⟨name, attrs, nodes⟩ := parent
  rw [focusChild?, Option.map_eq_some_iff] at found
  obtain ⟨⟨node, put⟩, among, rfl⟩ := found
  obtain ⟨front, back, rfl, here, first, rfl⟩ := focusAmong?_eq_some among
  have place : IsPlace (Focus.within (fun nodes => (⟨name, attrs, nodes⟩ : Element))
      ⟨node, fun e => front ++ .element e :: back⟩) ⟨name, attrs, front ++ .element node :: back⟩ :=
    .child name attrs front back (.whole node)
  have reads : ∀ path, heldAt? ⟨name, attrs, front ++ .element node :: back⟩ (id :: path) =
      node.heldAt? path := (heldAt?_among first here rfl).1
  exact {
    directory := here
    tidy_node := place.everywhere_node tidy
    tidy_put := fun e same inside => place.tidy_put tidy same inside
    tag_put := fun e => rfl
    below := fun e same => (heldAt?_among first here same).1
    apart := fun e same => (heldAt?_among first here same).2
    node_nil := by rw [reads]; rfl
    node_cons := fun first rest => (reads (first :: rest)).symm
    ids := fun name _ e => place.idsNamed_put name e }

theorem isSubdirectory_of_missing {parent made : Element} {id : String} (tidy : Tidy parent)
    (isDirectory : parent.name = "Directory") (here : hasNameAndId "Directory" id made = true)
    (empty : made.elements = [])
    (new : ∀ x ∈ parent.elements, hasNameAndId "Directory" id x = false) :
    (Focus.mk made parent.add).IsSubdirectory parent id := by
  obtain ⟨directory, -⟩ := hasNameAndId_eq_true.mp here
  have missing : parent.elements.find? (hasNameAndId "Directory" id) = none :=
    List.find?_eq_none.mpr fun x mem => by simp [new x mem]
  -- as nothing with the id was there, all readings of the parent below it were empty
  have absent : ∀ path, parent.heldAt? (id :: path) = none := fun path => by
    rw [heldAt?_cons, missing, Option.bind_none]
  have here' : ∀ e : Element, e.tag = made.tag → hasNameAndId "Directory" id e = true :=
    fun e same => (hasNameAndId_eq_of_tag same _ _).trans here
  refine {
    directory := here
    tidy_node := ?_
    tidy_put := fun e same inside => tidy.addDirectory isDirectory inside (here' e same) new
    tag_put := fun e => rfl
    below := fun e same path => ?_
    apart := fun e same path other => ?_
    node_nil := by rw [absent]; simp [holdings, empty]
    node_cons := fun first rest => by rw [absent, heldAt?_cons, empty]; rfl
    ids := fun name other e => ?_ }
  · refine tidy_iff.mpr ⟨tidyTags_of_none ?_, by simp [empty]⟩
    simp [directoryIds, elementsNamed, empty]
  · have last : [e].find? (hasNameAndId "Directory" id) = some e := by simp [here' e same]
    rw [heldAt?_cons]
    simp only [elements_add, List.find?_append, missing, last, Option.none_or, Option.bind_some]
  · cases path with
    | nil =>
      have name : e.name = "Directory" := (name_eq_of_tag same).trans directory
      simp [holdings, name]
    | cons id' path =>
      have different : hasNameAndId "Directory" id' e = false := by
        rw [← Bool.not_eq_true, hasNameAndId_eq_true, (hasNameAndId_eq_true.mp (here' e same)).2]
        rintro ⟨-, equal⟩
        exact other (by simpa using equal.symm)
      rw [heldAt?_cons, heldAt?_cons]
      simp [List.find?_append, different]
  · have nothing : made.idsNamed name = [] := by
      rw [idsNamed_eq_flatMap, empty, directory]
      simp [other.symm]
    simp [nothing, idsNamed_add]

/-- A directory with a certain id is opened inside another one, and made if it is not there. -/
theorem isSubdirectory_focusChildOr {parent made : Element} {id : String} (tidy : Tidy parent)
    (isDirectory : parent.name = "Directory") (here : hasNameAndId "Directory" id made = true)
    (empty : made.elements = []) :
    (parent.focusChildOr (hasNameAndId "Directory" id) made).IsSubdirectory parent id := by
  rw [focusChildOr]
  cases found : parent.focusChild? (hasNameAndId "Directory" id) with
  | some focus => exact isSubdirectory_of_found tidy found
  | none =>
    refine isSubdirectory_of_missing tidy isDirectory here empty ?_
    rw [focusChild?, Option.map_eq_none_iff] at found
    exact focusAmong?_eq_none found

end Focus

end Installer.Markup
