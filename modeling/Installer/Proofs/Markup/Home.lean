import Installer.Proofs.Markup.Directories

/-! # The home of standalone components

The home is found on the way down through first subdirectories: it is the first directory there with
a component in it, or the last one.  `Focus.IsHome` tells how the way goes, and a focus with this
property is the one that the search returns.  Two facts follow.  In a tree where every directory
holds a component or another directory the home has a component already.  And components that are
added at home leave it where it is, so that the search can be made again before each of them.
-/

namespace Installer.Markup

open Element

namespace Element

/-! ## Settled directories -/

def Owns (e : Element) : Prop :=
  ∃ x ∈ e.elements, x.name = "Component"

/-- A component or a directory is directly inside the element. -/
def Settled (e : Element) : Prop :=
  ∃ x ∈ e.elements, x.name = "Component" ∨ x.name = "Directory"

/-- If `parent` is the tag of a directory, one of the tags inside it is that of a component or of a
directory. -/
def SettledTags (parent : String × List (String × String))
    (tags : List (String × List (String × String))) : Prop :=
  parent.1 = "Directory" → ∃ t ∈ tags, t.1 = "Component" ∨ t.1 = "Directory"

def Housed (e : Element) : Prop :=
  Everywhere (fun x => SettledTags x.tag (x.elements.map tag)) e

theorem isSome_child? {e : Element} {name : String} :
    (e.child? name).isSome = true ↔ ∃ x ∈ e.elements, x.name = name := by
  simp [child?]

theorem settledTags_iff {e : Element} :
    SettledTags e.tag (e.elements.map tag) ↔ (e.name = "Directory" → e.Settled) := by
  simp [SettledTags, Settled, tag]

theorem housed_iff {e : Element} :
    e.Housed ↔ (e.name = "Directory" → e.Settled) ∧ ∀ child ∈ e.elements, child.Housed := by
  rw [Housed, everywhere_iff, settledTags_iff]
  rfl

theorem Housed.child {e child : Element} (housed : e.Housed) (mem : child ∈ e.elements) :
    child.Housed :=
  Everywhere.child housed mem

theorem housed_of_only {e : Element} (only : Only (· ≠ "Directory") e) : e.Housed :=
  Everywhere.mono only fun _ other directory => absurd directory other

/-- A directory with no directory in it has a component. -/
theorem Housed.owns_of_leaf {e d : Element} (housed : e.Housed) (mem : d ∈ e.subtree)
    (directory : d.name = "Directory") (leaf : ∀ x ∈ d.elements, x.name ≠ "Directory") :
    d.Owns := by
  obtain ⟨x, inside, named⟩ := settledTags_iff.mp (housed d mem) directory
  exact ⟨x, inside, named.resolve_right (leaf x inside)⟩

theorem Owns.settled {e : Element} (owns : e.Owns) : e.Settled := by
  obtain ⟨x, mem, named⟩ := owns
  exact ⟨x, mem, .inl named⟩

theorem Owns.addAll {e : Element} (owns : e.Owns) (children : List Element) :
    (e.addAll children).Owns := by
  obtain ⟨x, mem, named⟩ := owns
  exact ⟨x, by simp [mem], named⟩

theorem Owns.add {e : Element} (owns : e.Owns) (child : Element) : (e.add child).Owns := by
  obtain ⟨x, mem, named⟩ := owns
  exact ⟨x, by simp [mem], named⟩

/-! ## The search among children -/

theorem focusAmong?_append {p : Element → Bool} {front back : List (Node Element)} {child : Element}
    (first : ∀ x ∈ front.filterMap Node.element?, p x = false) (here : p child = true) :
    focusAmong? p (front ++ .element child :: back) =
      some ⟨child, fun e => front ++ .element e :: back⟩ := by
  induction front with
  | nil => simp [focusAmong?, Node.element?, Option.filter, here]
  | cons node rest ih =>
    cases node with
    | element x =>
      have among : ∀ y ∈ x :: rest.filterMap Node.element?, p y = false := first
      rw [List.forall_mem_cons] at among
      simp [focusAmong?, Node.element?, Option.filter, among.1, ih among.2, Focus.within]
    | text _ | cdata _ => simp [focusAmong?, Node.element?, ih first, Focus.within]

theorem installRootIn?_eq (nodes : List (Node Element)) :
    installRootIn? nodes = (focusAmong? (fun x => x.name == "Directory") nodes).map fun place =>
      place.node.installRoot.within place.put := by
  induction nodes with
  | nil => rfl
  | cons node rest ih =>
    cases node with
    | element child =>
      rw [installRootIn?]
      by_cases directory : child.name = "Directory"
      · simp [focusAmong?, Node.element?, Option.filter, directory]
      · simp [focusAmong?, Node.element?, Option.filter, directory, ih]
        rfl
    | text _ | cdata _ =>
      rw [installRootIn?, ih, focusAmong?]
      simp only [Node.element?, Option.filter, Option.map_map]
      rfl

end Element

namespace Focus

variable {focus : Focus Element} {whole e : Element}

/-! ## The way home -/

/-- The focus is on the first directory with a component on the way down through first
subdirectories, or on the last one on that way. -/
inductive IsHome : Focus Element → Element → Prop where
  | stop {e : Element} (ends : e.Owns ∨ ∀ x ∈ e.elements, x.name ≠ "Directory") :
      IsHome (.whole e) e
  | deeper {focus : Focus Element} {child : Element} (name : String)
      (attrs : List (String × String)) (front back : List (Node Element))
      (unowned : ∀ x ∈ elements ⟨name, attrs, front ++ .element child :: back⟩,
        x.name ≠ "Component")
      (directory : child.name = "Directory")
      (first : ∀ x ∈ elements ⟨name, attrs, front⟩, x.name ≠ "Directory")
      (inside : IsHome focus child) :
      IsHome (focus.within fun e => ⟨name, attrs, front ++ .element e :: back⟩)
        ⟨name, attrs, front ++ .element child :: back⟩

theorem isHome_installRoot (e : Element) : e.installRoot.IsHome e := by
  refine e.induct (motive := fun e => e.installRoot.IsHome e) fun e ih => ?_
  obtain ⟨name, attrs, nodes⟩ := e
  rw [installRoot]
  split
  next owns => exact .stop (.inl (isSome_child?.mp owns))
  next unowned =>
    rw [isSome_child?, not_exists] at unowned
    rw [installRootIn?_eq]
    cases found : focusAmong? (fun x => x.name == "Directory") nodes with
    | none =>
      refine .stop (.inr fun x mem => ?_)
      simpa using focusAmong?_eq_none found x mem
    | some place =>
      obtain ⟨child, put⟩ := place
      obtain ⟨front, back, rfl, directory, first, rfl⟩ := focusAmong?_eq_some found
      exact .deeper name attrs front back (fun x mem named => unowned x ⟨mem, named⟩)
        (by simpa using directory) (fun x mem => by simpa using first x mem)
        (ih child (by simp))

theorem IsHome.eq_installRoot (home : focus.IsHome whole) : focus = whole.installRoot := by
  induction home with
  | @stop e ends =>
    obtain ⟨name, attrs, nodes⟩ := e
    rw [installRoot]
    split
    next => rfl
    next unowned =>
      rw [isSome_child?] at unowned
      rw [installRootIn?_eq]
      cases found : focusAmong? (fun x => x.name == "Directory") nodes with
      | none => rfl
      | some place =>
        -- a directory among the children has to be one that is not there
        obtain ⟨front, back, rfl, directory, -, -⟩ := focusAmong?_eq_some found
        exact absurd (eq_of_beq directory) (ends.resolve_left unowned place.node (by simp))
  | @deeper focus child name attrs front back unowned directory first inside ih =>
    have none : ¬ (child? ⟨name, attrs, front ++ .element child :: back⟩ "Component").isSome = true
        := by
      rw [isSome_child?]
      rintro ⟨x, mem, named⟩
      exact unowned x mem named
    have found : focusAmong? (fun x => x.name == "Directory") (front ++ .element child :: back) =
        some ⟨child, fun e => front ++ .element e :: back⟩ :=
      focusAmong?_append (fun x mem => by simpa using first x mem) (by simpa using directory)
    rw [installRoot, if_neg none, installRootIn?_eq, found, Option.map_some, ih]
    rfl

theorem IsHome.isPlace (home : focus.IsHome whole) : focus.IsPlace whole :=
  home.eq_installRoot ▸ isPlace_installRoot whole

theorem IsHome.owns (home : focus.IsHome whole) (housed : whole.Housed)
    (directory : whole.name = "Directory") : focus.node.Owns := by
  induction home with
  | stop ends =>
    rcases ends with owns | leaf
    · exact owns
    · exact housed.owns_of_leaf (List.mem_cons_self ..) directory leaf
  | deeper name attrs front back _ isDirectory _ _ ih =>
    exact ih (housed.child (by simp)) isDirectory

/-- A home with a component stays the home, whatever else is changed there. -/
theorem IsHome.put (home : focus.IsHome whole) (same : e.tag = focus.node.tag) (owns : e.Owns) :
    (Focus.mk e focus.put).IsHome (focus.put e) := by
  induction home with
  | stop _ => exact .stop (.inl owns)
  | @deeper focus child name attrs front back unowned directory first inside ih =>
    have kept : (focus.put e).name = child.name := name_eq_of_tag (inside.isPlace.tag_put same)
    refine .deeper name attrs front back ?_ (kept.trans directory) first (ih same)
    simp only [elements_mk_append, elements_mk_cons, List.forall_mem_append,
      List.forall_mem_cons] at unowned ⊢
    exact ⟨unowned.1, kept ▸ unowned.2.1, unowned.2.2⟩

end Focus

/-! ## Components that come home -/

namespace Element

theorem installRoot_put (whole : Element) {e : Element} (same : e.tag = whole.installRoot.node.tag)
    (owns : e.Owns) : (whole.installRoot.put e).installRoot = ⟨e, whole.installRoot.put⟩ :=
  ((Focus.isHome_installRoot whole).put same owns).eq_installRoot.symm

/-- The home is the same before each component that is added there, and in the end. -/
theorem foldl_modify_installRoot {whole : Element} (owns : whole.installRoot.node.Owns)
    (components : List Element) :
    components.foldl (fun tree x => tree.installRoot.modify (·.add x)) whole =
        whole.installRoot.modify (·.addAll components) ∧
      (whole.installRoot.modify (·.addAll components)).installRoot =
        ⟨whole.installRoot.node.addAll components, whole.installRoot.put⟩ := by
  refine ⟨?_, installRoot_put whole rfl (owns.addAll components)⟩
  induction components generalizing whole with
  | nil =>
    rw [List.foldl_nil, Focus.modify, addAll_nil, (isPlace_installRoot whole).put_node]
  | cons x rest ih =>
    have moved := installRoot_put whole (e := whole.installRoot.node.add x) rfl (owns.add x)
    rw [List.foldl_cons, Focus.modify, ih (moved ▸ owns.add x), Focus.modify, moved, Focus.modify,
      addAll_cons]

end Element

end Installer.Markup
