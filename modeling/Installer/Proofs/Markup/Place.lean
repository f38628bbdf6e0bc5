import Installer.Proofs.Markup.Subtree
import Installer.Source.Directory

/-! # Places in a subtree

A focus on an element of a tree changes one place and keeps the rest.  `IsPlace` says so by the way
down to the place, every search of the library is shown to return such a focus, and the laws about
changed trees follow from `IsPlace` alone:

* names that occur (`IsPlace.only`),
* what an element and its children look like from outside (`IsPlace.everywhere`),
* the ids of the elements of one name (`IsPlace.idsNamed_put`).
-/

namespace Installer.Markup

open Element

/-! ## Tags -/

namespace Element

/-- The name and attributes of an element, which is all that its opening tag shows. -/
def tag (e : Element) : String × List (String × String) :=
  (e.name, e.attrs)

theorem name_eq_of_tag {e f : Element} (same : e.tag = f.tag) : e.name = f.name :=
  congrArg Prod.fst same

theorem id?_eq_of_tag {e f : Element} (same : e.tag = f.tag) : e.id? = f.id? :=
  congrArg (fun tag => tag.2.lookup "Id") same

theorem hasNameAndId_eq_of_tag {e f : Element} (same : e.tag = f.tag) (name id : String) :
    hasNameAndId name id e = hasNameAndId name id f := by
  simp [hasNameAndId, name_eq_of_tag same, id?_eq_of_tag same]

@[simp] theorem tag_addNodes (e : Element) (nodes : List (Node Element)) :
    (e.addNodes nodes).tag = e.tag := rfl

@[simp] theorem tag_addAll (e : Element) (children : List Element) :
    (e.addAll children).tag = e.tag := rfl

/-- The tags of the elements at and below an element, in document order. -/
def tags (e : Element) : List (String × List (String × String)) :=
  e.subtree.map tag

theorem tags_mk (name : String) (attrs : List (String × String)) (children : List (Node Element)) :
    tags ⟨name, attrs, children⟩ = (name, attrs) :: (descendantsIn children).map tag := by
  simp [tags, subtree, descendants_eq, tag]

/-- The ids of the elements of one name at and below an element, in document order. -/
def idsNamed (name : String) (e : Element) : List (Option String) :=
  (e.subtree.filter fun x => x.name == name).map id?

theorem idsNamed_eq_tags (name : String) (e : Element) :
    e.idsNamed name = (e.tags.filter fun t => t.1 == name).map fun t => t.2.lookup "Id" := by
  rw [tags, List.filter_map, List.map_map]
  rfl

theorem idsNamed_of_name_ne {name : String} {e : Element} (other : e.name ≠ name) :
    e.idsNamed name = (e.descendantsNamed name).map id? := by
  simp [idsNamed, subtree, descendantsNamed, other]

theorem idsNamed_eq_flatMap (name : String) (e : Element) :
    e.idsNamed name =
      (if e.name = name then [e.id?] else []) ++ e.elements.flatMap (idsNamed name) := by
  rw [idsNamed, filter_subtree, List.map_append, List.map_flatMap]
  by_cases named : e.name = name
  · simp only [named, beq_self_eq_true, if_true]
    rfl
  · simp only [named, beq_iff_eq, if_false]
    rfl

theorem idsNamed_addAll (name : String) (e : Element) (children : List Element) :
    (e.addAll children).idsNamed name = e.idsNamed name ++ children.flatMap (idsNamed name) := by
  rw [idsNamed_eq_flatMap, idsNamed_eq_flatMap name e, elements_addAll, List.flatMap_append,
    List.append_assoc]
  rfl

theorem idsNamed_add (name : String) (e child : Element) :
    (e.add child).idsNamed name = e.idsNamed name ++ child.idsNamed name := by
  simpa [addAll, add] using idsNamed_addAll name e [child]

theorem idsNamed_of_only {name : String} {e : Element} (only : Only (· ≠ name) e) :
    e.idsNamed name = [] := by
  rw [idsNamed, List.map_eq_nil_iff, List.filter_eq_nil_iff]
  intro x mem
  simpa using only x mem

theorem only_of_idsNamed {name : String} {e : Element} (none : e.idsNamed name = []) :
    Only (· ≠ name) e := by
  rw [idsNamed, List.map_eq_nil_iff, List.filter_eq_nil_iff] at none
  intro x mem
  simpa using none x mem

end Element

/-! ## Places -/

namespace Focus

variable {focus : Focus Element} {whole e : Element}

/-- The focus is on the whole element or on a place in one of its child elements. -/
inductive IsPlace : Focus Element → Element → Prop where
  | whole (e : Element) : IsPlace (.whole e) e
  | child {focus : Focus Element} {child : Element} (name : String)
      (attrs : List (String × String)) (front back : List (Node Element))
      (inside : IsPlace focus child) :
      IsPlace (focus.within fun e => ⟨name, attrs, front ++ .element e :: back⟩)
        ⟨name, attrs, front ++ .element child :: back⟩

def IsPlaceAmong (focus : Focus (List (Node Element))) (nodes : List (Node Element)) : Prop :=
  ∃ (front : List (Node Element)) (child : Element) (back : List (Node Element))
    (inside : Focus Element), nodes = front ++ .element child :: back ∧ inside.IsPlace child ∧
      focus = inside.within fun e => front ++ .element e :: back

theorem IsPlaceAmong.cons {focus : Focus (List (Node Element))} {nodes : List (Node Element)}
    (among : focus.IsPlaceAmong nodes) (node : Node Element) :
    (focus.within fun nodes => node :: nodes).IsPlaceAmong (node :: nodes) := by
  obtain ⟨front, child, back, inside, rfl, place, rfl⟩ := among
  exact ⟨node :: front, child, back, inside, rfl, place, rfl⟩

theorem IsPlace.among {child : Element} (inside : focus.IsPlace child)
    (back : List (Node Element)) :
    (focus.within fun e => .element e :: back).IsPlaceAmong (.element child :: back) :=
  ⟨[], child, back, focus, rfl, inside, rfl⟩

theorem IsPlaceAmong.isPlace {focus : Focus (List (Node Element))} {nodes : List (Node Element)}
    (among : focus.IsPlaceAmong nodes) (name : String) (attrs : List (String × String)) :
    (focus.within fun nodes => (⟨name, attrs, nodes⟩ : Element)).IsPlace ⟨name, attrs, nodes⟩ := by
  obtain ⟨front, child, back, inside, rfl, place, rfl⟩ := among
  exact .child name attrs front back place

/-! ## Laws -/

/-- Putting back what is there changes nothing. -/
theorem IsPlace.put_node (place : focus.IsPlace whole) : focus.put focus.node = whole := by
  induction place with
  | whole e => rfl
  | child name attrs front back _ ih => simp [within, ih]

/-- The tag of the whole is kept as long as the tag at the place is. -/
theorem IsPlace.tag_put (place : focus.IsPlace whole) (same : e.tag = focus.node.tag) :
    (focus.put e).tag = whole.tag := by
  induction place with
  | whole e => exact same
  | child name attrs front back _ _ => rfl

/-- Only the tags at and below the place change. -/
theorem IsPlace.tags_put (place : focus.IsPlace whole) :
    ∃ front back, ∀ e, (focus.put e).tags = front ++ e.tags ++ back := by
  induction place with
  | whole e => exact ⟨[], [], fun e => by simp [Focus.whole]⟩
  | child name attrs before after _ ih =>
    obtain ⟨front, back, law⟩ := ih
    -- what stands before and after the child is the same whatever is put in
    refine ⟨(name, attrs) :: (descendantsIn before).map tag ++ front,
      back ++ (descendantsIn after).map tag, fun e => ?_⟩
    have node : ∀ x : Element, (descendantsIn (.element x :: after)).map tag =
        x.tags ++ (descendantsIn after).map tag := fun x => by
      simp [descendantsIn, tags, subtree]
    simp only [within, tags_mk, descendantsIn_append, List.map_append, node, law e,
      List.cons_append, List.append_assoc]

theorem IsPlace.only {allowed : String → Prop} (place : focus.IsPlace whole)
    (all : Only allowed whole) (new : Only allowed e) : Only allowed (focus.put e) := by
  induction place with
  | whole _ => exact new
  | child name attrs front back _ ih =>
    rw [only_iff] at all ⊢
    simp only [within, elements_mk_append, elements_mk_cons, List.forall_mem_append,
      List.forall_mem_cons] at all ⊢
    exact ⟨all.1, all.2.1, ih all.2.2.1, all.2.2.2⟩

theorem IsPlace.only_node {allowed : String → Prop} (place : focus.IsPlace whole)
    (all : Only allowed whole) : Only allowed focus.node := by
  induction place with
  | whole _ => exact all
  | child name attrs front back _ ih => exact ih (all.child (by simp))

/-- A relation between the tag of an element and the tags of its children goes on holding
everywhere, as long as it holds in what is put in and the tag at the place is kept. -/
theorem IsPlace.everywhere
    {local_ : String × List (String × String) → List (String × List (String × String)) → Prop}
    (place : focus.IsPlace whole)
    (all : Everywhere (fun x => local_ x.tag (x.elements.map tag)) whole)
    (same : e.tag = focus.node.tag)
    (new : Everywhere (fun x => local_ x.tag (x.elements.map tag)) e) :
    Everywhere (fun x => local_ x.tag (x.elements.map tag)) (focus.put e) := by
  induction place with
  | whole _ => exact new
  | child name attrs front back inside ih =>
    have kept := inside.tag_put same
    rw [everywhere_iff] at all ⊢
    simp only [within, elements_mk_append, elements_mk_cons, List.forall_mem_append,
      List.forall_mem_cons, List.map_append, List.map_cons] at all ⊢
    rw [kept]
    exact ⟨all.1, all.2.1, ih all.2.2.1 same, all.2.2.2⟩

/-- What is found at the place is all that is found, if nothing was found before and the search sees
tags of elements and of their children only. -/
theorem IsPlace.filter_put {p : Element → Bool} (place : focus.IsPlace whole)
    (sees : ∀ x y : Element, x.tag = y.tag → x.elements.map tag = y.elements.map tag → p x = p y)
    (nothing : whole.subtree.filter p = []) (same : e.tag = focus.node.tag) :
    (focus.put e).subtree.filter p = e.subtree.filter p := by
  induction place with
  | whole _ => rfl
  | @child focus child name attrs front back inside ih =>
    have kept := inside.tag_put same
    have outer : p (⟨name, attrs, front ++ .element (focus.put e) :: back⟩) =
        p (⟨name, attrs, front ++ .element child :: back⟩) :=
      sees _ _ rfl (by simp [kept])
    rw [filter_subtree, List.append_eq_nil_iff, List.flatMap_eq_nil_iff] at nothing
    obtain ⟨here, below⟩ := nothing
    have hidden : ¬ p ⟨name, attrs, front ++ .element child :: back⟩ = true := fun seen => by
      simp [seen] at here
    simp only [elements_mk_append, elements_mk_cons, List.forall_mem_append,
      List.forall_mem_cons] at below
    -- the element around the place and the other children give nothing, as before
    rw [filter_subtree]
    simp only [within, outer, if_neg hidden, elements_mk_append, elements_mk_cons,
      List.flatMap_append, List.flatMap_cons, List.flatMap_eq_nil_iff.mpr below.1,
      List.flatMap_eq_nil_iff.mpr below.2.2, ih below.2.1 same, List.nil_append, List.append_nil]

theorem IsPlace.everywhere_node {p : Element → Prop} (place : focus.IsPlace whole)
    (all : Everywhere p whole) : Everywhere p focus.node := by
  induction place with
  | whole _ => exact all
  | child name attrs front back _ ih => exact ih (all.child (by simp))

/-- When `old` goes out and `new` comes in, what is new in it is what is new in the whole. -/
theorem perm_append_of_exchange {α : Type} {before after old new extra : List α}
    (exchange : (after ++ old).Perm (before ++ new)) (grown : new.Perm (old ++ extra)) :
    after.Perm (before ++ extra) := by
  refine (List.perm_append_right_iff old).mp ?_
  refine (exchange.trans (grown.append_left _)).trans ?_
  rw [List.append_assoc]
  exact List.perm_append_comm.append_left _

/-- The ids of one name after a change: those that went with the old element at the place are gone,
those of the new one are there. -/
theorem IsPlace.idsNamed_put (place : focus.IsPlace whole) (name : String) (e : Element) :
    ((focus.put e).idsNamed name ++ focus.node.idsNamed name).Perm
      (whole.idsNamed name ++ e.idsNamed name) := by
  obtain ⟨front, back, law⟩ := place.tags_put
  have old := law focus.node
  rw [place.put_node] at old
  simp only [idsNamed_eq_tags, law e, old, List.filter_append, List.map_append, List.append_assoc]
  refine List.Perm.append_left _ ?_
  -- new ++ (back ++ old) against old ++ (back ++ new)
  refine List.perm_append_comm.trans ?_
  rw [List.append_assoc]
  exact List.perm_append_comm_assoc _ _ _

end Focus

/-! ## Searches -/

namespace Element

open Focus

mutual

theorem isPlace_of_focus? {p : Element → Bool} {focus : Focus Element} :
    ∀ {e : Element}, e.focus? p = some focus → focus.IsPlace e ∧ p focus.node = true
  | ⟨name, attrs, nodes⟩, found => by
    rw [focus?, Option.map_eq_some_iff] at found
    obtain ⟨inside, among, rfl⟩ := found
    obtain ⟨place, holds⟩ := isPlaceAmong_of_focusIn? among
    exact ⟨place.isPlace name attrs, holds⟩

theorem isPlaceAmong_of_focusIn? {p : Element → Bool} {focus : Focus (List (Node Element))} :
    ∀ {nodes : List (Node Element)}, focusIn? p nodes = some focus →
      focus.IsPlaceAmong nodes ∧ p focus.node = true
  | [], found => nomatch found
  | .element child :: rest, found => by
    rw [focusIn?] at found
    split at found
    next holds =>
      cases found
      exact ⟨(IsPlace.whole child).among rest, holds⟩
    next =>
      cases below : focus? p child with
      | some inside =>
        simp only [below, Option.some.injEq] at found
        subst found
        obtain ⟨place, holds⟩ := isPlace_of_focus? below
        exact ⟨place.among rest, holds⟩
      | none =>
        simp only [below, Option.map_eq_some_iff] at found
        obtain ⟨later, among, rfl⟩ := found
        obtain ⟨place, holds⟩ := isPlaceAmong_of_focusIn? among
        exact ⟨place.cons _, holds⟩
  | .text _ :: rest, found | .cdata _ :: rest, found => by
    rw [focusIn?, Option.map_eq_some_iff] at found
    obtain ⟨later, among, rfl⟩ := found
    obtain ⟨place, holds⟩ := isPlaceAmong_of_focusIn? among
    exact ⟨place.cons _, holds⟩

end

mutual

theorem focus?_eq_none {p : Element → Bool} :
    ∀ {e : Element}, e.focus? p = none → ∀ x ∈ e.descendants, p x = false
  | ⟨name, attrs, nodes⟩, missing => by
    rw [focus?, Option.map_eq_none_iff] at missing
    rw [descendants]
    exact focusIn?_eq_none missing

theorem focusIn?_eq_none {p : Element → Bool} :
    ∀ {nodes : List (Node Element)}, focusIn? p nodes = none →
      ∀ x ∈ descendantsIn nodes, p x = false
  | [], _ => by simp [descendantsIn]
  | .element child :: rest, missing => by
    rw [focusIn?] at missing
    split at missing
    next => cases missing
    next notHere =>
      cases below : focus? p child with
      | some inside => simp [below] at missing
      | none =>
        simp only [below, Option.map_eq_none_iff] at missing
        simp only [descendantsIn, List.forall_mem_cons, List.forall_mem_append]
        exact ⟨by simpa using notHere, focus?_eq_none below, focusIn?_eq_none missing⟩
  | .text _ :: rest, missing | .cdata _ :: rest, missing => by
    rw [focusIn?, Option.map_eq_none_iff] at missing
    rw [descendantsIn]
    exact focusIn?_eq_none missing

end

theorem focusAmong?_eq_some {p : Element → Bool} {focus : Focus (List (Node Element))}
    {nodes : List (Node Element)} (found : focusAmong? p nodes = some focus) :
    ∃ front back, nodes = front ++ .element focus.node :: back ∧ p focus.node = true ∧
      (∀ x ∈ front.filterMap Node.element?, p x = false) ∧
      focus.put = fun e => front ++ .element e :: back := by
  induction nodes generalizing focus with
  | nil => cases found
  | cons node rest ih =>
    rw [focusAmong?] at found
    split at found
    next child isChild =>
      cases found
      obtain ⟨isElement, holds⟩ := Option.filter_eq_some_iff.mp isChild
      cases node with
      | element x =>
        cases isElement
        exact ⟨[], rest, rfl, holds, by simp, rfl⟩
      | text _ | cdata _ => cases isElement
    next notChild =>
      rw [Option.map_eq_some_iff] at found
      obtain ⟨later, among, rfl⟩ := found
      obtain ⟨front, back, rfl, holds, none, put⟩ := ih among
      refine ⟨node :: front, back, rfl, holds, ?_, by simp [within, put]⟩
      intro x mem
      cases node with
      | element first =>
        rcases List.mem_cons.mp mem with rfl | mem
        · simpa [Node.element?] using notChild
        · exact none x mem
      | text _ | cdata _ => exact none x mem

theorem focusAmong?_eq_none {p : Element → Bool} {nodes : List (Node Element)}
    (missing : focusAmong? p nodes = none) : ∀ x ∈ nodes.filterMap Node.element?, p x = false := by
  induction nodes with
  | nil => simp
  | cons node rest ih =>
    rw [focusAmong?] at missing
    split at missing
    next => cases missing
    next notChild =>
      have later := ih (by simpa using missing)
      intro x mem
      cases node with
      | element first =>
        rcases List.mem_cons.mp mem with rfl | mem
        · simpa [Node.element?] using notChild
        · exact later x mem
      | text _ | cdata _ => exact later x mem

theorem isPlace_of_focusChild? {p : Element → Bool} {focus : Focus Element} {e : Element}
    (found : e.focusChild? p = some focus) : focus.IsPlace e ∧ p focus.node = true := by
  obtain ⟨name, attrs, nodes⟩ := e
  rw [focusChild?, Option.map_eq_some_iff] at found
  obtain ⟨⟨node, put⟩, among, rfl⟩ := found
  obtain ⟨front, back, rfl, holds, -, rfl⟩ := focusAmong?_eq_some among
  exact ⟨.child name attrs front back (.whole node), holds⟩

/-- A child that has to be there is found or added. -/
theorem focusChildOr_cases (e : Element) (p : Element → Bool) (made : Element) :
    ((e.focusChildOr p made).IsPlace e ∧ p (e.focusChildOr p made).node = true) ∨
      e.focusChildOr p made = ⟨made, e.add⟩ := by
  rw [focusChildOr]
  cases found : e.focusChild? p with
  | some focus => exact .inl (isPlace_of_focusChild? found)
  | none => exact .inr rfl

/-- The place of a child that has to be there changes nothing but that child. -/
theorem elements_focusChildOr (e : Element) (p : Element → Bool) (made : Element) :
    ∃ front back,
      (∀ x, ((e.focusChildOr p made).put x).tag = e.tag ∧
        ((e.focusChildOr p made).put x).elements = front ++ x :: back) ∧
      (∀ y ∈ front ++ back, y ∈ e.elements) ∧
      ((e.focusChildOr p made).node ∈ e.elements ∧ p (e.focusChildOr p made).node = true ∨
        (e.focusChildOr p made).node = made) := by
  rw [focusChildOr]
  cases found : e.focusChild? p with
  | none =>
    exact ⟨e.elements, [], fun x => ⟨rfl, elements_add e x⟩, by simp, .inr rfl⟩
  | some focus =>
    obtain ⟨name, attrs, nodes⟩ := e
    rw [focusChild?, Option.map_eq_some_iff] at found
    obtain ⟨⟨node, put⟩, among, rfl⟩ := found
    obtain ⟨front, back, rfl, holds, -, rfl⟩ := focusAmong?_eq_some among
    refine ⟨elements ⟨name, attrs, front⟩, elements ⟨name, attrs, back⟩,
      fun x => ⟨rfl, by simp [within]⟩, fun y mem => ?_, .inl ⟨by simp [within], holds⟩⟩
    simp only [elements_mk_append, elements_mk_cons, List.mem_append, List.mem_cons] at mem ⊢
    exact mem.imp_right .inr

mutual

theorem isPlace_installRoot : ∀ e : Element, e.installRoot.IsPlace e
  | ⟨name, attrs, nodes⟩ => by
    rw [installRoot]
    split
    next => exact .whole _
    next =>
      split
      next among found => exact (isPlaceAmong_of_installRootIn? found).isPlace name attrs
      next => exact .whole _

theorem isPlaceAmong_of_installRootIn? {focus : Focus (List (Node Element))} :
    ∀ {nodes : List (Node Element)}, installRootIn? nodes = some focus → focus.IsPlaceAmong nodes
  | [], found => nomatch found
  | .element child :: rest, found => by
    rw [installRootIn?] at found
    split at found
    next =>
      cases found
      exact (isPlace_installRoot child).among rest
    next =>
      rw [Option.map_eq_some_iff] at found
      obtain ⟨later, among, rfl⟩ := found
      exact (isPlaceAmong_of_installRootIn? among).cons _
  | .text _ :: rest, found | .cdata _ :: rest, found => by
    rw [installRootIn?, Option.map_eq_some_iff] at found
    obtain ⟨later, among, rfl⟩ := found
    exact (isPlaceAmong_of_installRootIn? among).cons _

end

mutual

/-- The place for standalone components is a directory when the search starts in one. -/
theorem name_installRoot :
    ∀ {e : Element}, e.name = "Directory" → e.installRoot.node.name = "Directory"
  | ⟨name, attrs, nodes⟩, directory => by
    rw [installRoot]
    split
    next => exact directory
    next =>
      split
      next among found =>
        have below : among.node.name = "Directory" := name_installRootIn? found
        exact below
      next => exact directory

theorem name_installRootIn? {focus : Focus (List (Node Element))} :
    ∀ {nodes : List (Node Element)}, installRootIn? nodes = some focus →
      focus.node.name = "Directory"
  | .element child :: rest, found => by
    rw [installRootIn?] at found
    split at found
    next directory =>
      cases found
      exact name_installRoot (by simpa using directory)
    next =>
      obtain ⟨later, among, rfl⟩ := Option.map_eq_some_iff.mp found
      have below : later.node.name = "Directory" := name_installRootIn? among
      exact below
  | .text _ :: rest, found | .cdata _ :: rest, found => by
    rw [installRootIn?] at found
    obtain ⟨later, among, rfl⟩ := Option.map_eq_some_iff.mp found
    have below : later.node.name = "Directory" := name_installRootIn? among
    exact below

end

end Element

end Installer.Markup
