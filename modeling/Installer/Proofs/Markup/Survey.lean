import Installer.Proofs.Markup.Directories
import Installer.Proofs.Markup.Place
import Mathlib.Data.List.Perm.Basic

/-! # Searches and surveys of a tree

Looking for an element and looking for its place find the same element, and a name and an id are
found if and only if some descendant has them.

A survey looks at every element of a tree, at its opening tag and at those of its children, and
collects what it sees.  Counting ids, finding out which element refers to which, and looking for
elements without some child are surveys.  When a place in a tree is changed, the survey of the tree
changes by as much as the survey of the place.
-/

namespace Installer.Markup.Element

variable {p : Element → Bool}

mutual

theorem node_focus? (p : Element → Bool) :
    ∀ e : Element, (e.focus? p).map Focus.node = e.descendants.find? p
  | ⟨name, attrs, nodes⟩ => by
    rw [focus?, descendants, Option.map_map, ← node_focusIn? p nodes]
    rfl

theorem node_focusIn? (p : Element → Bool) :
    ∀ nodes : List (Node Element),
      (focusIn? p nodes).map Focus.node = (descendantsIn nodes).find? p
  | [] => rfl
  | .element child :: rest => by
    rw [focusIn?, descendantsIn, List.find?_cons, List.find?_append, ← node_focus? p child,
      ← node_focusIn? p rest]
    cases here : p child with
    | true => rfl
    | false =>
      simp only [Bool.false_eq_true, if_false]
      cases below : focus? p child with
      | some focus => rfl
      | none =>
        simp only [Option.map_map, Option.map_none, Option.none_or]
        rfl
  | .text _ :: rest | .cdata _ :: rest => by
    rw [focusIn?, descendantsIn, Option.map_map, ← node_focusIn? p rest]
    rfl

end

theorem isSome_focusById? (e : Element) (name id : String) :
    (e.focusById? name id).isSome = (e.findById? name id).isSome := by
  rw [findById?, find?, ← node_focus?, Option.isSome_map]
  rfl

theorem isSome_findById?_iff {e : Element} {name id : String} :
    (e.findById? name id).isSome = true ↔ some id ∈ (e.descendantsNamed name).map id? := by
  simp [findById?, find?, descendantsNamed, List.find?_isSome, hasNameAndId, and_assoc]

/-! ## A search that finds the last child -/

theorem focusIn?_append_of_eq_none {child : Element} {nodes : List (Node Element)}
    (missing : focusIn? p nodes = none) (found : p child = true) :
    focusIn? p (nodes ++ [.element child]) =
      some ⟨child, fun e => nodes ++ [.element e]⟩ := by
  induction nodes with
  | nil => simp [focusIn?, found]
  | cons node rest ih =>
    cases node with
    | element other =>
      rw [focusIn?] at missing
      split at missing
      next => cases missing
      next notHere =>
        cases below : focus? p other with
        | some focus => simp [below] at missing
        | none =>
          simp only [below, Option.map_eq_none_iff] at missing
          rw [List.cons_append, focusIn?, if_neg notHere, below, ih missing]
          rfl
    | text _ | cdata _ =>
      rw [focusIn?, Option.map_eq_none_iff] at missing
      rw [List.cons_append, focusIn?, ih missing]
      rfl

theorem focus?_add_of_eq_none {e child : Element} (missing : e.focus? p = none)
    (found : p child = true) : (e.add child).focus? p = some ⟨child, e.add⟩ := by
  obtain ⟨name, attrs, nodes⟩ := e
  rw [focus?, Option.map_eq_none_iff] at missing
  change focus? p ⟨name, attrs, nodes ++ [.element child]⟩ = _
  rw [focus?, focusIn?_append_of_eq_none missing found]
  rfl

end Installer.Markup.Element

/-! ## What a survey sees -/

namespace Installer.Markup

open Element
open scoped List

namespace Element

abbrev Tag : Type :=
  String × List (String × String)

variable {α : Type} {look : Tag → List Tag → List α}

def survey (look : Tag → List Tag → List α) (e : Element) : List α :=
  e.subtree.flatMap fun x => look x.tag (x.elements.map tag)

theorem survey_eq (look : Tag → List Tag → List α) (e : Element) :
    e.survey look = look e.tag (e.elements.map tag) ++ e.elements.flatMap (survey look) := by
  rw [survey, subtree, List.flatMap_cons, descendants_eq_flatMap, List.flatMap_assoc]
  rfl

/-- Below the names that a survey is about there is nothing to see. -/
theorem survey_eq_nil {allowed : String → Prop} {e : Element}
    (quiet : ∀ (t : Tag) (ts : List Tag), allowed t.1 → (∀ x ∈ ts, allowed x.1) → look t ts = [])
    (only : Only allowed e) : e.survey look = [] := by
  rw [survey, List.flatMap_eq_nil_iff]
  intro x mem
  have here : Only allowed x := Everywhere.inside only x mem
  refine quiet _ _ here.here (List.forall_mem_map.mpr fun child isChild => ?_)
  exact (here.child isChild).here

/-- Every element below another one is a child of one element, below or at it. -/
theorem perm_flatMap_elements (e : Element) : (e.subtree.flatMap elements).Perm e.descendants := by
  induction e using induct with
  | step e ih =>
    have below : (e.elements.flatMap fun child => child.subtree.flatMap elements).Perm
        (e.elements.flatMap descendants) := List.Perm.flatMap_left _ ih
    rw [subtree, List.flatMap_cons, descendants_eq_flatMap e, List.flatMap_assoc]
    calc e.elements ++ e.elements.flatMap (fun child => child.subtree.flatMap elements)
      _ ~ e.elements.flatMap (fun child => [child]) ++ e.elements.flatMap descendants := by
        rw [List.flatMap_singleton']
        exact below.append_left _
      _ ~ e.elements.flatMap subtree := List.flatMap_append_perm ..

end Element

namespace Focus

variable {α : Type} {look : Tag → List Tag → List α} {focus : Focus Element} {whole e : Element}

/-- Around a place the same is seen, whatever is put there with the same tag. -/
theorem IsPlace.survey_put (place : focus.IsPlace whole) (look : Tag → List Tag → List α) :
    ∃ front back, ∀ e : Element, e.tag = focus.node.tag →
      (focus.put e).survey look = front ++ e.survey look ++ back := by
  induction place with
  | whole e => exact ⟨[], [], fun e _ => by simp [Focus.whole]⟩
  | @child focus child name attrs before after inside ih =>
    obtain ⟨front, back, law⟩ := ih
    let beforeAll := elements ⟨name, attrs, before⟩
    let afterAll := elements ⟨name, attrs, after⟩
    refine ⟨look (name, attrs) (beforeAll.map tag ++ child.tag :: afterAll.map tag) ++
        beforeAll.flatMap (survey look) ++ front,
      back ++ afterAll.flatMap (survey look), fun e same => ?_⟩
    have kept : (focus.put e).tag = child.tag := inside.tag_put same
    rw [survey_eq]
    simp only [within, elements_mk_append, elements_mk_cons, List.map_append, List.map_cons,
      List.flatMap_append, List.flatMap_cons, kept, law e same, List.append_assoc]
    rfl

/-- What is seen at the place is seen in the whole. -/
theorem IsPlace.mem_survey (place : focus.IsPlace whole) {x : α}
    (mem : x ∈ focus.node.survey look) : x ∈ whole.survey look := by
  obtain ⟨front, back, law⟩ := place.survey_put look
  rw [← place.put_node, law focus.node rfl]
  exact List.mem_append_left _ (List.mem_append_right _ mem)

/-- What is new at the place is new in the whole. -/
theorem IsPlace.perm_survey_put (place : focus.IsPlace whole) (same : e.tag = focus.node.tag)
    {extra : List α} (grown : (e.survey look).Perm (focus.node.survey look ++ extra)) :
    ((focus.put e).survey look).Perm (whole.survey look ++ extra) := by
  obtain ⟨front, back, law⟩ := place.survey_put look
  have old := law focus.node rfl
  rw [place.put_node] at old
  rw [law e same, old, List.append_assoc, List.append_assoc, List.append_assoc]
  refine List.Perm.append_left front ?_
  refine (grown.append_right back).trans ?_
  rw [List.append_assoc]
  exact List.perm_append_comm.append_left _

end Focus

end Installer.Markup
