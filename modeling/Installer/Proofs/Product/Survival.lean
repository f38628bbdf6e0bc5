import Installer.Proofs.Markup.Faithful
import Installer.Proofs.Product.Sound
import Mathlib.Data.List.Forall2

/-! # What survives in the text of a package

Which values of a document a reader of its text reports as they are.  A text of several lines never
survives as an attribute value; in a CDATA section it survives if no line ends in blanks.  The text
of every compiled project can be read, as long as the attribute names that the project gives are
names of XML, so that what survives in it is known for every value.
-/

namespace Installer.Markup

/-- The values of the element are reported as they are, and so is what is in its CDATA section. -/
structure Survives (e shown : Element) : Prop where
  attrs : shown.attrs = e.attrs
  cdata : ∀ content, e.children = [.cdata content] → shown.content = content

/-- The values have no white space but spaces, and the CDATA section has nothing to lose. -/
structure Lasts (e : Element) : Prop where
  attrs : ∀ pair ∈ e.attrs, OnlySpaces pair.2
  cdata : ∀ content, e.children = [.cdata content] → KeepsLines content

/-! ## One element -/

theorem onlySpaces_of_forall₂_reportedAttr {attrs : List (String × String)}
    (each : List.Forall₂ ReportedAttr attrs attrs) : ∀ pair ∈ attrs, OnlySpaces pair.2 :=
  fun pair mem => (List.forall₂_same.mp each pair mem).value.mp rfl

theorem Reported.survives_iff {e shown : Element} (reported : Reported e shown) :
    Survives e shown ↔ Lasts e := by
  cases reported with
  | mk name attrs content elements =>
    constructor
    · intro survives
      rw [survives.attrs] at attrs
      exact ⟨onlySpaces_of_forall₂_reportedAttr attrs, fun text same =>
        (content.cdata text same).2.mp (survives.cdata text same)⟩
    · intro lasts
      exact ⟨eq_of_forall₂_reportedAttr attrs lasts.attrs, fun text same =>
        (content.cdata text same).2.mpr (lasts.cdata text same)⟩

/-! ## Whole trees -/

theorem forall₂_iff_of_forall₂ {α β : Type} {r s : α → β → Prop} {p : α → Prop}
    (same : ∀ x y, r x y → (s x y ↔ p x)) {xs : List α} {ys : List β}
    (related : List.Forall₂ r xs ys) : List.Forall₂ s xs ys ↔ ∀ x ∈ xs, p x := by
  induction related with
  | nil => simp
  | cons first _ ih => rw [List.forall₂_cons, List.forall_mem_cons, same _ _ first, ih]

/-- All elements are reported in the order of the document. -/
theorem Reported.subtrees {e : Element} : ∀ {shown : Element}, Reported e shown →
    List.Forall₂ Reported e.subtree shown.subtree := by
  refine e.induct (motive := fun e => ∀ {shown : Element}, Reported e shown →
    List.Forall₂ Reported e.subtree shown.subtree) ?_
  intro e ih shown reported
  rw [Element.subtree, Element.subtree, Element.descendants_eq_flatMap,
    Element.descendants_eq_flatMap]
  refine .cons reported ?_
  cases reported with
  | mk name attrs content elements =>
    -- the children of both sides go in step, so that their subtrees can be put together
    generalize e.elements = children, shown.elements = others at elements ih
    induction elements with
    | nil => exact .nil
    | cons first _ rest =>
      rw [List.forall_mem_cons] at ih
      rw [List.flatMap_cons, List.flatMap_cons]
      exact List.rel_append (ih.1 first) (rest ih.2)

/-- Everything in a document survives if and only if each of its elements has nothing to lose. -/
theorem Reported.survive_iff {root shown : Element} (reported : Reported root shown) :
    List.Forall₂ Survives root.subtree shown.subtree ↔ Element.Everywhere Lasts root :=
  forall₂_iff_of_forall₂ (p := Lasts) (fun _ _ => Reported.survives_iff) reported.subtrees

end Installer.Markup

/-! ## Compiled projects -/

namespace Installer

open Markup (AreNames Element Lasts Legal LegalValues Reported Survives)
open Markup.Element

instance {names : List String} : Decidable (AreNames names) :=
  inferInstanceAs (Decidable (∀ name ∈ names, Markup.Xml.isName name.toList = true))

namespace Markup.Element

/-- The element holds a CDATA section with the content and nothing else. -/
def holdsCData (e : Element) (content : String) : Bool :=
  match e.children with
  | [.cdata given] => given == content
  | _ => false

theorem children_of_holdsCData {e : Element} {content : String}
    (holds : e.holdsCData content = true) : e.children = [.cdata content] := by
  rw [holdsCData] at holds
  split at holds
  next given children =>
    rw [eq_of_beq holds] at children
    exact children
  next => cases holds

end Markup.Element

namespace Project

variable {project : Project} {options : Options} {output : Output}

/-- A reader of the text of a compiled project reports an element for each element of its document.
Everything survives if and only if no attribute value has white space but spaces and no CDATA
section has a carriage return or a line that ends in blanks. -/
theorem survive_iff_of_compile (compiled : project.compile options = .ok output)
    (names : AreNames project.attributeNames) :
    ∃ shown, Markup.Xml.read? output.toText = some shown ∧ Reported output.document shown ∧
      (List.Forall₂ Survives output.document.subtree shown.subtree ↔
        Everywhere Lasts output.document) ∧
      (Everywhere LegalValues output.document → Legal output.toText.toList) := by
  have written := (sound_document compiled names).wellFormed
  obtain ⟨shown, read, reported⟩ := Markup.exists_read_format written
  exact ⟨shown, read, reported, reported.survive_iff, Markup.legal_format written⟩

/-- A project whose script has a line that ends in blanks. -/
def scripted : Project where
  name := "App"
  dirs := [{ name := "%ProgramFiles%\\App", files := [{ name := "app.exe" }] }]
  actions :=
    [{ name := "Setup", kind := .script "x = 1  \ny = 2",
       attributes := .ofList [("HideTarget", "yes")] }]

theorem survive_iff_scripted :
    ∃ output shown, scripted.compile {} = .ok output ∧ AreNames scripted.attributeNames ∧
      scripted.attributeNames = ["HideTarget"] ∧
      Markup.Xml.read? output.toText = some shown ∧ Reported output.document shown ∧
      (List.Forall₂ Survives output.document.subtree shown.subtree ↔
        Everywhere Lasts output.document) := by
  obtain ⟨output, compiled⟩ := exists_output
    (by decide +kernel : (scripted.compile {}).isOk = true)
  have given : scripted.attributeNames = ["HideTarget"] := by decide +kernel
  have names : AreNames scripted.attributeNames := by
    rw [given]
    decide
  obtain ⟨shown, read, reported, survive, -⟩ := survive_iff_of_compile compiled names
  exact ⟨output, shown, compiled, names, given, read, reported, survive⟩

/-- The script is in the document, but it is not what is reported for it. -/
theorem not_survive_scripted :
    ∃ output, scripted.compile {} = .ok output ∧
      ∃ e ∈ output.document.subtree, e.children = [.cdata "x = 1  \ny = 2"] ∧
        ∀ shown, Markup.Xml.read? output.toText = some shown →
          ¬ List.Forall₂ Survives output.document.subtree shown.subtree := by
  have holds : (scripted.compile {}).toOption.any (fun output =>
      output.document.subtree.any fun e => e.holdsCData "x = 1  \ny = 2") = true := by
    decide +kernel
  obtain ⟨output, compiled, holds⟩ := exists_output_of_any holds
  obtain ⟨e, mem, script⟩ := List.any_eq_true.mp holds
  have children := children_of_holdsCData script
  refine ⟨output, compiled, e, mem, children, fun shown read survive => ?_⟩
  have names : AreNames scripted.attributeNames := by decide +kernel
  obtain ⟨other, read', reported⟩ :=
    Markup.exists_read_format (sound_document compiled names).wellFormed
  obtain rfl : other = shown := Option.some.inj (read'.symm.trans read)
  -- the blanks at the end of the first line are trimmed
  have keeps := (reported.survive_iff.mp survive e mem).cdata _ children
  exact absurd keeps.2 (by decide)

end Project

end Installer
