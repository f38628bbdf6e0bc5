import Installer.Proofs.Component.Booking
import Installer.Proofs.Markup.Place
import Installer.Source.Standalone

/-! # What components look like

A component stands for one entity.  It holds no directory, no feature and no other component, and
only the component of a file holds a file.  `IsComponent` says so, with the id of the component and
the files directly inside it, and every function of the library that makes a component is shown to
make one of this shape.  Whatever else a document holds is `Plain`.  `MadeFor` puts elements of both
kinds beside the bookings that they were made for.
-/

namespace Installer

namespace Markup.Element

/-- Neither a directory nor a component nor a file nor a feature is at or below the element. -/
def Plain (e : Element) : Prop :=
  Only (· ∉ ["Directory", "Component", "File", "Feature"]) e

theorem Plain.only {e : Element} (plain : Plain e) (name : String)
    (mem : name ∈ ["Directory", "Component", "File", "Feature"]) : Only (· ≠ name) e :=
  Everywhere.mono plain fun _ other equal => other (equal ▸ mem)

/-- The element is the component `id`, with the given files directly inside it. -/
structure IsComponent (e : Element) (id : String) (files : List Element) : Prop where
  name_eq : e.name = "Component"
  id_eq : e.id? = some id
  files_eq : e.elementsNamed "File" = files
  inside : ∀ child ∈ e.elements,
    (child.name = "File" ∧ ∀ x ∈ child.elements, Plain x) ∨ Plain child

namespace IsComponent

variable {e : Element} {id : String} {files : List Element}

theorem componentIds (shape : e.IsComponent id files) : e.idsNamed "Component" = [some id] := by
  have below : e.elements.flatMap (idsNamed "Component") = [] := by
    rw [List.flatMap_eq_nil_iff]
    intro child mem
    rcases shape.inside child mem with ⟨file, plain⟩ | plain
    · rw [idsNamed_eq_flatMap, file, if_neg (by decide), List.nil_append, List.flatMap_eq_nil_iff]
      exact fun x among => idsNamed_of_only ((plain x among).only _ (by decide))
    · exact idsNamed_of_only (plain.only _ (by decide))
  rw [idsNamed_eq_flatMap, if_pos shape.name_eq, below, shape.id_eq]
  rfl

theorem fileIds (shape : e.IsComponent id files) : e.idsNamed "File" = files.map id? := by
  -- each child gives its own id if it is a file and nothing otherwise
  have below : ∀ children : List Element, (∀ child ∈ children,
      (child.name = "File" ∧ ∀ x ∈ child.elements, Plain x) ∨ Plain child) →
      children.flatMap (idsNamed "File") =
        (children.filter fun child => child.name == "File").map id? := by
    intro children inside
    induction children with
    | nil => rfl
    | cons child rest ih =>
      rw [List.flatMap_cons, ih fun x mem => inside x (List.mem_cons_of_mem _ mem)]
      rcases inside child (List.mem_cons_self ..) with ⟨file, plain⟩ | plain
      · have none : child.elements.flatMap (idsNamed "File") = [] :=
          List.flatMap_eq_nil_iff.mpr fun x among =>
            idsNamed_of_only ((plain x among).only _ (by decide))
        rw [idsNamed_eq_flatMap, none]
        simp [file]
      · have other : child.name ≠ "File" := (plain.only _ (by decide)).here
        rw [idsNamed_of_only (plain.only _ (by decide))]
        simp [other]
  rw [idsNamed_eq_flatMap, shape.name_eq, if_neg (by decide), List.nil_append,
    below _ shape.inside, ← shape.files_eq]
  rfl

theorem only (shape : e.IsComponent id files) :
    ∀ name ∈ ["Directory", "Feature"], Only (· ≠ name) e := by
  intro name outer
  have among : name ∈ ["Directory", "Component", "File", "Feature"] := by
    simp only [List.mem_cons] at outer ⊢
    tauto
  have different : "Component" ≠ name ∧ "File" ≠ name := by
    constructor <;> (rintro rfl; revert outer; decide)
  refine only_iff.mpr ⟨shape.name_eq ▸ different.1, fun child mem => ?_⟩
  rcases shape.inside child mem with ⟨file, plain⟩ | plain
  · exact only_iff.mpr ⟨file ▸ different.2, fun x inside => (plain x inside).only name among⟩
  · exact plain.only name among

/-- A component keeps its shape when plain elements are added. -/
theorem addAll (shape : e.IsComponent id files) {children : List Element}
    (plain : ∀ child ∈ children, Plain child) : (e.addAll children).IsComponent id files where
  name_eq := shape.name_eq
  id_eq := shape.id_eq
  files_eq := by
    have none : children.filter (fun child => child.name == "File") = [] := by
      rw [List.filter_eq_nil_iff]
      intro child mem
      simpa using ((plain child mem).only "File" (by decide)).here
    rw [← shape.files_eq, elementsNamed, elements_addAll, List.filter_append, none, List.append_nil]
    rfl
  inside := by
    rw [elements_addAll, List.forall_mem_append]
    exact ⟨shape.inside, fun child mem => .inr (plain child mem)⟩

theorem add (shape : e.IsComponent id files) {child : Element} (plain : Plain child) :
    (e.add child).IsComponent id files := by
  have added : (e.addAll [child]).IsComponent id files :=
    shape.addAll (List.forall_mem_singleton.mpr plain)
  exact added

end IsComponent

end Markup.Element

/-! ## Plain parts -/

open Markup (Element)
open Markup.Element

@[simp] theorem Markup.Element.only_withFlags {allowed : String → Prop} {e : Element}
    {flags : List (String × Option Bool)} : Only allowed (e.withFlags flags) ↔ Only allowed e := by
  induction flags generalizing e with
  | nil => rfl
  | cons flag rest ih => exact ih.trans only_attr?

theorem plain_condition (condition : Condition) : Plain condition.element := by
  simp [Plain, Condition.element]

theorem plain_permission (permission : Permission) : Plain permission.element := by
  simp [Plain, Permission.element]

theorem plain_association (fileId : String) (a : FileAssociation) : Plain (a.element fileId) := by
  simp [Plain, FileAssociation.element]

theorem plain_service (service : ServiceInstaller) :
    ∀ x ∈ [service.installElement, service.controlElement], Plain x := by
  simp [Plain, ServiceInstaller.installElement, ServiceInstaller.controlElement]

theorem plain_shortcut (dirs : List Dir) (dirId fileId : String) (file : File)
    (shortcut : Shortcut) : Plain (shortcut.elementFor dirs dirId fileId file) := by
  simp [Plain, Shortcut.elementFor]

theorem plain_mergeModule (c : Compilation) (module : MergeModule) : Plain (module.element c) := by
  simp [Plain, MergeModule.element]

theorem plain_value (value : RegValue) : Plain (value.keyElement.add value.valueElement) := by
  have valuePlain : Plain value.valueElement := by
    rw [RegValue.valueElement]
    cases value.kind <;> simp [Plain]
  rw [Plain, only_add]
  exact ⟨by simp [RegValue.keyElement], valuePlain⟩

theorem plain_variable (id : String) (var : EnvVar) : Plain (var.element id) := by
  simp [Plain, EnvVar.element]

theorem plain_user (id : String) (user : User) : Plain (user.element id) := by
  simp [Plain, User.element]

theorem plain_sqlString (id : String) (dbId : Option String) (sql : SqlString) :
    Plain (sql.element id dbId) := by
  simp [Plain, SqlString.element]

theorem plain_sqlScript (id : String) (dbId : Option String) (script : SqlScript) :
    Plain (script.element id dbId) := by
  simp [Plain, SqlScript.element]

theorem plain_database (id : String) (db : SqlDatabase) : Plain (db.element id) := by
  simp [Plain, SqlDatabase.element]

theorem plain_databaseParts (db : SqlDatabase) (dbId : String) (reference : Option String) :
    ∀ x ∈ db.parts dbId reference, Plain x := by
  rw [SqlDatabase.parts, List.forall_mem_append]
  constructor
  · intro x mem
    obtain ⟨n, _, rfl⟩ := List.mem_mapIdx.mp mem
    exact plain_sqlString _ _ _
  · intro x mem
    obtain ⟨n, _, rfl⟩ := List.mem_mapIdx.mp mem
    exact plain_sqlScript _ _ _

theorem plain_certificate (id : String) (cert : Certificate) : Plain (cert.element id) := by
  simp [Plain, Certificate.element]

/-! ## Components -/

variable (c : Compilation)

theorem isComponent_component (id : String) : (c.component id).IsComponent id [] where
  name_eq := rfl
  id_eq := rfl
  files_eq := rfl
  inside := by simp [Compilation.component, elements]

theorem isComponent_conditioned (id : String) (condition : Option Condition) :
    ((c.component id).addAll (condition.map Condition.element).toList).IsComponent id [] := by
  refine (isComponent_component c id).addAll fun x mem => ?_
  cases condition with
  | none => cases mem
  | some condition =>
    cases List.mem_singleton.mp mem
    exact plain_condition condition

theorem isComponent_folder (id : String) : (DirBody.folderComponent c id).IsComponent id [] :=
  (isComponent_component c id).add (by simp [Plain])

theorem isComponent_shortcut (dirId : String) (shortcut : Shortcut) :
    (shortcut.component c dirId).IsComponent shortcut.finalId [] :=
  (isComponent_conditioned c _ _).add (by simp [Plain])

theorem isComponent_file (dirId : String) (file : File) :
    (file.component c dirId).IsComponent file.componentId [file.element c dirId] := by
  have named : (file.element c dirId).name = "File" := by simp [File.element]
  have conditioned := isComponent_conditioned c file.componentId file.condition
  -- the file goes into the component first, and what is added then is plain
  have held : (((c.component file.componentId).addAll
      (file.condition.map Condition.element).toList).add
        (file.element c dirId)).IsComponent file.componentId [file.element c dirId] := by
    refine ⟨conditioned.name_eq, conditioned.id_eq, ?_, ?_⟩
    · have old := conditioned.files_eq
      rw [elementsNamed] at old ⊢
      rw [elements_add, List.filter_append, old]
      simp [named]
    · rw [elements_add, List.forall_mem_append, List.forall_mem_singleton]
      refine ⟨conditioned.inside, .inl ⟨named, ?_⟩⟩
      have inside : (file.element c dirId).elements =
          file.shortcuts.map (Shortcut.elementFor c.project.dirs dirId file.finalId file) ++
            file.permissions.map Permission.element := by
        simp [File.element]
      simp only [inside, List.forall_mem_append, List.forall_mem_map]
      exact ⟨fun shortcut _ => plain_shortcut _ _ _ _ _, fun permission _ => plain_permission _⟩
  refine held.addAll ?_
  rw [List.forall_mem_append, List.forall_mem_map]
  refine ⟨fun x mem => ?_, fun a _ => plain_association _ a⟩
  obtain ⟨service, _, among⟩ := List.mem_flatMap.mp mem
  exact plain_service service x among

theorem isComponent_value (id : String) (value : RegValue) :
    (value.component c id).IsComponent id [] := by
  have start : (if value.win64 then (c.component id).attr "Win64" "yes"
      else c.component id).IsComponent id [] := by
    split
    next =>
      exact ⟨rfl, by simp [id?, attrOf?, attr, Compilation.component, setPair], rfl,
        by simp [Compilation.component, elements]⟩
    next => exact isComponent_component c id
  refine (start.addAll fun x mem => ?_).add (plain_value value)
  cases condition : value.condition with
  | none => simp [condition] at mem
  | some condition' =>
    simp only [condition, Option.map_some, Option.toList_some, List.mem_singleton] at mem
    exact mem ▸ plain_condition condition'

/-! ## Elements and their bookings -/

def Markup.Element.holdsFile (e : Element) : Bool :=
  !(e.elementsNamed "File").isEmpty

def Markup.Element.heldFileIds (elements : List Element) : List (Option String) :=
  elements.flatMap fun e => (e.elementsNamed "File").map id?

/-- The elements are made for the bookings, in this order.  `holders` are those among them that hold
a file. -/
structure MadeFor (bookings : List Booking) (elements holders : List Element) : Prop where
  componentIds : elements.flatMap (idsNamed "Component") =
    bookings.map fun booking => some booking.componentId
  holders_eq : elements.filter holdsFile = holders
  fileIds : elements.flatMap (idsNamed "File") = heldFileIds holders
  only : ∀ x ∈ elements, ∀ name ∈ ["Directory", "Feature"], Only (· ≠ name) x

namespace MadeFor

variable {bookings bookings₁ bookings₂ : List Booking}
  {elements elements₁ elements₂ holders holders₁ holders₂ : List Element}

theorem nil : MadeFor [] [] [] :=
  ⟨rfl, rfl, rfl, by simp⟩

theorem append (first : MadeFor bookings₁ elements₁ holders₁)
    (second : MadeFor bookings₂ elements₂ holders₂) :
    MadeFor (bookings₁ ++ bookings₂) (elements₁ ++ elements₂) (holders₁ ++ holders₂) where
  componentIds := by
    rw [List.flatMap_append, List.map_append, first.componentIds, second.componentIds]
  holders_eq := by rw [List.filter_append, first.holders_eq, second.holders_eq]
  fileIds := by
    rw [List.flatMap_append, heldFileIds, List.flatMap_append, first.fileIds, second.fileIds]
    rfl
  only := List.forall_mem_append.mpr ⟨first.only, second.only⟩

theorem featureIds (made : MadeFor bookings elements holders) :
    elements.flatMap (idsNamed "Feature") = [] :=
  List.flatMap_eq_nil_iff.mpr fun x mem => idsNamed_of_only (made.only x mem _ (by decide))

theorem component {booking : Booking} {e : Element}
    (shape : e.IsComponent booking.componentId []) : MadeFor [booking] [e] [] where
  componentIds := by simp [shape.componentIds]
  holders_eq := by simp [holdsFile, shape.files_eq]
  fileIds := by simp [shape.fileIds, heldFileIds]
  only := List.forall_mem_singleton.mpr shape.only

theorem fileComponent {booking : Booking} {e file : Element}
    (shape : e.IsComponent booking.componentId [file]) : MadeFor [booking] [e] [e] where
  componentIds := by simp [shape.componentIds]
  holders_eq := by simp [holdsFile, shape.files_eq]
  fileIds := by simp [shape.fileIds, heldFileIds, shape.files_eq]
  only := List.forall_mem_singleton.mpr shape.only

theorem plain (plain : ∀ x ∈ elements, Plain x) : MadeFor [] elements [] where
  componentIds := List.flatMap_eq_nil_iff.mpr fun x mem =>
    idsNamed_of_only ((plain x mem).only _ (by decide))
  holders_eq := by
    rw [List.filter_eq_nil_iff]
    intro x mem
    have none : x.elementsNamed "File" = [] := by
      rw [elementsNamed, List.filter_eq_nil_iff]
      intro child among
      simpa using (((plain x mem).only "File" (by decide)).child among).here
    simp [holdsFile, none]
  fileIds := List.flatMap_eq_nil_iff.mpr fun x mem =>
    idsNamed_of_only ((plain x mem).only _ (by decide))
  only := fun x mem name outer => (plain x mem).only name (by
    simp only [List.mem_cons] at outer ⊢
    tauto)

/-- One component for each member of a list, none of which holds a file. -/
theorem map_component {α : Type} {xs : List α} {make : α → Element} {booking : α → Booking}
    (shape : ∀ x ∈ xs, (make x).IsComponent (booking x).componentId []) :
    MadeFor (xs.map booking) (xs.map make) [] := by
  induction xs with
  | nil => exact nil
  | cons x rest ih =>
    have first := component (shape x (List.mem_cons_self ..))
    exact first.append (ih fun y mem => shape y (List.mem_cons_of_mem _ mem))

/-- One component for each member of a list, each with a file in it. -/
theorem map_fileComponent {α : Type} {xs : List α} {make file : α → Element}
    {booking : α → Booking}
    (shape : ∀ x ∈ xs, (make x).IsComponent (booking x).componentId [file x]) :
    MadeFor (xs.map booking) (xs.map make) (xs.map make) := by
  induction xs with
  | nil => exact nil
  | cons x rest ih =>
    have first := fileComponent (shape x (List.mem_cons_self ..))
    exact first.append (ih fun y mem => shape y (List.mem_cons_of_mem _ mem))

end MadeFor

end Installer
