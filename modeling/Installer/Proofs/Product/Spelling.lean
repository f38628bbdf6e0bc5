import Installer.Proofs.Directory.Respelled
import Installer.Proofs.Markup.Respelled
import Installer.Proofs.Product.Document

/-! # Spellings of directories in a document

How the paths of directories are spelled does not matter.  A single name that does not spell a
special folder may be spelled in another way, too, but it is shown in the document as it is spelled.
-/

namespace Installer

open Markup (Element Focus)
open Markup.Element
open Folder (SameFolder Respells RespellsPath)
open Dir (Respelled RespelledAll)

/-! ## Steps that follow each other -/

namespace Emit

variable {α β γ δ : Type}

/-- Whatever the first step gives, the second gives something related, with the same ledger. -/
def Follows (R : α → β → Prop) (step : Emit α) (other : Emit β) : Prop :=
  ∀ before result after, step.Gives before result after →
    ∃ result', other.Gives before result' after ∧ R result result'

namespace Follows

variable {R : α → β → Prop} {S : γ → δ → Prop} {step : Emit α} {other : Emit β}

theorem refl {R : α → α → Prop} (same : ∀ x, R x x) (step : Emit α) : Follows R step step :=
  fun _ result _ given => ⟨result, given, same result⟩

theorem pure {x : α} {y : β} (related : R x y) : Follows R (Pure.pure x) (Pure.pure y) := by
  intro before result after given
  obtain ⟨rfl, rfl⟩ := gives_pure.mp given
  exact ⟨y, gives_pure.mpr ⟨rfl, rfl⟩, related⟩

theorem bind {next : α → Emit γ} {next' : β → Emit δ} (first : Follows R step other)
    (second : ∀ x y, R x y → Follows S (next x) (next' y)) :
    Follows S (step >>= next) (other >>= next') := by
  intro before result after given
  obtain ⟨value, between, given, last⟩ := gives_bind.mp given
  obtain ⟨value', given', related⟩ := first _ _ _ given
  obtain ⟨result', last', related'⟩ := second value value' related _ _ _ last
  exact ⟨result', gives_bind.mpr ⟨value', between, given', last'⟩, related'⟩

/-- A first step that both share. -/
theorem after {first : Emit α} {next : α → Emit γ} {next' : α → Emit δ}
    (second : ∀ x, Follows S (next x) (next' x)) : Follows S (first >>= next) (first >>= next') :=
  (refl (fun _ => rfl) first).bind fun x _ same => same ▸ second x

theorem map {f : α → γ} {g : β → δ} (follows : Follows R step other)
    (related : ∀ x y, R x y → S (f x) (g y)) : Follows S (f <$> step) (g <$> other) := by
  rw [map_eq_pure_bind, map_eq_pure_bind]
  exact follows.bind fun x y same => pure (related x y same)

theorem foldlM {make : γ → α → Emit γ} {make' : δ → α → Emit δ}
    (each : ∀ x y entry, S x y → Follows S (make x entry) (make' y entry)) (entries : List α)
    {x : γ} {y : δ} (related : S x y) :
    Follows S (entries.foldlM make x) (entries.foldlM make' y) := by
  induction entries generalizing x y with
  | nil => exact pure related
  | cons entry rest ih =>
    rw [List.foldlM_cons, List.foldlM_cons]
    exact (each x y entry related).bind fun x y same => ih same

theorem liftM {x : Except CompileError α} {y : Except CompileError β}
    (related : ∀ a, x = .ok a → ∃ b, y = .ok b ∧ R a b) : Follows R (liftM x) (liftM y) := by
  intro before result after given
  obtain ⟨ok, rfl⟩ := gives_liftM.mp given
  obtain ⟨result', ok', same⟩ := related result ok
  exact ⟨result', gives_liftM.mpr ⟨ok', rfl⟩, same⟩

/-- The entity that a fault would name is of no account where there is no fault. -/
theorem assign (project : Project) (entity entity' : String) (feature : Option String)
    (id : String) :
    Follows (· = ·) (Emit.assign project entity feature id)
      (Emit.assign project entity' feature id) := by
  have check : Follows (· = ·) (Emit.checkFeature project entity feature)
      (Emit.checkFeature project entity' feature) := by
    cases feature with
    | none => exact refl (fun _ => rfl) _
    | some name =>
      rw [Emit.checkFeature, Emit.checkFeature]
      split
      next => exact refl (fun _ => rfl) _
      next => exact fun _ _ _ given => absurd given gives_fail
  exact check.bind fun _ _ _ => refl (fun _ => rfl) _

end Follows

end Emit

open Emit

/-! ## What refers to directories -/

section Respelled

variable {c : Compilation} {dirs' : List Dir}

/-- What is read from the directory that is found does not depend on its name. -/
theorem Dir.RespelledAll.finalId_find? {dirs : List Dir}
    (respelled : RespelledAll SameFolder dirs dirs')
    (path : String) :
    (Dir.find? dirs' path).map Dir.finalId = (Dir.find? dirs path).map Dir.finalId := by
  have found := respelled.find? path
  generalize Dir.find? dirs path = dir at found
  generalize Dir.find? dirs' path = dir' at found
  cases found with
  | none => rfl
  | some same => rw [Option.map_some, Option.map_some, same.finalId]

variable (respelled : RespelledAll SameFolder c.project.dirs dirs')

include respelled

theorem Shortcut.directoryId_respelled (ownDirId : String) (shortcut : Shortcut) :
    shortcut.directoryId dirs' ownDirId = shortcut.directoryId c.project.dirs ownDirId := by
  have found := respelled.finalId_find? shortcut.location
  rw [directoryId, directoryId]
  split
  next => rfl
  next =>
    generalize Dir.find? c.project.dirs shortcut.location = dir at found
    generalize Dir.find? dirs' shortcut.location = dir' at found
    cases dir <;> cases dir' <;> simp_all

theorem File.emit_respelled : File.emit (c.withDirs dirs') = File.emit c := by
  have elements : Shortcut.elementFor dirs' = Shortcut.elementFor c.project.dirs := by
    funext dirId fileId file shortcut
    rw [Shortcut.elementFor, Shortcut.elementFor, Shortcut.directoryId_respelled respelled]
  have notes : Shortcut.noteLocation dirs' = Shortcut.noteLocation c.project.dirs := by
    funext shortcut
    rw [Shortcut.noteLocation, Shortcut.noteLocation, Shortcut.isElsewhere, Shortcut.isElsewhere,
      isNone_eq_of_rel (respelled.find? shortcut.location)]
  funext dirId file
  have component : file.component (c.withDirs dirs') dirId = file.component c dirId := by
    have element : file.element (c.withDirs dirs') dirId = file.element c dirId := by
      rw [File.element, File.element, ← elements]
      rfl
    rw [File.component, File.component, element]
    rfl
  rw [File.emit, File.emit, component, ← notes]
  rfl

/-! ## The tree of directories -/

omit respelled in
theorem DirBody.emitFolder_follows (body : DirBody) (name' id : String) :
    Follows (· = ·) (body.emitFolder c id)
      (({ body with name := name' } : DirBody).emitFolder (c.withDirs dirs') id) :=
  (Follows.assign _ _ _ _ _).bind fun _ _ _ => .pure rfl

theorem DirBody.emitContents_follows (body : DirBody) (name' id : String) :
    Follows (· = ·) (body.emitContents c id)
      (({ body with name := name' } : DirBody).emitContents (c.withDirs dirs') id) := by
  have folder : Follows (· = ·) ((fun e => [e]) <$> body.emitFolder c ("Component." ++ id))
      ((fun e => [e]) <$> ({ body with name := name' } : DirBody).emitFolder (c.withDirs dirs')
        ("Component." ++ id)) :=
    (body.emitFolder_follows name' _).map fun _ _ same => by rw [same]
  rw [emitContents, emitContents, File.emit_respelled respelled]
  cases body.feature.isSome with
  | true =>
    simp only [if_true]
    exact folder.bind fun _ _ same => same ▸ .refl (fun _ => rfl) _
  | false =>
    simp only [Bool.false_eq_true, if_false]
    exact .refl (fun _ => rfl) _

omit respelled in
theorem DirBody.emitEmpty_follows (body : DirBody) (name' id : String) (hasComponent : Bool) :
    Follows (· = ·) (body.emitEmpty c id hasComponent)
      (({ body with name := name' } : DirBody).emitEmpty (c.withDirs dirs') id hasComponent) := by
  rw [emitEmpty, emitEmpty]
  cases hasComponent with
  | true => exact .refl (fun _ => rfl) _
  | false =>
    have folder : Follows (· = ·) ((fun e => [e]) <$> body.emitFolder c (id ++ ".EmptyDirectory"))
        ((fun e => [e]) <$> ({ body with name := name' } : DirBody).emitFolder (c.withDirs dirs')
          (id ++ ".EmptyDirectory")) :=
      (body.emitFolder_follows name' _).map fun _ _ same => by rw [same]
    exact folder.bind fun _ _ same => same ▸ .refl (fun _ => rfl) _

omit respelled in
/-- The name of a special folder is its id; any other name is shown as it is spelled. -/
theorem Dir.Respelled.element {dir dir' : Dir} (same : Dir.Respelled SameFolder dir dir') :
    Element.Respells dir.element dir'.element := by
  have id := same.finalId
  cases same with
  | mk name below =>
    rw [Dir.element, Dir.element, id, ← name.specialId]
    cases Folder.specialId? _ with
    | some folder => exact .refl _
    | none => exact .directory _ name.components .nil

theorem Dir.Respelled.emitBody {dir dir' : Dir} (same : Dir.Respelled SameFolder dir dir')
    {e e' : Element}
    (alike : Element.Respells e e') :
    Follows Element.Respells (dir.emitBody c e) (dir'.emitBody (c.withDirs dirs') e') := by
  rw [Dir.emitBody, Dir.emitBody, same.isEmpty, same.finalId, alike.isSome_child?]
  cases same with
  | mk name below =>
    split
    next =>
      exact (DirBody.emitEmpty_follows _ _ _ _).bind fun _ _ same => same ▸ .pure (alike.addAll _)
    next => exact (DirBody.emitContents_follows respelled _ _ _).bind fun _ _ same =>
      same ▸ .pure (alike.addAll _)

end Respelled

namespace Dir

variable {c : Compilation} {dirs' : List Dir} {root root' : Element}

mutual

theorem Respelled.emit (respelled : RespelledAll SameFolder c.project.dirs dirs') :
    ∀ {dir dir' : Dir}, Respelled SameFolder dir dir' → ∀ {e e' : Element}, Element.Respells e e' →
      Follows Element.Respells (dir.emit c e) (dir'.emit (c.withDirs dirs') e')
  | _, _, @Respelled.mk _ body _ dirs _ name below, e, e', alike => by
    have same := Respelled.mk name below
    have place := alike.focusChildOr (blind_hasNameAndId "Directory" (finalId ⟨body, dirs⟩))
      same.element
    rw [Dir.emit, Dir.emit]
    simp only [same.finalId]
    exact (same.emitBody respelled place.node).bind fun _ _ filled =>
      (RespelledAll.emitAll respelled below filled).bind fun _ _ inner => .pure (place.put inner)

/-- The directories are made into the same tree but for their names. -/
theorem RespelledAll.emitAll (respelled : RespelledAll SameFolder c.project.dirs dirs') :
    ∀ {placed placed' : List Dir}, RespelledAll SameFolder placed placed' →
      ∀ {e e' : Element}, Element.Respells e e' →
        Follows Element.Respells (Dir.emitAll c placed e)
          (Dir.emitAll (c.withDirs dirs') placed' e')
  | _, _, .nil, _, _, alike => by
    rw [Dir.emitAll, Dir.emitAll]
    exact .pure alike
  | _, _, .cons first others, _, _, alike => by
    rw [Dir.emitAll, Dir.emitAll]
    exact (Respelled.emit respelled first alike).bind fun _ _ made =>
      RespelledAll.emitAll respelled others made

end

theorem RespelledAll.anchor? {dirs : List Dir} (respelled : RespelledAll SameFolder dirs dirs')
    (location : String) :
    Option.Rel (fun found found' => Respelled SameFolder found.1 found'.1 ∧ found'.2 = found.2)
      (Dir.anchor? dirs location) (Dir.anchor? dirs' location) := by
  rw [Dir.anchor?, Dir.anchor?]
  induction (LogicalPath.initials location).drop 1 with
  | nil => exact .none
  | cons path rest ih =>
    rw [List.findSome?_cons, List.findSome?_cons]
    have found := respelled.find? path
    generalize Dir.find? dirs path = dir at found
    generalize Dir.find? dirs' path = dir' at found
    cases found with
    | none => exact ih
    | some same => exact .some ⟨same, rfl⟩

theorem emitLocation_follows (respelled : RespelledAll SameFolder c.project.dirs dirs')
    (alike : Element.Respells root root') (location : String) (feature : Option String) :
    Follows Element.Respells (emitLocation c root location feature)
      (emitLocation (c.withDirs dirs') root' location feature) := by
  have chained : ∀ (n : Nat) {e e' : Element}, Element.Respells e e' →
      Follows Element.Respells ((chain (LogicalPath.components location) n feature).emit c e)
        ((chain (LogicalPath.components location) n feature).emit (c.withDirs dirs') e') :=
    fun n _ _ alike => (Respelled.refl SameFolder.refl _).emit respelled alike
  have anchors : Option.Rel _ (anchor? c.project.dirs location)
      (anchor? (c.withDirs dirs').project.dirs location) := respelled.anchor? location
  simp only [emitLocation]
  split
  next => exact .pure alike
  next =>
    generalize anchor? c.project.dirs location = anchor at anchors
    generalize anchor? (c.withDirs dirs').project.dirs location = anchor' at anchors
    cases anchors with
    | none => exact chained 0 alike
    | @some found found' same =>
      obtain ⟨dir, m⟩ := found
      obtain ⟨dir', n⟩ := found'
      obtain ⟨same, rfl⟩ := same
      have places := alike.focus? (blind_hasNameAndId "Directory" dir.finalId)
      simp only [same.finalId, focusById?]
      generalize root.focus? _ = place at places
      generalize root'.focus? _ = place' at places
      cases places with
      | none => exact chained n alike
      | some place =>
        simp only [Focus.modifyM]
        exact (chained n place.node).bind fun _ _ made => .pure (place.put made)

/-- The tree is the same but for the names of directories. -/
theorem emitTree_follows (respelled : RespelledAll SameFolder c.project.dirs dirs') :
    Follows Element.Respells (emitTree c) (emitTree (c.withDirs dirs')) := by
  rw [emitTree, emitTree]
  refine (respelled.emitAll respelled (.refl _)).bind fun _ _ alike => ?_
  rw [emitLocations, emitLocations]
  exact .after fun ledger => .foldlM (fun _ _ entry alike =>
    emitLocation_follows respelled alike entry.1 entry.2) _ alike

end Dir

/-! ## The product -/

namespace CustomAction

variable {c : Compilation} {dirs' : List Dir}

theorem workingDirId_respelled (respelled : RespelledAll SameFolder c.project.dirs dirs') :
    workingDirId dirs' = workingDirId c.project.dirs := by
  funext workingDir
  have found := respelled.finalId_find? workingDir
  rw [workingDirId, workingDirId]
  generalize Dir.find? c.project.dirs workingDir = dir at found
  generalize Dir.find? dirs' workingDir = dir' at found
  cases dir <;> cases dir' <;> simp_all

theorem emit_respelled (respelled : RespelledAll SameFolder c.project.dirs dirs') :
    CustomAction.emit (c.withDirs dirs') = CustomAction.emit c := by
  have kind : ∀ made id placement action,
      emitKind (c.withDirs dirs') made id placement action =
        emitKind c made id placement action := by
    intro made id placement action
    rw [emitKind, emitKind]
    cases action.kind with
    | pathFile program args workingDir =>
      simp only [← workingDirId_respelled respelled]
      rfl
    | _ => rfl
  funext previous made action
  simp only [CustomAction.emit, kind]

theorem emitAll_respelled (respelled : RespelledAll SameFolder c.project.dirs dirs') :
    emitAll (c.withDirs dirs') = emitAll c := by
  have same : ∀ previous made actions,
      emitFrom (c.withDirs dirs') previous made actions = emitFrom c previous made actions := by
    intro previous made actions
    induction actions generalizing previous made with
    | nil => rfl
    | cons action rest ih => simp only [emitFrom, emit_respelled respelled, ih]
  rw [emitAll, emitAll, same]
  rfl

end CustomAction

namespace Compilation

variable {c : Compilation} {dirs' : List Dir}

theorem emitStandalone_withDirs (c : Compilation) (dirs : List Dir) :
    (c.withDirs dirs).emitStandalone = c.emitStandalone := by
  have users : ∀ count users,
      User.emitAll (c.withDirs dirs) count users = User.emitAll c count users := by
    intro count users
    induction users generalizing count with
    | nil => rfl
    | cons user rest ih =>
      simp only [User.emitAll, ih]
      rfl
  have databases : ∀ counts dbs,
      SqlDatabase.emitAll (c.withDirs dirs) counts dbs = SqlDatabase.emitAll c counts dbs := by
    intro counts dbs
    induction dbs generalizing counts with
    | nil => rfl
    | cons db rest ih =>
      simp only [SqlDatabase.emitAll, ih]
      rfl
  rw [emitStandalone, emitStandalone]
  simp only [users, databases]
  rfl

theorem emitInstalled_follows (respelled : RespelledAll SameFolder c.project.dirs dirs') :
    Follows Element.Respells c.emitInstalled (c.withDirs dirs').emitInstalled := by
  rw [emitInstalled, emitInstalled]
  refine (Dir.emitTree_follows respelled).bind fun tree tree' alike => ?_
  have place := alike.installRoot
  simp only [emitStandalone_withDirs]
  refine .after fun standalone => .pure ?_
  have filled := place.put (place.node.addAll standalone.components)
  exact (Element.Respells.refl _).addNodes (.element filled (.refl _))

end Compilation

namespace Markup.Element

variable {e e' : Element}

theorem Respells.addActions (alike : e.Respells e') (actions : ActionElements) :
    (e.addActions actions).Respells (e'.addActions actions) := by
  have entries : ∀ {e e' : Element}, e.Respells e' →
      (actions.entries.foldl (fun product entry => product.addEntry entry.1 entry.2) e).Respells
        (actions.entries.foldl (fun product entry => product.addEntry entry.1 entry.2) e') := by
    intro e e' alike
    induction actions.entries generalizing e e' with
    | nil => exact alike
    | cons entry rest ih =>
      have place := alike.focusChildOr (blind_of_name (· == Choice.name entry.1))
        (.refl { name := Choice.name entry.1 })
      exact ih (place.put (place.node.add (.refl entry.2)))
  exact entries (alike.addAll actions.definitions)

theorem Respells.withFeature (alike : e.Respells e') (feature : Feature) :
    (Project.withFeature e feature).Respells (Project.withFeature e' feature) := by
  rw [Project.withFeature, Project.withFeature, alike.isSome_findById?]
  split
  next => exact alike
  next => exact alike.add (.refl _)

theorem Respells.addMergeRef (alike : e.Respells e') (featureId moduleId : String) :
    (Project.addMergeRef e featureId moduleId).Respells
      (Project.addMergeRef e' featureId moduleId) := by
  have found := alike.focus? (blind_hasNameAndId "Feature" featureId)
  rw [Project.addMergeRef, Project.addMergeRef, focusById?, focusById?]
  generalize e.focus? _ = place at found
  generalize e'.focus? _ = place' at found
  cases found with
  | none => exact alike
  | some place => exact place.put (place.node.add (.refl _))

theorem Respells.wireMergeModule (alike : e.Respells e') (project : Project) (moduleId : String)
    (feature : Option String) {wired : Element}
    (given : project.wireMergeModule e moduleId feature = .ok wired) :
    ∃ wired', project.wireMergeModule e' moduleId feature = .ok wired' ∧ wired.Respells wired' := by
  cases feature with
  | none =>
    simp only [Project.wireMergeModule, alike.isSome_findById?] at given ⊢
    split at given
    next found =>
      obtain rfl := Except.ok.inj given
      exact ⟨_, if_pos found, alike.addMergeRef _ _⟩
    next => cases given
  | some name =>
    simp only [Project.wireMergeModule] at given ⊢
    split at given
    next => cases given
    next declared same =>
      obtain rfl := Except.ok.inj given
      exact ⟨_, rfl, (alike.withFeature declared).addMergeRef _ _⟩

theorem Respells.wireMergeModules (alike : e.Respells e') (project : Project) (ledger : Ledger)
    {wired : Element} (given : project.wireMergeModules ledger e = .ok wired) :
    ∃ wired', project.wireMergeModules ledger e' = .ok wired' ∧ wired.Respells wired' := by
  rw [Project.wireMergeModules] at given ⊢
  generalize ledger.mergeModules = lines at given ⊢
  induction lines generalizing e e' with
  | nil =>
    obtain rfl := Except.ok.inj given
    exact ⟨e', rfl, alike⟩
  | cons entry rest ih =>
    rw [List.foldlM_cons] at given ⊢
    cases first : project.wireMergeModule e entry.1 entry.2 with
    | error fault =>
      rw [first] at given
      cases given
    | ok between =>
      obtain ⟨between', first', alike'⟩ := alike.wireMergeModule project entry.1 entry.2 first
      rw [first] at given
      rw [first']
      exact ih alike' given

theorem Respells.installRootId? (alike : e.Respells e') : e'.installRootId? = e.installRootId? := by
  have found := alike.inner.installRootIn?
  rw [Element.installRootId?, Element.installRootId?]
  generalize installRootIn? e.children = place at found
  generalize installRootIn? e'.children = place' at found
  cases found with
  | none => rfl
  | some place => exact place.node.id?_eq

theorem Respells.moveToEnd (alike : e.Respells e') {p : Element → Bool} (blind : Blind p) :
    (Product.moveToEnd p e).Respells (Product.moveToEnd p e') := by
  obtain ⟨taken, rest⟩ := alike.takeChildren blind
  exact rest.addNodes taken

theorem Respells.reorder (alike : e.Respells e') :
    (Product.reorder e).Respells (Product.reorder e') := by
  rw [Product.reorder, Product.reorder]
  refine Respells.moveToEnd ?_ (blind_of_name fun name => "Sequence".toList.isSuffixOf name.toList)
  induction Product.trailingNames generalizing e e' with
  | nil => exact alike
  | cons name rest ih => exact ih (alike.moveToEnd (blind_of_name (· == name)))

end Markup.Element

/-! ## The document -/

/-- Features do not depend on directories. -/
theorem Project.featureElements_withDirs (project : Project) (dirs : List Dir) (ledger : Ledger) :
    (project.withDirs dirs).featureElements ledger = project.featureElements ledger := by
  have way : ∀ names fuel visited parent,
      (project.withDirs dirs).nearestFrom names fuel visited parent =
        project.nearestFrom names fuel visited parent := by
    intro names fuel visited parent
    induction fuel generalizing visited parent with
    | zero => rfl
    | succ fuel ih =>
      cases parent with
      | none => rfl
      | some name =>
        simp only [nearestFrom, ih]
        rfl
  have nearest : (project.withDirs dirs).nearest? = project.nearest? := by
    funext names feature
    exact way names _ _ _
  rw [featureElements, featureElements, nearest]
  rfl

namespace Compilation

variable {c : Compilation} {dirs' : List Dir}

theorem emitProduct_follows (respelled : RespelledAll SameFolder c.project.dirs dirs') :
    Follows Element.Respells c.emitProduct (c.withDirs dirs').emitProduct := by
  rw [emitProduct, emitProduct, CustomAction.emitAll_respelled respelled]
  refine (emitInstalled_follows respelled).bind fun installed installed' alike => ?_
  rw [alike.installRootId?]
  refine .after fun properties => .after fun actions => .after fun binaries => .after fun ledger =>
    .after fun dialogs => .after fun environment => .after fun ledger' => ?_
  have features := c.project.featureElements_withDirs dirs' ledger
  have filled := ((alike.addAll properties).addActions actions).addAll
    (binaries ++ c.project.featureElements ledger ++ dialogs ++ environment)
  refine Follows.bind (R := Element.Respells) (.liftM fun wired given => ?_)
    fun wired wired' alike => ?_
  · show ∃ wired', (c.project.wireMergeModules ledger' (((installed'.addAll properties).addActions
      actions).addAll (binaries ++ (c.project.withDirs dirs').featureElements ledger ++ dialogs ++
        environment))) = .ok wired' ∧ wired.Respells wired'
    rw [features]
    exact filled.wireMergeModules c.project ledger' given
  · rw [show (c.withDirs dirs').project.upgradeStrategy = c.project.upgradeStrategy from rfl]
    cases c.project.upgradeStrategy with
    | none => exact .pure alike
    | some strategy => exact .pure (alike.addActions _)

theorem modulePackage_respelled {package package' : Element} (alike : package.Respells package')
    (named : package.name = "Package") :
    (c.modulePackage package).Respells ((c.withDirs dirs').modulePackage package') := by
  cases alike with
  | mk name attrs inner =>
    show (Element.attr? _ "Manufacturer" c.project.manufacturer).Respells
      (Element.attr? _ "Manufacturer" c.project.manufacturer)
    cases c.project.manufacturer with
    | none => exact .mk _ _ inner
    | some manufacturer => exact .mk _ _ inner
  | directory => simp at named

theorem module_respelled {module module' : Element} (alike : module.Respells module') :
    Element.Respells
      (match module.focusChild? fun e => e.name == "Package" with
        | some place => place.modify c.modulePackage
        | none => module)
      (match module'.focusChild? fun e => e.name == "Package" with
        | some place => place.modify (c.withDirs dirs').modulePackage
        | none => module') := by
  have found := alike.focusChild? (blind_of_name (· == "Package"))
  cases here : module.focusChild? fun e => e.name == "Package" with
  | none =>
    rw [here] at found
    generalize module'.focusChild? _ = place' at found
    cases found
    exact alike
  | some place =>
    have named := (isPlace_of_focusChild? here).2
    rw [here] at found
    generalize module'.focusChild? _ = place' at found
    cases found with
    | some same => exact same.put (modulePackage_respelled same.node (by simpa using named))

theorem moduleElement_respelled {product product' : Element} (alike : product.Respells product') :
    (c.moduleElement product).Respells ((c.withDirs dirs').moduleElement product') := by
  have blind : Blind fun e => e.name == "Feature" || e.name == "Media" :=
    blind_of_name fun name => name == "Feature" || name == "Media"
  exact module_respelled (.mk "Module" _ (alike.takeChildren blind).2.inner)

theorem emitDocument_follows (respelled : RespelledAll SameFolder c.project.dirs dirs') :
    Follows Element.Respells c.emitDocument (c.withDirs dirs').emitDocument := by
  rw [emitDocument, emitDocument]
  refine (emitProduct_follows respelled).bind fun product product' alike => .after fun ledger =>
    .pure ((Element.Respells.refl _).add ?_)
  rw [show (c.withDirs dirs').options.outputType = c.options.outputType from rfl]
  cases c.options.outputType with
  | msi => exact alike.reorder
  | msm => exact moduleElement_respelled alike.reorder

end Compilation

/-! ## Compiling a project -/

/-- Two outputs that are the same but for the spelling of the names of directories. -/
structure Output.Respells (output output' : Output) : Prop where
  document : output.document.Respells output'.document
  installDir : output.installDir.map LogicalPath.components =
    output'.installDir.map LogicalPath.components
  rest : output' =
    { output with document := output'.document, installDir := output'.installDir }

namespace Project

variable {project : Project} {options : Options} {dirs' : List Dir}

/-- A project compiles if there is a compilation whose document can be made. -/
theorem compile_eq_ok_iff {output : Output} : project.compile options = .ok output ↔
    ∃ c document ledger,
      Compilation.ofProject options (project.prepare options).project = .ok c ∧
        c.emitDocument.Gives { ids := (project.prepare options).ids } document ledger ∧
          output =
            { document
              installDir := (project.prepare options).installDir
              productGuid := c.seed
              productId := c.productId
              upgradeCode := c.upgradeCode
              extensions := Extension.ordered ledger.extensions
              packaging := ledger.packaging } := by
  simp only [compile, bind, Except.bind, pure, Except.pure]
  cases Compilation.ofProject options (project.prepare options).project with
  | error fault => simp
  | ok c =>
    simp only [Gives, Except.ok.injEq]
    cases run : c.emitDocument.run { ids := (project.prepare options).ids } with
    | error fault =>
      constructor
      · intro compiled
        cases compiled
      · rintro ⟨_, _, _, rfl, given, -⟩
        rw [run] at given
        cases given
    | ok pair =>
      constructor
      · intro compiled
        exact ⟨c, pair.1, pair.2, rfl, run, (Except.ok.inj compiled).symm⟩
      · rintro ⟨_, _, _, rfl, given, rfl⟩
        rw [run, Except.ok.injEq] at given
        rw [given]

theorem exists_compile_respelled (respelled : RespelledAll Folder.Respells project.dirs dirs')
    {output : Output} (compiled : project.compile options = .ok output) :
    ∃ output', (project.withDirs dirs').compile options = .ok output' ∧
      output.Respells output' := by
  obtain ⟨c, document, ledger, start, given, rfl⟩ := compile_eq_ok_iff.mp compiled
  have alike := isPreparedAlike respelled options
  have start' := Compilation.ofProject_withDirs options (project.prepare options).project
    ((project.withDirs dirs').prepare options).project.dirs
  rw [← alike.project, start] at start'
  have dirs := alike.dirs
  rw [← (Compilation.project_of_ofProject start).1] at dirs
  obtain ⟨document', given', same⟩ := Compilation.emitDocument_follows dirs _ _ _ given
  rw [← alike.ids] at given'
  exact ⟨_, compile_eq_ok_iff.mpr ⟨_, document', ledger, start', given', rfl⟩, same,
    alike.installDir, rfl⟩

/-- Whether the directories of a project or those of another spelling are compiled makes no
difference but for the names of some directories, and where only paths are spelled in another way it
makes none at all. -/
structure IgnoresSpelling (project : Project) (options : Options) (dirs' : List Dir) : Prop where
  isOk : ((project.withDirs dirs').compile options).isOk = (project.compile options).isOk
  outputs : ∀ output output', project.compile options = .ok output →
    (project.withDirs dirs').compile options = .ok output' → output.Respells output'
  paths : RespelledAll RespellsPath project.dirs dirs' →
    (project.withDirs dirs').compile options = project.compile options

/-- The directories of a project may be spelled in any way, as long as single names that lead to
special folders are not touched. -/
theorem ignoresSpelling (respelled : RespelledAll Folder.Respells project.dirs dirs')
    (options : Options) : project.IgnoresSpelling options dirs' where
  isOk := by
    have back : RespelledAll Folder.Respells (project.withDirs dirs').dirs project.dirs :=
      respelled.symm fun _ _ respells => respells.symm
    have same : (project.withDirs dirs').withDirs project.dirs = project := rfl
    cases result : project.compile options with
    | ok output =>
      obtain ⟨output', compiled, -⟩ := exists_compile_respelled respelled result
      rw [compiled]
      rfl
    | error fault =>
      cases result' : (project.withDirs dirs').compile options with
      | error fault' => rfl
      | ok output' =>
        obtain ⟨output, compiled, -⟩ := exists_compile_respelled back result'
        rw [same, result] at compiled
        cases compiled
  outputs output output' compiled compiled' := by
    obtain ⟨found, given, same⟩ := exists_compile_respelled respelled compiled
    rw [compiled', Except.ok.injEq] at given
    exact given ▸ same
  paths respelled := by
    rw [compile, compile, prepare_respelledPaths respelled options]

/-- A project with a file in a directory that is inside another one. -/
def encased (outer inner : String) : Project where
  name := "App"
  dirs := [⟨{ name := outer }, [⟨{ name := inner, files := [{ name := "app.exe" }] }, []⟩]⟩]

theorem respelled_encased {R : String → String → Prop} {outer outer' inner inner' : String}
    (first : R outer outer') (second : R inner inner') :
    RespelledAll R (encased outer inner).dirs (encased outer' inner').dirs :=
  .cons (.mk first (.cons (.mk second .nil) .nil)) .nil

theorem ignoresSpelling_encased :
    ∃ output output', (encased "%ProgramFiles%\\Acme" "App").compile {} = .ok output ∧
      (encased "%ProgramFiles%//Acme/" "App").compile {} = .ok output ∧
      (encased "%ProgramFiles%//Acme/" "\\App").compile {} = .ok output' ∧
        output.Respells output' := by
  obtain ⟨output, compiled⟩ := exists_output
    (by decide +kernel : ((encased "%ProgramFiles%\\Acme" "App").compile {}).isOk = true)
  have outer : RespellsPath "%ProgramFiles%\\Acme" "%ProgramFiles%//Acme/" :=
    ⟨by decide +kernel, by decide +kernel⟩
  have inner : Folder.Respells "App" "\\App" := ⟨by decide +kernel, fun first single special => by
    obtain rfl : "App" = first := List.singleton_inj.mp ((by decide +kernel :
      LogicalPath.components "App" = ["App"]).symm.trans single)
    exact absurd special (by decide +kernel)⟩
  have paths := respelled_encased outer (⟨rfl, fun _ => rfl⟩ : RespellsPath "App" "App")
  have all := respelled_encased outer.respells inner
  have spelled := ignoresSpelling all {}
  have spelledPaths := ignoresSpelling (respelled_encased outer.respells
    (⟨rfl, fun _ => rfl⟩ : RespellsPath "App" "App").respells) {}
  obtain ⟨output', compiled'⟩ := exists_output (spelled.isOk.trans (by rw [compiled]; rfl))
  exact ⟨output, output', compiled, (spelledPaths.paths paths).trans compiled, compiled',
    spelled.outputs output output' compiled compiled'⟩

/-- With a separator behind its name a special folder is not recognised any more. -/
theorem not_ignoresSpelling_encased :
    LogicalPath.components "%ProgramFiles%\\" = LogicalPath.components "%ProgramFiles%" ∧
      LogicalPath.components "%ProgramFiles%" ≠ [] ∧
        ∃ output output', (encased "%ProgramFiles%" "App").compile {} = .ok output ∧
          (encased "%ProgramFiles%\\" "App").compile {} = .ok output' ∧
            output'.document ≠ output.document := by
  obtain ⟨output, compiled, ids⟩ := exists_output_of_any
    (by decide +kernel : ((encased "%ProgramFiles%" "App").compile {}).toOption.any (fun output =>
      output.document.idsNamed "Directory" ==
        [some "TARGETDIR", some "ProgramFilesFolder", some "INSTALLDIR"]) = true)
  obtain ⟨output', compiled', ids'⟩ := exists_output_of_any
    (by decide +kernel : ((encased "%ProgramFiles%\\" "App").compile {}).toOption.any (fun output =>
      output.document.idsNamed "Directory" ==
        [some "TARGETDIR", some "TARGETDIR.ProgramFilesFolder", some "INSTALLDIR"]) = true)
  refine ⟨by decide +kernel, by decide +kernel, output, output', compiled, compiled',
    fun same => ?_⟩
  rw [beq_iff_eq, same, beq_iff_eq.mp ids] at ids'
  exact absurd ids' (by decide)

end Project

end Installer
