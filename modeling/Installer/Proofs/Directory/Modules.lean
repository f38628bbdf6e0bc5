import Installer.Proofs.Directory.Shape
import Installer.Proofs.Directory.Words
import Installer.Proofs.Emit.Contract

/-! # Merge modules of directories

The emission of directories succeeds exactly if every feature is declared that is named by a booking
or by a merge module.  It notes each merge module once, in the order of declaration, and puts the
element of each into the tree.
-/

namespace Installer

open Markup (Element)
open Markup.Element
open Emit (Contract)

variable {c : Compilation}

def MergeModule.line (module : MergeModule) : String × Option String :=
  (module.finalId, module.feature)

/-- The merge modules in the directories and below, in the order of declaration. -/
def Dir.modulesIn (dirs : List Dir) : List MergeModule :=
  readAll DirBody.mergeModules dirs

/-- The features that merge modules name are declared. -/
def Project.DeclaresModules (project : Project) (modules : List MergeModule) : Prop :=
  ∀ module ∈ modules, project.Declares module.feature

@[simp] theorem Project.declaresModules_nil {project : Project} : project.DeclaresModules [] := by
  simp [DeclaresModules]

@[simp] theorem Project.declaresModules_append {project : Project} {front back : List MergeModule} :
    project.DeclaresModules (front ++ back) ↔
      project.DeclaresModules front ∧ project.DeclaresModules back :=
  List.forall_mem_append

/-! ## What a directory holds -/

theorem MergeModule.contract_emit (module : MergeModule) :
    Contract (module.emit c) (c.project.Declares module.feature) [module.line]
      (· = module.element c) := by
  have noted : Contract (Emit.note (·.addMergeModule module.finalId module.feature)) True
      [module.line] fun _ => True := .note fun _ => rfl
  exact ((Contract.checkFeature _ _).andThen fun _ => noted.andThen fun _ => .pure _).congr
    (by simp) rfl fun _ same => same

theorem MergeModule.contract_emitAll (modules : List MergeModule) :
    Contract (modules.mapM (MergeModule.emit c)) (c.project.DeclaresModules modules)
      (modules.map MergeModule.line) (· = modules.map (MergeModule.element c)) :=
  (Contract.mapM_eq (fun module => module.contract_emit) modules).congr .rfl
    (List.map_eq_flatMap ..).symm fun _ same => same

theorem Permission.contract_emit (permission : Permission) :
    Contract (permission.emit c) (c.project.Declares permission.feature) []
      (· = permission.component c) :=
  (Contract.assign _ _ _).yields fun _ _ => rfl

theorem Shortcut.contract_emit (dirId : String) (shortcut : Shortcut) :
    Contract (shortcut.emit c dirId) (c.project.Declares shortcut.feature) []
      (· = shortcut.component c dirId) :=
  (Contract.assign _ _ _).yields fun _ _ => rfl

theorem Shortcut.contract_noteLocation (dirs : List Dir) (shortcut : Shortcut) :
    Contract (shortcut.noteLocation dirs) True [] fun _ => True := by
  rw [noteLocation]
  split
  next =>
    refine .note fun ledger => ?_
    rw [List.append_nil, Ledger.addLocation]
    split <;> rfl
  next => exact .returns trivial

theorem File.contract_emit (dirId : String) (file : File) :
    Contract (file.emit c dirId) (c.project.Declares file.feature) []
      (· = file.component c dirId) := by
  have made : Contract (Pure.pure (file.component c dirId)) True []
      (· = file.component c dirId) := .pure _
  exact ((Contract.assign _ _ _).andThen fun _ =>
    (Contract.forIn (Shortcut.contract_noteLocation c.project.dirs) file.shortcuts).after
      fun _ => made.noteUnless).congr (by simp) rfl fun _ same => same

namespace DirBody

theorem contract_emitFolder (body : DirBody) (id : String) :
    Contract (body.emitFolder c id) (c.project.Declares body.feature) []
      (· = folderComponent c id) :=
  (Contract.assign _ _ _).yields fun _ _ => rfl

theorem contract_emitPermissions (body : DirBody) :
    Contract (body.emitPermissions c) (∀ permission ∈ body.permissions,
      c.project.Declares permission.feature) []
      (· = body.permissions.map (Permission.component c)) := by
  have each := (Contract.mapM_eq (Permission.contract_emit (c := c)) body.permissions).congr .rfl
    (Emit.flatMap_nothing _) fun _ same => same
  exact each.noteUnless

theorem contract_emitContents (id : String) (body : DirBody) :
    Contract (body.emitContents c id)
      (c.project.DeclaresAll (body.bookings id) ∧ c.project.DeclaresModules body.mergeModules)
      (body.mergeModules.map MergeModule.line) (· = body.contents c id) := by
  have files := (Contract.mapM_eq (File.contract_emit (c := c) id) body.files).congr .rfl
    (Emit.flatMap_nothing _) fun _ same => same
  have shortcuts :=
    (Contract.mapM_eq (Shortcut.contract_emit (c := c) id) body.shortcuts).congr .rfl
    (Emit.flatMap_nothing _) fun _ same => same
  have modules := MergeModule.contract_emitAll (c := c) body.mergeModules
  have permissions := body.contract_emitPermissions (c := c)
  -- the steps after the directory's own component are the same with it and without it
  have rest : ∀ folder : List Element, Contract (do
      let files ← body.files.mapM (File.emit c id)
      let shortcuts ← body.shortcuts.mapM (Shortcut.emit c id)
      let modules ← body.mergeModules.mapM (MergeModule.emit c)
      let permissions ← body.emitPermissions c
      return folder ++ files ++ shortcuts ++ modules ++ permissions)
      ((∀ file ∈ body.files, c.project.Declares file.feature) ∧
        (∀ shortcut ∈ body.shortcuts, c.project.Declares shortcut.feature) ∧
          c.project.DeclaresModules body.mergeModules ∧
            ∀ permission ∈ body.permissions, c.project.Declares permission.feature)
      (body.mergeModules.map MergeModule.line)
      (· = folder ++ body.files.map (File.component c id) ++
        body.shortcuts.map (Shortcut.component c id) ++
          body.mergeModules.map (MergeModule.element c) ++
            body.permissions.map (Permission.component c)) := fun folder =>
    (files.bindEq <| shortcuts.bindEq <| modules.bindEq <|
      permissions.yields fun _ same => by rw [same]).congr (by simp) (by simp) fun _ same => same
  rw [emitContents, contents, bookings]
  split
  next =>
    refine (((body.contract_emitFolder _).map (f := fun e => [e]) fun _ same => ?_).bindEq
      (rest [folderComponent c ("Component." ++ id)])).congr ?_ (by simp) fun _ same => ?_
    · rw [same]
    · simp
      tauto
    · simp [same]
  next =>
    refine ((Contract.pure []).bindEq (rest [])).congr ?_ (by simp) fun _ same => ?_
    · simp
      tauto
    · simp [same]

/-- The same for an empty directory, which gets a component unless it has one. -/
theorem contract_emitEmpty (id : String) (hasComponent : Bool) (body : DirBody) :
    Contract (body.emitEmpty c id hasComponent)
      (c.project.DeclaresAll (body.emptyBookings id hasComponent) ∧
        c.project.DeclaresModules body.mergeModules)
      (body.mergeModules.map MergeModule.line) (· = body.emptyContents c id hasComponent) := by
  have modules := MergeModule.contract_emitAll (c := c) body.mergeModules
  rw [emitEmpty, emptyContents, emptyBookings]
  cases hasComponent with
  | true =>
    exact ((Contract.pure []).bindEq (modules.yields fun _ same => by rw [same]; rfl)).congr
      (by simp)
      (by simp) fun _ same => same
  | false =>
    have folder : Contract ((fun e => [e]) <$> body.emitFolder c (id ++ ".EmptyDirectory"))
        (c.project.Declares body.feature) [] (· = [folderComponent c (id ++ ".EmptyDirectory")]) :=
      (body.contract_emitFolder _).map fun _ same => by rw [same]
    exact (folder.bindEq (modules.yields fun _ same => by rw [same]; rfl)).congr (by simp)
      (by simp) fun _ same => same

end DirBody

/-! ## The tree -/

namespace Dir

variable {body : DirBody} {dirs : List Dir}

theorem modulesIn_singleton (body : DirBody) (dirs : List Dir) :
    modulesIn [⟨body, dirs⟩] = body.mergeModules ++ modulesIn dirs :=
  readAll_singleton ..

theorem modulesIn_cons (dir : Dir) (rest : List Dir) :
    modulesIn (dir :: rest) = modulesIn [dir] ++ modulesIn rest := by
  rw [← List.singleton_append, modulesIn, readAll_append]
  rfl

theorem contract_emitBody (dir : Dir) (e : Element) :
    Contract (dir.emitBody c e)
      (c.project.DeclaresAll (dir.ownBookings e) ∧ c.project.DeclaresModules dir.mergeModules)
      (dir.mergeModules.map MergeModule.line) (· = e.addAll (dir.contents c e)) := by
  rw [emitBody, contents, ownBookings]
  split
  next => exact (dir.contract_emitEmpty _ _).yields fun _ same => by rw [same]
  next => exact (dir.contract_emitContents _).yields fun _ same => by rw [same]

mutual

theorem contract_emit : ∀ (dir : Dir) (parent : Element),
    Contract (dir.emit c parent)
      (c.project.DeclaresAll (dir.bookings c parent) ∧ c.project.DeclaresModules (modulesIn [dir]))
      ((modulesIn [dir]).map MergeModule.line) (· = dir.place c parent)
  | ⟨body, dirs⟩, parent => by
    have own := contract_emitBody (c := c) ⟨body, dirs⟩ (placeIn ⟨body, dirs⟩ parent).node
    have below := contract_emitAll dirs (filled c ⟨body, dirs⟩ parent)
    rw [emit, bookings, place, modulesIn_singleton]
    refine (own.bindEq (below.yields fun _ same => by rw [same]; rfl)).congr ?_ (by simp)
      fun _ same => same
    simp
    tauto

theorem contract_emitAll : ∀ (dirs : List Dir) (parent : Element),
    Contract (emitAll c dirs parent)
      (c.project.DeclaresAll (bookingsAll c dirs parent) ∧
        c.project.DeclaresModules (modulesIn dirs))
      ((modulesIn dirs).map MergeModule.line) (· = placeAll c dirs parent)
  | [], parent => by
    rw [emitAll, bookingsAll, placeAll]
    exact (Contract.pure parent).congr (by simp [modulesIn, readAll]) rfl fun _ same => same
  | dir :: rest, parent => by
    have first := contract_emit dir parent
    have others := contract_emitAll rest (dir.place c parent)
    rw [emitAll, bookingsAll, placeAll, modulesIn_cons]
    refine (first.bindEq others).congr ?_ (by simp) fun _ same => same
    simp
    tauto

end

/-! ### Shortcut locations -/

theorem modulesIn_chain (names : List String) (start : Nat) (feature : Option String) :
    modulesIn [chain names start feature] = [] := by
  rw [chain]
  induction List.range' (start + 1) (names.length - 1 - start) with
  | nil => rfl
  | cons n rest ih =>
    rw [List.foldr_cons, ofNames, modulesIn_singleton, ih]
    rfl

theorem contract_emit_chain (names : List String) (start : Nat) (feature : Option String)
    (parent : Element) :
    Contract ((chain names start feature).emit c parent)
      (c.project.DeclaresAll ((chain names start feature).bookings c parent)) []
      (· = (chain names start feature).place c parent) :=
  (contract_emit (chain names start feature) parent).congr (by simp [modulesIn_chain])
    (by simp [modulesIn_chain]) fun _ same => same

theorem contract_emitLocation (root : Element) (location : String) (feature : Option String) :
    Contract (emitLocation c root location feature)
      (c.project.DeclaresAll (locationBookings c root location feature)) []
      (· = placeLocation c root location feature) := by
  simp only [emitLocation, placeLocation, locationBookings]
  split
  next => exact (Contract.pure root).congr (by simp) rfl fun _ same => same
  next =>
    cases anchor? c.project.dirs location with
    | none => exact contract_emit_chain ..
    | some found =>
      obtain ⟨dir, n⟩ := found
      dsimp only
      cases root.focusById? "Directory" dir.finalId with
      | none => exact contract_emit_chain ..
      | some focus =>
        exact (contract_emit_chain _ n feature focus.node).yields fun _ same => by rw [same]

theorem contract_emitLocations (locations : List (String × Option String)) (root : Element) :
    Contract (locations.foldlM (fun root entry => emitLocation c root entry.1 entry.2) root)
      (c.project.DeclaresAll (locationsBookings c root locations)) []
      (· = placeLocations c root locations) := by
  induction locations generalizing root with
  | nil => exact (Contract.pure root).congr (by simp [locationsBookings]) rfl fun _ same => same
  | cons entry rest ih =>
    rw [List.foldlM_cons, locationsBookings, placeLocations]
    exact ((contract_emitLocation root entry.1 entry.2).bindEq (ih _)).congr (by simp) rfl
      fun _ same => same

/-! ### The whole tree -/

open Emit

variable {before after : Ledger}

/-- From a ledger without locations the whole tree can be made if every feature is declared that is
named in it. -/
theorem exists_emitTree (fresh : before.locations = [])
    (booked : c.project.DeclaresAll c.treeBookings)
    (modules : c.project.DeclaresModules (modulesIn c.project.dirs)) :
    ∃ after, (emitTree c).Gives before c.tree after := by
  rw [Compilation.treeBookings, Project.declaresAll_append] at booked
  obtain ⟨_, between, declaredSteps⟩ :=
    (contract_emitAll c.project.dirs Compilation.emptyRoot).succeeds ⟨booked.1, modules⟩ before
  obtain ⟨rfl, books⟩ := gives_emitAll declaredSteps
  have locations : between.locations = c.undeclaredLocations := by
    rw [books.locations, fresh]
    rfl
  have located := contract_emitLocations (c := c) c.undeclaredLocations c.declaredTree
  obtain ⟨_, after, steps⟩ := located.succeeds booked.2 between
  obtain ⟨-, -, rfl⟩ := located.gives steps
  refine ⟨after, ?_⟩
  simp only [emitTree, emitLocations, gives_bind, gives_get]
  exact ⟨_, _, declaredSteps, _, _, ⟨rfl, rfl⟩, locations ▸ steps⟩

theorem mergeModules_of_emitTree {result : Element}
    (given : (emitTree c).Gives before result after) :
    c.project.DeclaresModules (modulesIn c.project.dirs) ∧
      after.mergeModules =
        before.mergeModules ++ (modulesIn c.project.dirs).map MergeModule.line := by
  simp only [emitTree, emitLocations, gives_bind, gives_get] at given
  obtain ⟨_, between, declaredSteps, _, _, ⟨rfl, rfl⟩, locationSteps⟩ := given
  obtain ⟨⟨-, modules⟩, written, -⟩ := (contract_emitAll _ _).gives declaredSteps
  obtain ⟨-, kept, -⟩ := (contract_emitLocations _ _).gives locationSteps
  exact ⟨modules, by rw [kept, written, List.append_nil]⟩

end Dir

end Installer
