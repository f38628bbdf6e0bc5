import Installer.Proofs.Component.Identity
import Mathlib.Data.List.Flatten

/-! # Projects without ids

When a project declares no ids at all, the pool hands out those of files, shortcuts and permissions,
each but once.  This is not enough to keep the ids of all components apart, since directories that
name the same special folder are one directory with several components, and since the names of
entities may spell the ids that are made for others.
-/

namespace Installer

open Markup (Element)
open Markup.Element
open IdPool

/-! ## Declared ids -/

/-- The ids that are declared for a directory and for what it holds, or not. -/
def DirBody.givenIds (body : DirBody) : List (Option String) :=
  body.id :: (body.files.map File.id ++ body.allShortcuts.map Shortcut.id ++
    body.allPermissions.map Permission.id ++ body.mergeModules.map MergeModule.id)

namespace Project

def givenIds (project : Project) : List (Option String) :=
  Dir.readAll DirBody.givenIds project.dirs ++
    (project.defaultFeature :: project.features).map Feature.id ++
      project.actions.map CustomAction.id ++
        (project.binaries ++ project.embeddedUi.toList).map Binary.id ++
          project.envVars.map EnvVar.id ++ project.users.map User.id ++
            (project.sqlDatabases.flatMap fun db =>
              db.id :: (db.strings.map SqlString.id ++ db.scripts.map SqlScript.id)) ++
              project.certificates.map Certificate.id

def WithoutIds (project : Project) : Prop :=
  ∀ id ∈ project.givenIds, id = none

instance (project : Project) : Decidable project.WithoutIds :=
  inferInstanceAs (Decidable (∀ id ∈ project.givenIds, id = none))

variable {project : Project}

/-- What the directories hold has no ids either when the directories have their final shape. -/
theorem WithoutIds.shaped {α : Type} {read : DirBody → List α} {idOf : α → Option String}
    (without : project.WithoutIds) (options : Options)
    (content : DirBody.IsContent fun body => (read body).map idOf)
    (part : ∀ body : DirBody, (read body).map idOf ⊆ body.givenIds) :
    ∀ x ∈ Dir.readAll read
      (Dir.shape options.installDirDefaultId (project.withSomeDir.widened options).dirs).1,
        idOf x = none := by
  intro x mem
  refine without _ ?_
  have ids : ∀ dirs, (Dir.readAll read dirs).map idOf =
      Dir.readAll (fun body => (read body).map idOf) dirs := fun dirs => List.map_flatMap
  -- to bring directories into shape changes none of the ids of what they hold
  have among : idOf x ∈ Dir.readAll (fun body => (read body).map idOf) project.dirs := by
    rw [← project.readAll_shaped options content, ← ids]
    exact List.mem_map_of_mem mem
  obtain ⟨dir, isDir, inside⟩ := List.mem_flatMap.mp among
  have given : idOf x ∈ Dir.readAll DirBody.givenIds project.dirs :=
    List.mem_flatMap.mpr ⟨dir, isDir, part dir.toDirBody inside⟩
  simp only [givenIds, List.append_assoc]
  exact List.mem_append_left _ given

theorem isContent_fileIds : DirBody.IsContent fun body => body.files.map File.id :=
  ⟨fun _ _ => rfl, fun _ _ => rfl, fun body => by simp [DirBody.widen], fun _ => rfl⟩

theorem isContent_shortcutIds :
    DirBody.IsContent fun body => body.allShortcuts.map Shortcut.id where
  name _ _ := rfl
  id _ _ := rfl
  widen body := by
    simp [DirBody.widen, DirBody.allShortcuts, Shortcut.widen, List.map_flatMap,
      List.flatMap_map, Function.comp_def]
  nothing _ := rfl

theorem isContent_permissionIds :
    DirBody.IsContent fun body => body.allPermissions.map Permission.id where
  name _ _ := rfl
  id _ _ := rfl
  widen body := by
    simp [DirBody.widen, DirBody.allPermissions, List.flatMap_map]
  nothing _ := rfl

/-- The ids of files, permissions and shortcuts are different when none is declared. -/
theorem nodup_finalIds {options : Options} {c : Compilation} (without : project.WithoutIds)
    (prepared : c.project = (project.prepare options).project) :
    c.fileIds.Nodup ∧ c.permissionIds.Nodup ∧ c.shortcutIds.Nodup := by
  obtain ⟨before, after, resolved⟩ := project.allResolved_prepare options
  rw [← prepared] at resolved
  have files := resolved.fileIds (without.shaped options isContent_fileIds fun body id mem => by
    simp only [DirBody.givenIds, List.mem_cons, List.mem_append]
    exact .inr (.inl (.inl (.inl mem))))
  have shortcuts := resolved.shortcutIds
    (without.shaped options isContent_shortcutIds fun body id mem => by
      simp only [DirBody.givenIds, List.mem_cons, List.mem_append]
      exact .inr (.inl (.inl (.inr mem))))
  have permissions := resolved.permissionIds
    (without.shaped options isContent_permissionIds fun body id mem => by
      simp only [DirBody.givenIds, List.mem_cons, List.mem_append]
      exact .inr (.inl (.inr mem)))
  refine ⟨files.nodup, ?_, ?_⟩
  · refine List.Nodup.sublist ?_ permissions.nodup
    rw [Compilation.permissionIds, Dir.readAll, List.map_flatMap]
    refine List.Sublist.flatMap_right _ fun dir _ => List.Sublist.map _ ?_
    exact List.sublist_append_right ..
  · refine List.Nodup.sublist ?_ shortcuts.nodup
    rw [Compilation.shortcutIds, Dir.readAll, List.map_flatMap]
    refine List.Sublist.flatMap_right _ fun dir _ => List.Sublist.map _ ?_
    exact List.sublist_append_right ..

/-! ## The components of documents -/

/-- In the document of a project without declared ids the components have different ids just if the
ids that are made for directories, and those made in different ways, keep apart. -/
theorem nodup_componentIds_iff {options : Options} {output : Output}
    (compiled : project.compile options = .ok output) (without : project.WithoutIds) :
    ∃ c, Compilation.ofProject options (project.prepare options).project = .ok c ∧
      (((output.document.descendantsNamed "Component").map id?).Nodup ↔ c.KeepsIdsApart) := by
  obtain ⟨c, ledger, start, -, made⟩ := made_of_compile compiled
  obtain ⟨files, permissions, shortcuts⟩ :=
    nodup_finalIds without (Compilation.project_of_ofProject start).1
  refine ⟨c, start, ?_⟩
  have ids : c.bookings.map (fun booking => some booking.componentId) =
      (c.bookings.map Booking.componentId).map some := by
    rw [List.map_map]
    rfl
  rw [made.componentIds.nodup_iff, ids, List.nodup_map_iff (Option.some_injective _)]
  exact Compilation.nodup_bookedIds_iff files permissions shortcuts

/-- A project that declares a special folder twice, each time with a feature. -/
def overlapping : Project where
  name := "App"
  features := [{ name := "Core" }]
  dirs := [
    ⟨{ name := "%ProgramFiles%", feature := some "Core", files := [{ name := "a.txt" }] }, []⟩,
    ⟨{ name := "%ProgramFiles%", feature := some "Core", files := [{ name := "b.txt" }] }, []⟩]

theorem nodup_componentIds_overlapping :
    ∃ (output : Output) (c : Compilation), overlapping.compile {} = .ok output ∧
      (((output.document.descendantsNamed "Component").map id?).Nodup ↔ c.KeepsIdsApart) := by
  obtain ⟨output, compiled⟩ := exists_output
    (by decide +kernel : (overlapping.compile {}).isOk = true)
  obtain ⟨c, -, iff⟩ := nodup_componentIds_iff compiled (by decide +kernel)
  exact ⟨output, c, compiled, iff⟩

/-- The special folder gets the same component twice. -/
theorem not_nodup_overlapping :
    overlapping.WithoutIds ∧ ∃ output, overlapping.compile {} = .ok output ∧
      ¬ ((output.document.descendantsNamed "Component").map id?).Nodup := by
  refine ⟨by decide +kernel, ?_⟩
  have repeated : ((overlapping.compile {}).toOption.any fun output =>
      !decide ((output.document.descendantsNamed "Component").map id?).Nodup) = true := by
    decide +kernel
  cases result : overlapping.compile {} with
  | error fault =>
    rw [result] at repeated
    cases repeated
  | ok output =>
    rw [result] at repeated
    exact ⟨output, rfl, by simpa [Except.toOption] using repeated⟩

end Project

end Installer
