import Installer.Proofs.Directory.Appended
import Installer.Proofs.Directory.Distinct
import Installer.Proofs.Folder.Widening

/-! # Directories of narrow folders

When a project is made wider, the names of directories and the locations of shortcuts are changed as
whole texts.  `DirBody.StaysNarrow` and `Dir.LocatesNarrow` describe the names and locations that
still make a directory with the id of a 32-bit folder: those in which the bare id is one of several
names, or has brackets on one side only.
-/

namespace Installer

open Markup (Element)
open Markup.Element
open LogicalPath
open Folder (IsNarrow IsUnpaired)

/-! ## Names in a chain -/

namespace LogicalPath

theorem links_of_isFolderId {id : String} (isId : Folder.IsFolderId id) : links id = [id] := by
  rw [links, Folder.components_of_isFolderId isId]
  rfl

theorem links_widen {name : String} (other : ¬ IsNarrow name) :
    links (Folder.widen name) = (links name).map (Folder.replaceEach Folder.wideSpellings) := by
  rw [links, links, Folder.components_widen other, List.length_map]
  split
  next => rfl
  next => rw [Folder.widen_of_not_isNarrow other, List.map_singleton]

end LogicalPath

/-! ## Names of directories -/

namespace DirBody

variable {id : String} {body : DirBody}

/-- The id of a special folder that a directory takes when none is declared for it. -/
def folderId? (body : DirBody) : Option String :=
  if body.id.isSome then none else Folder.specialId? body.name

/-- Though its name is made wider, the directory or one that is put around it takes the id. -/
inductive StaysNarrow (id : String) (body : DirBody) : Prop where
  | outer {name : String} (mem : name ∈ (links body.name).dropLast)
      (unpaired : IsUnpaired id name) : StaysNarrow id body
  | last {name : String} (undeclared : body.id = none) (different : body.name ≠ id)
      (mem : (links body.name).getLast? = some name) (unpaired : IsUnpaired id name) :
      StaysNarrow id body

theorem folderId?_eq_some : body.folderId? = some id ↔
    body.id = none ∧ Folder.specialId? body.name = some id := by
  rw [folderId?]
  cases body.id <;> simp

/-- An id is declared, that of a special folder, or generated. -/
theorem Takes.origin {parentId : String} (takes : body.Takes parentId id) :
    body.id = some id ∨ body.folderId? = some id ∨ body.IsGenerated := by
  cases takes with
  | declared given => exact .inl given
  | special none folder => exact .inr (.inl (folderId?_eq_some.mpr ⟨none, folder⟩))
  | plain generated => exact .inr (.inr generated)
  | numbered generated _ => exact .inr (.inr generated)

theorem Takes.eq_of_folderId? {parentId id' : String} (takes : body.Takes parentId id')
    (folder : body.folderId? = some id) : id' = id := by
  obtain ⟨none, special⟩ := folderId?_eq_some.mp folder
  cases takes with
  | declared given => simp [none] at given
  | special _ folder => exact Option.some.inj (folder.symm.trans special)
  | plain generated => simp [generated.2] at special
  | numbered generated _ => simp [generated.2] at special

theorem mem_linked_iff : id ∈ body.linked.flatMap (fun body => body.folderId?.toList) ↔
    (∃ name ∈ (links body.name).dropLast, Folder.specialId? name = some id) ∨
      body.id = none ∧ ∃ name, (links body.name).getLast? = some name ∧
        Folder.specialId? name = some id := by
  obtain ⟨name, last⟩ := Option.isSome_iff_exists.mp
    (List.getLast?_isSome.mpr (links_ne_nil body.name))
  have last' : (links body.name).getLastD body.name = name := by
    rw [List.getLastD_eq_getLast?, last, Option.getD_some]
  rw [linked, List.flatMap_append, List.mem_append, List.flatMap_map, List.flatMap_singleton, last',
    last]
  simp [folderId?_eq_some]

/-- The directories of a wider name that take a narrow id. -/
theorem mem_linked_widen_iff (narrow : IsNarrow id) :
    id ∈ body.widen.linked.flatMap (fun body => body.folderId?.toList) ↔ body.StaysNarrow id := by
  have name_eq : body.widen.name = Folder.widen body.name := rfl
  have id_eq : body.widen.id = body.id := rfl
  rw [mem_linked_iff, name_eq, id_eq]
  -- a bare id is made wider as a whole text, any other name link by link
  by_cases bare : IsNarrow body.name
  · have isId := (Folder.forall_narrow body.name bare).1
    rw [links_of_isFolderId (Folder.widen_of_isNarrow bare).1]
    constructor
    · rintro (⟨name, outer, -⟩ | ⟨undeclared, name, last, special⟩)
      · simp at outer
      · cases last
        obtain ⟨different, unpaired⟩ := (Folder.specialId?_widen_iff narrow).mp special
        refine .last undeclared different ?_ unpaired
        rw [links_of_isFolderId isId]
        rfl
    · intro stays
      cases stays with
      | outer mem unpaired =>
        rw [links_of_isFolderId isId] at mem
        cases mem
      | last undeclared different mem unpaired =>
        rw [links_of_isFolderId isId] at mem
        cases mem
        exact absurd (unpaired.eq_of_isNarrow narrow bare) different
  · have different : body.name ≠ id := fun same => bare (same ▸ narrow)
    rw [links_widen bare, ← List.map_dropLast, List.getLast?_map]
    constructor
    · rintro (⟨_, outer, special⟩ | ⟨undeclared, _, last, special⟩)
      · obtain ⟨name, mem, rfl⟩ := List.mem_map.mp outer
        exact .outer mem ((Folder.specialId?_replaceEach_iff narrow).mp special)
      · obtain ⟨name, mem, rfl⟩ := Option.map_eq_some_iff.mp last
        exact .last undeclared different mem ((Folder.specialId?_replaceEach_iff narrow).mp special)
    · intro stays
      cases stays with
      | outer mem unpaired =>
        exact .inl ⟨_, List.mem_map_of_mem mem,
          (Folder.specialId?_replaceEach_iff narrow).mpr unpaired⟩
      | last undeclared _ mem unpaired =>
        exact .inr ⟨undeclared, _, Option.map_eq_some_iff.mpr ⟨_, mem, rfl⟩,
          (Folder.specialId?_replaceEach_iff narrow).mpr unpaired⟩

end DirBody

namespace Project

variable (project : Project) (options : Options) {id : String}

/-- No directory that is made for want of any takes a narrow id. -/
theorem not_staysNarrow_placeholder (narrow : IsNarrow id) :
    ¬ Dir.placeholder.StaysNarrow id := by
  rw [← DirBody.mem_linked_widen_iff narrow]
  have checked : ∀ id ∈ Folder.wideIds.map Prod.fst, id ∉
      Dir.placeholder.widen.linked.flatMap fun body => body.folderId?.toList := by
    decide +kernel
  exact checked id narrow

/-- The directories that take a narrow id as special folders. -/
theorem mem_folderIds_shapedDirs_iff (wide : project.platform = .x64)
    (mapped : options.map64InstallDirs = true) (narrow : IsNarrow id) :
    id ∈ Dir.readAll (fun body => body.folderId?.toList) (project.shapedDirs options) ↔
      ∃ dir ∈ Dir.all project.dirs, dir.StaysNarrow id := by
  have wide' : project.withSomeDir.platform = .x64 := by
    rw [withSomeDir]
    split <;> exact wide
  have blind : ∀ (body : DirBody) (id : String), body.id = none →
      Folder.specialId? body.name = none →
        ({ body with id := some id } : DirBody).folderId?.toList = body.folderId?.toList := by
    intro body id undeclared plain
    simp [DirBody.folderId?, undeclared, plain]
  rw [shapedDirs, Dir.readAll_shape_eq blind, widened, if_pos ⟨wide', mapped⟩,
    Dir.widenAll_eq_mapBodies, Dir.readAll_mapBodies_eq, Dir.readAll, List.mem_flatMap]
  simp only [DirBody.mem_linked_widen_iff narrow]
  rw [withSomeDir]
  split
  next empty =>
    have placed : Dir.all [Dir.placeholder] = [Dir.placeholder] := rfl
    simp [List.isEmpty_iff.mp empty, placed, not_staysNarrow_placeholder narrow]
  next => rfl

/-- A prepared directory takes a narrow id as the installation directory or as a special folder. -/
theorem exists_located_narrow_iff (wide : project.platform = .x64)
    (mapped : options.map64InstallDirs = true) (narrow : IsNarrow id)
    (undeclared : id ∉ Dir.explicitIds project.dirs) :
    (∃ entry ∈ Dir.located (project.prepare options).project.dirs, entry.2.finalId = id) ↔
      (project.prepare options).installDir.isSome = true ∧ options.installDirDefaultId = id ∨
        ∃ dir ∈ Dir.all project.dirs, dir.StaysNarrow id := by
  have given : id ∈ Dir.explicitIds (project.shapedDirs options) ↔
      (project.prepare options).installDir.isSome = true ∧ options.installDirDefaultId = id := by
    rw [(project.perm_explicitIds options).mem_iff, List.mem_append, or_iff_left undeclared]
    split
    next assigned => simp [assigned, eq_comm]
    next missing => simp [missing]
  rw [← given, ← project.mem_folderIds_shapedDirs_iff options wide mapped narrow]
  constructor
  · rintro ⟨entry, mem, rfl⟩
    obtain ⟨dir, among⟩ := project.exists_shaped options mem
    have isDir := (List.of_mem_zip among).1
    have takes := project.takes_finalId options among
    -- a generated id has a full stop, and no id of a folder has one
    rcases takes.origin with given | folder | generated
    · exact .inl (Dir.mem_explicitIds.mpr ⟨dir, isDir, given⟩)
    · exact .inr (List.mem_flatMap.mpr ⟨dir, isDir, Option.mem_toList.mpr folder⟩)
    · exact absurd (takes.dot_mem generated) (Folder.forall_narrow _ narrow).1.dot_notMem
  · rintro (explicit | folder)
    · exact project.exists_finalId options explicit
    · obtain ⟨dir, isDir, folder⟩ := List.mem_flatMap.mp folder
      have length := (project.forall₂_takes options).length_eq
      rw [← List.map_fst_zip length.le] at isDir
      obtain ⟨⟨_, entry⟩, among, rfl⟩ := List.mem_map.mp isDir
      exact ⟨entry, (List.of_mem_zip among).2,
        (project.takes_finalId options among).eq_of_folderId? (Option.mem_toList.mp folder)⟩

end Project

/-! ## Locations of shortcuts -/

namespace Dir

variable {dirs : List Dir} {id location : String}

/-- Though the location is made wider, a directory with the id is made for its first name: neither
the location nor an initial part of it is declared. -/
structure LocatesNarrow (dirs : List Dir) (id location : String) : Prop where
  different : location ≠ id
  first : ∃ name, (components location).head? = some name ∧ IsUnpaired id name
  undeclared : ∀ path ∈ initials (Folder.widen location), find? dirs path = none

theorem mem_initials {path : String} : path ∈ initials location ↔
    ∃ n < (components location).length,
      path = ofComponents ((components location).take (n + 1)) := by
  simp [initials, eq_comm]

/-- Nothing of a location is declared if a part with a single name is new. -/
theorem declaredLength_eq_zero_iff (named : components location ≠ [])
    (missing : find? dirs location = none) :
    declaredLength dirs location = 0 ↔ ∀ path ∈ initials location, find? dirs path = none := by
  have positive : 0 < (components location).length := List.length_pos_iff.mpr named
  constructor
  · intro zero path mem
    obtain ⟨n, bound, rfl⟩ := mem_initials.mp mem
    by_cases last : n + 1 = (components location).length
    · rw [last, List.take_length, find?_congr (components_ofComponents_components location)]
      exact missing
    · exact find?_eq_none_of_declaredLength_lt (by omega) (by omega)
  · intro undeclared
    by_contra some_
    cases anchor : anchor? dirs location with
    | none => simp [declaredLength, anchor] at some_
    | some found =>
      obtain ⟨dir, n⟩ := found
      obtain ⟨above, below, declared, -⟩ := anchor?_eq_some anchor
      have none := undeclared _ (mem_initials.mpr ⟨n - 1, by omega, rfl⟩)
      rw [Nat.sub_add_cancel above, declared] at none
      cases none

theorem mem_elsewhere_iff : location ∈ elsewhere dirs ↔
    location ∈ locationsIn dirs ∧ find? dirs location = none := by
  rw [mem_elsewhere, locationsIn_eq, List.mem_filter]
  simp only [Shortcut.isElsewhere, Bool.and_eq_true, Option.isNone_iff_eq_none, List.mem_map,
    List.mem_flatMap]
  constructor
  · rintro ⟨file, isFile, shortcut, isShortcut, ⟨nonempty, missing⟩, rfl⟩
    exact ⟨⟨⟨shortcut, ⟨file, isFile, isShortcut⟩, rfl⟩, nonempty⟩, missing⟩
  · rintro ⟨⟨⟨shortcut, ⟨file, isFile, isShortcut⟩, rfl⟩, nonempty⟩, missing⟩
    exact ⟨file, isFile, shortcut, isShortcut, ⟨nonempty, missing⟩, rfl⟩

/-- A location is elsewhere if nothing of it is declared, itself among it. -/
theorem mem_elsewhere_of_undeclared (listed : location ∈ locationsIn dirs)
    (named : components location ≠ [])
    (undeclared : ∀ path ∈ initials location, find? dirs path = none) :
    location ∈ elsewhere dirs := by
  obtain ⟨n, length⟩ := Nat.exists_eq_succ_of_ne_zero (List.length_pos_iff.mpr named).ne'
  have whole := undeclared _ (mem_initials.mpr ⟨n, by omega, rfl⟩)
  rw [← Nat.succ_eq_add_one, ← length, List.take_length,
    find?_congr (components_ofComponents_components location)] at whole
  exact mem_elsewhere_iff.mpr ⟨listed, whole⟩

/-- The parts with a single name are the first names of locations of which nothing is declared. -/
theorem mem_undeclaredParts_single {first : String} : [first] ∈ undeclaredParts dirs ↔
    ∃ location ∈ locationsIn dirs, (components location).head? = some first ∧
      ∀ path ∈ initials location, find? dirs path = none := by
  rw [undeclaredParts, List.mem_flatMap]
  refine exists_congr fun location => ?_
  rw [mem_elsewhere_iff, mem_newParts]
  constructor
  · rintro ⟨⟨listed, missing⟩, m, above, bound, part⟩
    have length := congrArg List.length part
    rw [List.length_take, Nat.min_eq_left bound, List.length_singleton] at length
    have named : components location ≠ [] := List.length_pos_iff.mp (by omega)
    refine ⟨listed, ?_, (declaredLength_eq_zero_iff named missing).mp (by omega)⟩
    have head := congrArg List.head? part
    rw [List.head?_take, if_neg (by omega)] at head
    exact head.symm
  · rintro ⟨listed, head, undeclared⟩
    obtain ⟨rest, names⟩ := List.head?_eq_some_iff.mp head
    have named : components location ≠ [] := by simp [names]
    have elsewhere := mem_elsewhere_of_undeclared listed named undeclared
    have zero :=
      (declaredLength_eq_zero_iff named (mem_elsewhere_iff.mp elsewhere).2).mpr undeclared
    exact ⟨mem_elsewhere_iff.mp elsewhere, 1, by omega, by simp [names], by simp [names]⟩

end Dir

namespace Project

variable (project : Project) (options : Options) {id : String}

/-- The locations for which a directory with a narrow id is made. -/
theorem exists_part_narrow_iff (wide : project.platform = .x64)
    (mapped : options.map64InstallDirs = true) (narrow : IsNarrow id) :
    (∃ part ∈ Dir.undeclaredParts (project.prepare options).project.dirs,
      Folder.identifier (ofComponents part) = id) ↔
        ∃ location ∈ Dir.locationsIn project.dirs,
          Dir.LocatesNarrow (project.prepare options).project.dirs id location := by
  have wide' : project.withSomeDir.platform = .x64 := by
    rw [withSomeDir]
    split <;> exact wide
  have listed : Dir.locationsIn (project.prepare options).project.dirs =
      (Dir.locationsIn project.dirs).map Folder.widen := by
    rw [locationsIn_prepare_eq, widened, if_pos ⟨wide', mapped⟩, Dir.locationsIn_widenAll]
    rw [withSomeDir]
    split
    next empty => simp [List.isEmpty_iff.mp empty, Dir.locationsIn, Dir.locations, Dir.placeholder]
    next => rfl
  constructor
  · rintro ⟨part, isPart, same⟩
    -- an identifier without a full stop is that of a single name
    have positive := Dir.length_pos_of_mem_undeclaredParts isPart
    obtain ⟨first, rfl⟩ : ∃ first, part = [first] := by
      refine List.length_eq_one_iff.mp ?_
      by_contra several
      have dotted := Dir.dot_mem_identifier_undeclaredPart isPart (by omega)
      rw [same] at dotted
      exact (Folder.forall_narrow id narrow).1.dot_notMem dotted
    obtain ⟨_, mem, head, undeclared⟩ := Dir.mem_undeclaredParts_single.mp isPart
    rw [listed] at mem
    obtain ⟨location, isLocation, rfl⟩ := List.mem_map.mp mem
    obtain ⟨different, unpaired⟩ := (Folder.identifier_widen_iff narrow head).mp same
    exact ⟨location, isLocation, different, unpaired, undeclared⟩
  · rintro ⟨location, mem, different, unpaired, undeclared⟩
    obtain ⟨first, head⟩ : ∃ first, (components (Folder.widen location)).head? = some first := by
      obtain ⟨name, head, spells⟩ := unpaired
      by_cases bare : IsNarrow location
      · rw [Folder.components_of_isFolderId (Folder.widen_of_isNarrow bare).1]
        exact ⟨_, rfl⟩
      · rw [Folder.components_widen bare, List.head?_map, head]
        exact ⟨_, rfl⟩
    refine ⟨[first], Dir.mem_undeclaredParts_single.mpr ⟨_, ?_, head, undeclared⟩,
      (Folder.identifier_widen_iff narrow head).mpr ⟨different, unpaired⟩⟩
    rw [listed]
    exact List.mem_map_of_mem mem

end Project

end Installer
