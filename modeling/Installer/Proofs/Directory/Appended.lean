import Installer.Proofs.Directory.Generated
import Installer.Proofs.Directory.Housed
import Installer.Proofs.Folder.Widening

/-! # One more directory

When a directory is put behind those of a project, everything that is done to the directories before
goes on as if it were not there: special folders are widened, paths are split, and the installation
directory is looked for in the first directory only.  As long as the new directory declares no ids
and shortcuts call for no directories, the same ids are reserved and handed out, too.
-/

namespace Installer

open IdPool

namespace DirBody

def declaredIds (body : DirBody) : List (IdKind × String) :=
  (body.id.toList.map fun id => (.directory, id)) ++
    (body.files.filterMap File.id).map fun id => (.file, id)

def locations (body : DirBody) : List String :=
  ((body.files.flatMap File.shortcuts).map Shortcut.location).filter fun l => !l.isEmpty

theorem declaredIds_widen (body : DirBody) : body.widen.declaredIds = body.declaredIds := by
  simp only [declaredIds, widen, List.filterMap_map]
  rfl

/-- Locations are made wider one by one, and only the empty one becomes empty. -/
theorem locations_widen (body : DirBody) :
    body.widen.locations = body.locations.map Folder.widen := by
  have same : (body.widen.files.flatMap File.shortcuts).map Shortcut.location =
      ((body.files.flatMap File.shortcuts).map Shortcut.location).map Folder.widen := by
    simp only [widen, List.flatMap_map, List.map_flatMap, List.map_map]
    rfl
  rw [locations, locations, same, List.filter_map]
  congr 1
  refine List.filter_congr fun location _ => ?_
  rw [Function.comp_apply, Bool.eq_iff_iff]
  simp [Folder.widen_eq_empty]

end DirBody

namespace Dir

variable {dirs more : List Dir}

/-! ## What a directory declares -/

mutual

theorem declaredIds_eq : ∀ dir : Dir, declaredIds dir = readAll DirBody.declaredIds [dir]
  | ⟨body, dirs⟩ => by
    rw [declaredIds, readAll_singleton, declaredIdsIn_eq dirs]
    rfl

theorem declaredIdsIn_eq : ∀ dirs : List Dir,
    declaredIdsIn dirs = readAll DirBody.declaredIds dirs
  | [] => rfl
  | dir :: rest => by
    rw [declaredIdsIn, declaredIds_eq dir, declaredIdsIn_eq rest, ← readAll_append,
      List.singleton_append]

end

theorem declaredIdsIn_splitAll (dirs : List Dir) :
    declaredIdsIn (splitAll dirs) = declaredIdsIn dirs := by
  rw [declaredIdsIn_eq, declaredIdsIn_eq]
  exact readAll_splitAll (fun _ _ => rfl) (fun _ => rfl) dirs

theorem declaredIdsIn_widenAll (dirs : List Dir) :
    declaredIdsIn (widenAll dirs) = declaredIdsIn dirs := by
  rw [declaredIdsIn_eq, declaredIdsIn_eq]
  exact readAll_widenAll DirBody.declaredIds_widen dirs

theorem declaredIdsIn_append (dirs more : List Dir) :
    declaredIdsIn (dirs ++ more) = declaredIdsIn dirs ++ declaredIdsIn more := by
  rw [declaredIdsIn_eq, declaredIdsIn_eq, declaredIdsIn_eq, readAll_append]

theorem locationsIn_eq_readAll (dirs : List Dir) :
    locationsIn dirs = readAll DirBody.locations dirs := by
  rw [locationsIn_eq, allFiles, readAll, List.flatMap_assoc, List.map_flatMap, List.filter_flatMap]
  rfl

theorem locationsIn_append (dirs more : List Dir) :
    locationsIn (dirs ++ more) = locationsIn dirs ++ locationsIn more := by
  rw [locationsIn_eq_readAll, locationsIn_eq_readAll, locationsIn_eq_readAll, readAll_append]

/-- No shortcut of a file names a location. -/
theorem locationsIn_eq_nil : locationsIn dirs = [] ↔
    ∀ file ∈ allFiles dirs, ∀ shortcut ∈ file.shortcuts, shortcut.location = "" := by
  rw [locationsIn_eq, List.filter_eq_nil_iff]
  simp only [List.mem_map, List.mem_flatMap, Bool.not_eq_true, Bool.not_eq_false',
    String.isEmpty_iff]
  constructor
  · exact fun none file isFile shortcut isShortcut =>
      none _ ⟨shortcut, ⟨file, isFile, isShortcut⟩, rfl⟩
  · rintro none _ ⟨shortcut, ⟨file, isFile, isShortcut⟩, rfl⟩
    exact none file isFile shortcut isShortcut

theorem locationsIn_widenAll (dirs : List Dir) :
    locationsIn (widenAll dirs) = (locationsIn dirs).map Folder.widen := by
  rw [locationsIn_eq_readAll, locationsIn_eq_readAll, widenAll_eq_mapBodies, readAll_mapBodies_eq,
    readAll, readAll, List.map_flatMap]
  exact List.flatMap_congr fun dir _ => dir.locations_widen

theorem locationsIn_widenAll_eq_nil (dirs : List Dir) (nowhere : locationsIn dirs = []) :
    locationsIn (widenAll dirs) = [] := by
  rw [locationsIn_widenAll, nowhere, List.map_nil]

theorem locationsIn_shape (installId : String) (dirs : List Dir) :
    locationsIn (shape installId dirs).1 = locationsIn dirs := by
  rw [locationsIn_eq_readAll, locationsIn_eq_readAll]
  exact readAll_shape (fun _ _ => rfl) (fun _ => rfl) (fun _ _ => rfl) _ _

/-! ## The shape -/

theorem splitAll_eq_map (dirs : List Dir) : splitAll dirs = dirs.map split := by
  induction dirs with
  | nil => rfl
  | cons dir rest ih => rw [splitAll, ih, List.map_cons]

theorem widenAll_eq_map (dirs : List Dir) : widenAll dirs = dirs.map widen := by
  induction dirs with
  | nil => rfl
  | cons dir rest ih => rw [widenAll, ih, List.map_cons]

/-- The search for the installation directory begins and ends in the first directory. -/
theorem assignFirst?_append (id : String) (some_ : dirs ≠ []) (more : List Dir) :
    assignFirst? id (dirs ++ more) =
      (assignFirst? id dirs).map fun assigned => (assigned.1 ++ more, assigned.2) := by
  cases dirs with
  | nil => exact absurd rfl some_
  | cons dir rest =>
    rw [List.cons_append, assignFirst?, assignFirst?, Option.map_map]
    rfl

theorem shape_append (installId : String) (some_ : dirs ≠ []) (more : List Dir) :
    (shape installId (dirs ++ more)).1 = (shape installId dirs).1 ++ splitAll more := by
  have split_ne : splitAll dirs ≠ [] := by
    rw [splitAll_eq_map]
    exact fun none => some_ (List.map_eq_nil_iff.mp none)
  have split_eq : splitAll (dirs ++ more) = splitAll dirs ++ splitAll more := by
    rw [splitAll_eq_map, splitAll_eq_map, splitAll_eq_map, List.map_append]
  rw [shape, shape, split_eq, assignFirst?_append installId split_ne]
  cases installId.isEmpty with
  | true => rfl
  | false => cases assignFirst? installId (splitAll dirs) <;> rfl

/-! ## Ids -/

/-- The walk over more directories begins where the one before ends. -/
theorem resolveAll_append (parentId : String) (dirs more : List Dir) (pool : IdPool) :
    (resolveAll parentId (dirs ++ more)).run pool =
      (((resolveAll parentId dirs).run pool).1 ++
          ((resolveAll parentId more).run ((resolveAll parentId dirs).run pool).2).1,
        ((resolveAll parentId more).run ((resolveAll parentId dirs).run pool).2).2) := by
  induction dirs generalizing pool with
  | nil => rfl
  | cons dir rest ih =>
    rw [List.cons_append, resolveAll, resolveAll]
    simp only [StateT.run_bind, ih]
    rfl

/-- Directories that reserve nothing leave the ids of those before them alone. -/
theorem exists_withIds_append (ids : declaredIdsIn more = []) (nowhere : locationsIn dirs = [])
    (nowhere' : locationsIn more = []) (pool : IdPool) :
    ∃ added, ((withIds (dirs ++ more)).run pool).1 = ((withIds dirs).run pool).1 ++ added := by
  have reserved : reservedIds (dirs ++ more) = reservedIds dirs := by
    rw [reservedIds, reservedIds, declaredIdsIn_append, locationsIn_append, ids, nowhere, nowhere']
    simp
  have run : ∀ dirs, (withIds dirs).run pool = (resolveAll rootId dirs).run
      ((forIn (reservedIds dirs) PUnit.unit fun entry _ => do
        reserve entry.1 entry.2
        pure (ForInStep.yield PUnit.unit) : StateM IdPool PUnit).run pool).2 := fun _ => rfl
  rw [run, run, reserved, resolveAll_append]
  exact ⟨_, rfl⟩

end Dir

/-! ## Prepared projects -/

namespace Project

def withDirs (project : Project) (dirs : List Dir) : Project :=
  { project with dirs }

variable {project : Project} {more : List Dir}

/-- Further directories do not change what is made of the ones before. -/
theorem exists_widened_append (some_ : project.dirs ≠ []) (options : Options) (more : List Dir) :
    ∃ added, (project.withDirs (project.dirs ++ more)).withSomeDir.widened options =
        (project.withSomeDir.widened options).withDirs
          ((project.withSomeDir.widened options).dirs ++ added) ∧
      (added = more ∨ added = Dir.widenAll more) := by
  have first : ¬ project.dirs.isEmpty = true := by simpa using some_
  have both : ¬ (project.withDirs (project.dirs ++ more)).dirs.isEmpty = true := by
    simp [withDirs, some_]
  rw [withSomeDir, withSomeDir, if_neg first, if_neg both]
  by_cases wide : project.platform = .x64 ∧ options.map64InstallDirs = true
  · refine ⟨Dir.widenAll more, ?_, .inr rfl⟩
    have wide' : (project.withDirs (project.dirs ++ more)).platform = .x64 ∧
        options.map64InstallDirs = true := wide
    rw [widened, widened, if_pos wide, if_pos wide', withDirs, Dir.widenAll_eq_map,
      List.map_append, ← Dir.widenAll_eq_map, ← Dir.widenAll_eq_map]
    rfl
  · refine ⟨more, ?_, .inl rfl⟩
    have wide' : ¬ ((project.withDirs (project.dirs ++ more)).platform = .x64 ∧
        options.map64InstallDirs = true) := wide
    rw [widened, widened, if_neg wide, if_neg wide']

theorem locationsIn_shapedDirs (some_ : project.dirs ≠ [])
    (nowhere : Dir.locationsIn project.dirs = []) (options : Options) :
    Dir.locationsIn (project.shapedDirs options) = [] := by
  have first : project.dirs.isEmpty = false := by simpa using some_
  rw [shapedDirs, Dir.locationsIn_shape]
  simp only [withSomeDir, first, Bool.false_eq_true, if_false, widened]
  split
  next => exact Dir.locationsIn_widenAll_eq_nil _ nowhere
  next => exact nowhere

/-- Locations are read from a prepared project as they were made wider, or not. -/
theorem locationsIn_prepare_eq (project : Project) (options : Options) :
    Dir.locationsIn (project.prepare options).project.dirs =
      Dir.locationsIn (project.withSomeDir.widened options).dirs := by
  rw [← Dir.locationsIn_withoutIdsAll, project.withoutIds_prepare options,
    Dir.locationsIn_withoutIdsAll, shapedDirs, Dir.locationsIn_shape]

theorem locationsIn_prepare (some_ : project.dirs ≠ [])
    (nowhere : Dir.locationsIn project.dirs = []) (options : Options) :
    Dir.locationsIn (project.prepare options).project.dirs = [] := by
  rw [locationsIn_prepare_eq, ← Dir.locationsIn_shape options.installDirDefaultId]
  exact locationsIn_shapedDirs some_ nowhere options

/-- The directories of a project are prepared in the same way when others that declare no ids stand
behind them. -/
theorem exists_prepare_append (some_ : project.dirs ≠ []) (ids : Dir.declaredIdsIn more = [])
    (nowhere : Dir.locationsIn (project.dirs ++ more) = []) (options : Options) :
    ∃ added, ((project.withDirs (project.dirs ++ more)).prepare options).project =
      (project.prepare options).project.withDirs
        ((project.prepare options).project.dirs ++ added) := by
  rw [Dir.locationsIn_append, List.append_eq_nil_iff] at nowhere
  obtain ⟨widened, same, kind⟩ := exists_widened_append some_ options more
  obtain ⟨ids', nowhere'⟩ : Dir.declaredIdsIn (Dir.splitAll widened) = [] ∧
      Dir.locationsIn (Dir.splitAll widened) = [] := by
    rw [Dir.declaredIdsIn_splitAll, Dir.locationsIn_eq_readAll,
      Dir.readAll_splitAll (fun _ _ => rfl) (fun _ => rfl), ← Dir.locationsIn_eq_readAll]
    cases kind with
    | inl plain => exact plain ▸ ⟨ids, nowhere.2⟩
    | inr wide =>
      rw [wide, Dir.declaredIdsIn_widenAll]
      exact ⟨ids, Dir.locationsIn_widenAll_eq_nil more nowhere.2⟩
  obtain ⟨added, resolved⟩ := Dir.exists_withIds_append ids'
    (locationsIn_shapedDirs some_ nowhere.1 options) nowhere' {}
  rw [shapedDirs, ← Dir.shape_append _ (project.dirs_widened_ne_nil options)] at resolved
  have prepared : ∀ project : Project, (project.prepare options).project =
      (project.withSomeDir.widened options).withDirs
        ((Dir.withIds (project.shapedDirs options)).run {}).1 := fun _ => rfl
  have all : ((project.withDirs (project.dirs ++ more)).shapedDirs options) =
      (Dir.shape options.installDirDefaultId
        ((project.withSomeDir.widened options).dirs ++ widened)).1 := by
    rw [shapedDirs, same]
    rfl
  refine ⟨added, ?_⟩
  rw [prepared, prepared, all, resolved, same]
  rfl

end Project

/-! ## Compilations -/

namespace Compilation

def withDirs (c : Compilation) (dirs : List Dir) : Compilation :=
  { c with project := c.project.withDirs dirs }

theorem ofProject_withDirs (options : Options) (project : Project) (dirs : List Dir) :
    ofProject options (project.withDirs dirs) =
      (ofProject options project).map (·.withDirs dirs) := by
  have culture : (project.withDirs dirs).culture? = project.culture? := rfl
  rw [ofProject, ofProject, culture]
  cases project.culture? <;> rfl

end Compilation

end Installer
