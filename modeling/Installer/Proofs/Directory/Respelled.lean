import Installer.Proofs.Directory.Appended
import Installer.Proofs.Folder.Respelled
import Installer.Proofs.Markup.Respelled

/-! # Directories with other spellings of their names

The same directories may be declared under names that are spelled in another way.  A path is made
into the same chain of directories, whatever its separators are.  A single name keeps its spelling,
but where it does not spell a special folder, all that is asked of it is its identifier: the same
directory becomes the installation directory, the same ids are given out, and the same directory is
found.
-/

namespace Installer

open Folder (SameFolder Respells RespellsPath)

namespace Dir

variable {R S : String → String → Prop} {dir dir' : Dir} {dirs dirs' : List Dir}

mutual

/-- The same directory and the same below it, with names that are related. -/
inductive Respelled (R : String → String → Prop) : Dir → Dir → Prop where
  | mk {body : DirBody} {name' : String} {dirs dirs' : List Dir} (name : R body.name name')
      (below : RespelledAll R dirs dirs') :
      Respelled R ⟨body, dirs⟩ ⟨{ body with name := name' }, dirs'⟩

inductive RespelledAll (R : String → String → Prop) : List Dir → List Dir → Prop where
  | nil : RespelledAll R [] []
  | cons {dir dir' : Dir} {rest rest' : List Dir} (first : Respelled R dir dir')
      (others : RespelledAll R rest rest') : RespelledAll R (dir :: rest) (dir' :: rest')

end

mutual

theorem Respelled.refl (same : ∀ name, R name name) : ∀ dir : Dir, Respelled R dir dir
  | ⟨body, dirs⟩ => .mk (same body.name) (RespelledAll.refl same dirs)

theorem RespelledAll.refl (same : ∀ name, R name name) : ∀ dirs : List Dir, RespelledAll R dirs dirs
  | [] => .nil
  | dir :: rest => .cons (Respelled.refl same dir) (RespelledAll.refl same rest)

end

mutual

theorem Respelled.symm (back : ∀ name name', R name name' → S name' name) :
    ∀ {dir dir' : Dir}, Respelled R dir dir' → Respelled S dir' dir
  | _, _, .mk name below => .mk (back _ _ name) (below.symm back)

theorem RespelledAll.symm (back : ∀ name name', R name name' → S name' name) :
    ∀ {dirs dirs' : List Dir}, RespelledAll R dirs dirs' → RespelledAll S dirs' dirs
  | _, _, .nil => .nil
  | _, _, .cons first others => .cons (first.symm back) (others.symm back)

end

mutual

theorem Respelled.eq : ∀ {dir dir' : Dir}, Respelled Eq dir dir' → dir = dir'
  | _, _, .mk rfl below => by rw [below.eq]

theorem RespelledAll.eq : ∀ {dirs dirs' : List Dir}, RespelledAll Eq dirs dirs' → dirs = dirs'
  | _, _, .nil => rfl
  | _, _, .cons first others => by rw [first.eq, others.eq]

end

theorem RespelledAll.length_eq : ∀ {dirs dirs' : List Dir}, RespelledAll R dirs dirs' →
    dirs'.length = dirs.length
  | _, _, .nil => rfl
  | _, _, .cons _ others => congrArg (· + 1) others.length_eq

theorem Respelled.isEmpty (respelled : Respelled R dir dir') : dir'.isEmpty = dir.isEmpty := by
  cases respelled with
  | mk name below =>
    cases below <;> rfl

theorem Respelled.finalId (respelled : Respelled SameFolder dir dir') :
    dir'.finalId = dir.finalId := by
  cases respelled with
  | mk name below => rw [Dir.finalId, Dir.finalId, Folder.identifier_congr name.components]

/-! ## Wider folders -/

mutual

theorem Respelled.widen
    (wide : ∀ name name', R name name' → S (Folder.widen name) (Folder.widen name')) :
    ∀ {dir dir' : Dir}, Respelled R dir dir' → Respelled S dir.widen dir'.widen
  | _, _, .mk name below => .mk (wide _ _ name) (below.widen wide)

theorem RespelledAll.widen
    (wide : ∀ name name', R name name' → S (Folder.widen name) (Folder.widen name')) :
    ∀ {dirs dirs' : List Dir}, RespelledAll R dirs dirs' →
      RespelledAll S (widenAll dirs) (widenAll dirs')
  | _, _, .nil => .nil
  | _, _, .cons first others => .cons (first.widen wide) (others.widen wide)

end

/-! ## Chains -/

/-- How names are related before and after paths are split: paths by their components, and only
single names after that. -/
structure SplitsInto (R S : String → String → Prop) : Prop where
  components : ∀ name name', R name name' →
    LogicalPath.components name = LogicalPath.components name'
  same : ∀ name, S name name
  single : ∀ name name', R name name' → (LogicalPath.components name).length ≤ 1 → S name name'

theorem splitsInto_eq : SplitsInto RespellsPath Eq where
  components _ _ respells := respells.components
  same _ := rfl
  single _ _ respells := respells.single

theorem splitsInto_sameFolder : SplitsInto Respells SameFolder where
  components _ _ respells := respells.components
  same := SameFolder.refl
  single _ _ respells _ := respells.sameFolder

/-- A path becomes the same chain in every spelling; a single name is kept. -/
theorem Respelled.chained (splits : SplitsInto R S) {body : DirBody} {name' : String}
    (name : R body.name name') (below : RespelledAll S dirs dirs') :
    Respelled S (Dir.chained ⟨body, dirs⟩) (Dir.chained ⟨{ body with name := name' }, dirs'⟩) := by
  have enclosed : ∀ (names : List String) {dir dir' : Dir}, Respelled S dir dir' →
      Respelled S (names.foldr enclose dir) (names.foldr enclose dir') := by
    intro names dir dir' inner
    induction names with
    | nil => exact inner
    | cons name rest ih => exact .mk (splits.same name) (.cons ih .nil)
  simp only [Dir.chained, ← splits.components _ _ name]
  split
  next none =>
    have short : (LogicalPath.components body.name).length ≤ 1 := by
      have length := congrArg List.length none
      rw [List.length_dropLast, List.length_nil] at length
      omega
    exact .mk (splits.single _ _ name short) below
  next several =>
    have long : LogicalPath.components body.name ≠ [] := fun empty =>
      several (by rw [empty, List.dropLast_nil])
    refine enclosed _ (.mk ?_ below)
    rw [List.getLastD_eq_getLast?, List.getLastD_eq_getLast?, List.getLast?_eq_some_getLast long]
    exact splits.same _

mutual

theorem Respelled.split (splits : SplitsInto R S) : ∀ {dir dir' : Dir}, Respelled R dir dir' →
    Respelled S dir.split dir'.split
  | _, _, .mk name below => Respelled.chained splits name (below.split splits)

theorem RespelledAll.split (splits : SplitsInto R S) : ∀ {dirs dirs' : List Dir},
    RespelledAll R dirs dirs' → RespelledAll S (splitAll dirs) (splitAll dirs')
  | _, _, .nil => .nil
  | _, _, .cons first others => .cons (first.split splits) (others.split splits)

end

/-! ## The installation directory -/

/-- The same directory was made the installation directory, or none was. -/
def Assigns {α : Type} (whole : α → α → Prop) : Option (α × String) → Option (α × String) → Prop :=
  Option.Rel fun assigned assigned' => whole assigned.1 assigned'.1 ∧
    LogicalPath.components assigned.2 = LogicalPath.components assigned'.2

theorem withInstallId?_of_sameFolder {body : DirBody} {name' : String}
    (name : SameFolder body.name name') (below : RespelledAll SameFolder dirs dirs') (id : String) :
    Option.Rel (Respelled SameFolder) (Dir.withInstallId? id ⟨body, dirs⟩)
      (Dir.withInstallId? id ⟨{ body with name := name' }, dirs'⟩) := by
  have special : Folder.isSpecial name' = Folder.isSpecial body.name := by
    rw [Folder.isSpecial, ← name.specialId]
    rfl
  simp only [Dir.withInstallId?, special]
  by_cases taken : (body.id.isSome || Folder.isSpecial body.name) = true
  · rw [if_pos taken, if_pos taken]
    exact .none
  · rw [if_neg taken, if_neg taken]
    exact .some (Respelled.mk name below)

mutual

theorem Respelled.assignInstallId? (id : String) :
    ∀ {dir dir' : Dir}, Respelled SameFolder dir dir' →
    Assigns (Respelled SameFolder) (Dir.assignInstallId? id dir) (Dir.assignInstallId? id dir')
  | _, _, .mk name below => by
    simp only [Dir.assignInstallId?, below.length_eq]
    split
    next =>
      refine rel_map (below.assignFirst? id) fun ⟨same, path⟩ => ⟨.mk name same, ?_⟩
      rw [LogicalPath.components_append, LogicalPath.components_append, name.components, path]
    next =>
      exact rel_map (withInstallId?_of_sameFolder name below id) fun same => ⟨same, name.components⟩

theorem RespelledAll.assignFirst? (id : String) : ∀ {dirs dirs' : List Dir},
    RespelledAll SameFolder dirs dirs' →
      Assigns (RespelledAll SameFolder) (Dir.assignFirst? id dirs) (Dir.assignFirst? id dirs')
  | _, _, .nil => .none
  | _, _, .cons first others => by
    rw [Dir.assignFirst?, Dir.assignFirst?]
    exact rel_map (first.assignInstallId? id) fun ⟨same, path⟩ => ⟨.cons same others, path⟩

end

theorem RespelledAll.shape (installId : String) (respelled : RespelledAll Respells dirs dirs') :
    RespelledAll SameFolder (Dir.shape installId dirs).1 (Dir.shape installId dirs').1 ∧
      (Dir.shape installId dirs).2.map LogicalPath.components =
        (Dir.shape installId dirs').2.map LogicalPath.components := by
  have split := respelled.split splitsInto_sameFolder
  rw [Dir.shape, Dir.shape]
  cases installId.isEmpty with
  | true => exact ⟨split, rfl⟩
  | false =>
    have assigns := split.assignFirst? installId
    simp only [Bool.false_eq_true, if_false]
    generalize Dir.assignFirst? installId (splitAll dirs) = found at assigns
    generalize Dir.assignFirst? installId (splitAll dirs') = found' at assigns
    cases assigns with
    | none => exact ⟨split, rfl⟩
    | some same => exact ⟨same.1, congrArg some same.2⟩

/-! ## Finding directories -/

mutual

theorem Respelled.findId? (id : String) : ∀ {dir dir' : Dir}, Respelled SameFolder dir dir' →
    Option.Rel (Respelled SameFolder) (Dir.findId? id dir) (Dir.findId? id dir')
  | _, _, .mk name below => by
    simp only [Dir.findId?]
    split
    next => exact .some (.mk name below)
    next => exact below.findIdIn? id

theorem RespelledAll.findIdIn? (id : String) : ∀ {dirs dirs' : List Dir},
    RespelledAll SameFolder dirs dirs' →
      Option.Rel (Respelled SameFolder) (Dir.findIdIn? id dirs) (Dir.findIdIn? id dirs')
  | _, _, .nil => .none
  | _, _, .cons first others => rel_or (first.findId? id) (others.findIdIn? id)

end

theorem nameKey_of_sameFolder {name name' : String} (same : SameFolder name name') :
    Dir.nameKey name' = Dir.nameKey name := by
  rw [Dir.nameKey, Dir.nameKey, Folder.identifier_congr same.components]

mutual

theorem Respelled.follow? :
    ∀ {dir dir' : Dir}, Respelled SameFolder dir dir' → ∀ names : List String,
    Option.Rel (Respelled SameFolder) (Dir.follow? dir names) (Dir.follow? dir' names)
  | _, _, .mk _ _, [] => .none
  | _, _, .mk name below, first :: rest => by
    simp only [Dir.follow?, nameKey_of_sameFolder name]
    split
    next =>
      split
      next => exact .some (.mk name below)
      next => exact below.followIn? rest
    next => exact .none

theorem RespelledAll.followIn? : ∀ {dirs dirs' : List Dir}, RespelledAll SameFolder dirs dirs' →
    ∀ names : List String,
      Option.Rel (Respelled SameFolder) (Dir.followIn? dirs names) (Dir.followIn? dirs' names)
  | _, _, .nil, _ => .none
  | _, _, .cons first others, names => rel_or (first.follow? names) (others.followIn? names)

end

/-- The same directory is found, whatever its name is. -/
theorem RespelledAll.find? (respelled : RespelledAll SameFolder dirs dirs') (path : String) :
    Option.Rel (Respelled SameFolder) (Dir.find? dirs path) (Dir.find? dirs' path) := by
  rw [Dir.find?, Dir.find?]
  split
  next => exact rel_or (respelled.findIdIn? _) (respelled.followIn? _)
  next => exact respelled.followIn? _

/-! ## Ids -/

mutual

theorem Respelled.readAll {α : Type} {read : DirBody → List α}
    (blind : ∀ (body : DirBody) (name : String), read { body with name } = read body) :
    ∀ {dir dir' : Dir}, Respelled R dir dir' → Dir.readAll read [dir'] = Dir.readAll read [dir]
  | _, _, @Respelled.mk _ body name' _ _ _ below => by
    rw [readAll_singleton, readAll_singleton, blind, below.readAll blind]

theorem RespelledAll.readAll {α : Type} {read : DirBody → List α}
    (blind : ∀ (body : DirBody) (name : String), read { body with name } = read body) :
    ∀ {dirs dirs' : List Dir}, RespelledAll R dirs dirs' →
      Dir.readAll read dirs' = Dir.readAll read dirs
  | _, _, .nil => rfl
  | _, _, .cons first others => by
    rw [← List.singleton_append, readAll_append, first.readAll blind, others.readAll blind,
      ← readAll_append, List.singleton_append]

end

theorem RespelledAll.reservedIds (respelled : RespelledAll SameFolder dirs dirs') :
    Dir.reservedIds dirs' = Dir.reservedIds dirs := by
  have declared : declaredIdsIn dirs' = declaredIdsIn dirs := by
    rw [declaredIdsIn_eq, declaredIdsIn_eq]
    exact respelled.readAll fun _ _ => rfl
  have locations : locationsIn dirs' = locationsIn dirs := by
    rw [locationsIn_eq_readAll, locationsIn_eq_readAll]
    exact respelled.readAll fun _ _ => rfl
  have ids : locationIds dirs' = locationIds dirs := by
    funext location
    simp only [locationIds, fun path => isNone_eq_of_rel (respelled.find? path)]
  rw [Dir.reservedIds, Dir.reservedIds, declared, locations, ids]

mutual

theorem Respelled.resolve : ∀ {dir dir' : Dir}, Respelled SameFolder dir dir' →
    ∀ (parentId : String) (pool : IdPool),
      Respelled SameFolder ((Dir.resolve parentId dir).run pool).1
          ((Dir.resolve parentId dir').run pool).1 ∧
        ((Dir.resolve parentId dir').run pool).2 = ((Dir.resolve parentId dir).run pool).2
  | _, _, @Respelled.mk _ body name' dirs dirs' name below, parentId, pool => by
    have id : DirBody.resolveId parentId { body with name := name' } = body.resolveId parentId := by
      simp only [DirBody.resolveId, ← name.specialId, Folder.identifier_congr name.components]
    obtain ⟨same, pools⟩ := below.resolveAll ((body.resolveId parentId).run pool).1
      ((body.resolve ((body.resolveId parentId).run pool).1).run
        ((body.resolveId parentId).run pool).2).2
    rw [Dir.resolve, Dir.resolve, id]
    exact ⟨.mk name same, pools⟩

/-- The same ids are given out, whatever the names are. -/
theorem RespelledAll.resolveAll : ∀ {dirs dirs' : List Dir}, RespelledAll SameFolder dirs dirs' →
    ∀ (parentId : String) (pool : IdPool),
      RespelledAll SameFolder ((Dir.resolveAll parentId dirs).run pool).1
          ((Dir.resolveAll parentId dirs').run pool).1 ∧
        ((Dir.resolveAll parentId dirs').run pool).2 = ((Dir.resolveAll parentId dirs).run pool).2
  | _, _, .nil, _, _ => ⟨.nil, rfl⟩
  | _, _, @RespelledAll.cons _ dir dir' rest rest' first others, parentId, pool => by
    obtain ⟨same, pools⟩ := first.resolve parentId pool
    obtain ⟨same', pools'⟩ := others.resolveAll parentId ((Dir.resolve parentId dir).run pool).2
    have run : ∀ dir rest, (Dir.resolveAll parentId (dir :: rest)).run pool =
        (((Dir.resolve parentId dir).run pool).1 ::
            ((Dir.resolveAll parentId rest).run ((Dir.resolve parentId dir).run pool).2).1,
          ((Dir.resolveAll parentId rest).run ((Dir.resolve parentId dir).run pool).2).2) := by
      intro dir rest
      rw [Dir.resolveAll]
      rfl
    rw [run, run, pools]
    exact ⟨.cons same same', pools'⟩

end

theorem RespelledAll.withIds (respelled : RespelledAll SameFolder dirs dirs') (pool : IdPool) :
    RespelledAll SameFolder ((Dir.withIds dirs).run pool).1 ((Dir.withIds dirs').run pool).1 ∧
      ((Dir.withIds dirs').run pool).2 = ((Dir.withIds dirs).run pool).2 := by
  rw [Dir.withIds, Dir.withIds, respelled.reservedIds]
  exact respelled.resolveAll rootId _

end Dir

/-! ## Prepared projects -/

namespace Project

open Dir (RespelledAll)

variable {project : Project} {dirs' : List Dir}

/-- The directories of a project are widened, or not, as those are that respell them. -/
theorem exists_widened_respelled (options : Options) {R : String → String → Prop}
    (wide : ∀ name name', R name name' → R (Folder.widen name) (Folder.widen name'))
    (same : ∀ name, R name name) (respelled : RespelledAll R project.dirs dirs') :
    ∃ widened, (project.withDirs dirs').withSomeDir.widened options =
        (project.withSomeDir.widened options).withDirs widened ∧
      RespelledAll R (project.withSomeDir.widened options).dirs widened := by
  -- a project without directories has none in the other spelling either
  have some_ : ∃ some', (project.withDirs dirs').withSomeDir = project.withSomeDir.withDirs some' ∧
      RespelledAll R project.withSomeDir.dirs some' := by
    cases dirs : project.dirs with
    | nil =>
      rw [dirs] at respelled
      cases respelled
      refine ⟨[Dir.placeholder], ?_, ?_⟩
      · simp [withSomeDir, withDirs, dirs]
      · simpa [withSomeDir, dirs] using RespelledAll.refl same _
    | cons dir rest =>
      rw [dirs] at respelled
      refine ⟨dirs', ?_, ?_⟩
      · cases respelled
        simp [withSomeDir, withDirs, dirs]
      · simpa [withSomeDir, dirs] using respelled
  obtain ⟨some', eq, respelled⟩ := some_
  rw [eq, widened, widened]
  by_cases x64 : project.withSomeDir.platform = .x64 ∧ options.map64InstallDirs = true
  · have x64' : (project.withSomeDir.withDirs some').platform = .x64 ∧
        options.map64InstallDirs = true := x64
    rw [if_pos x64, if_pos x64']
    exact ⟨_, rfl, respelled.widen wide⟩
  · have x64' : ¬ ((project.withSomeDir.withDirs some').platform = .x64 ∧
        options.map64InstallDirs = true) := x64
    rw [if_neg x64, if_neg x64']
    exact ⟨_, rfl, respelled⟩

theorem prepare_eq (project : Project) (options : Options) : project.prepare options =
    let widened := project.withSomeDir.widened options
    let shaped := Dir.shape options.installDirDefaultId widened.dirs
    let (dirs, ids) := (Dir.withIds shaped.1).run {}
    ⟨widened.withDirs dirs, shaped.2, ids⟩ := rfl

/-- Paths are prepared in the same way, however they are spelled. -/
theorem prepare_respelledPaths (respelled : RespelledAll RespellsPath project.dirs dirs')
    (options : Options) : (project.withDirs dirs').prepare options = project.prepare options := by
  obtain ⟨widened, eq, respelled⟩ := exists_widened_respelled options
    (fun _ _ respells => respells.widen) (fun _ => ⟨rfl, fun _ => rfl⟩) respelled
  have split := (respelled.split Dir.splitsInto_eq).eq
  have shape : Dir.shape options.installDirDefaultId widened =
      Dir.shape options.installDirDefaultId (project.withSomeDir.widened options).dirs := by
    rw [Dir.shape, Dir.shape, split]
  have dirs : ((project.withSomeDir.widened options).withDirs widened).dirs = widened := rfl
  simp only [prepare_eq, eq, dirs, shape]
  rfl

/-- Two preparations that are the same but for the names of directories. -/
structure IsPreparedAlike (prepared prepared' : Prepared) : Prop where
  dirs : RespelledAll SameFolder prepared.project.dirs prepared'.project.dirs
  project : prepared'.project = prepared.project.withDirs prepared'.project.dirs
  installDir : prepared.installDir.map LogicalPath.components =
    prepared'.installDir.map LogicalPath.components
  ids : prepared'.ids = prepared.ids

/-- Apart from the names of directories, projects are prepared in the same way. -/
theorem isPreparedAlike (respelled : RespelledAll Respells project.dirs dirs') (options : Options) :
    IsPreparedAlike (project.prepare options) ((project.withDirs dirs').prepare options) := by
  obtain ⟨widened, eq, respelled⟩ := exists_widened_respelled options
    (fun _ _ respells => respells.widen) (fun _ => ⟨rfl, fun _ _ _ => rfl⟩) respelled
  obtain ⟨shaped, installDir⟩ := respelled.shape options.installDirDefaultId
  obtain ⟨same, ids⟩ := shaped.withIds {}
  have dirs : ((project.withSomeDir.widened options).withDirs widened).dirs = widened := rfl
  simp only [prepare_eq, eq, dirs]
  exact ⟨same, rfl, installDir, ids⟩

end Project

end Installer
