import Installer.Proofs.Directory.Generated
import Installer.Proofs.Directory.Modules

/-! # The ids of merge modules

Merge modules get their ids in the one walk over all directories that gives ids to what directories
hold.  No other step of this walk touches the ids of their kind, and the kinds of everything outside
directories are left alone by the whole preparation.
-/

namespace Installer

open IdPool

/-! ## The walk over the directories -/

def MergeModule.naming (module : MergeModule) : Naming :=
  ⟨module.id, module.stem⟩

theorem MergeModule.serves_resolve (module : MergeModule) (pool : IdPool) :
    Serves .mergeModule [module.naming] pool (module.resolve.run pool).2
      [(module.resolve.run pool).1.finalId] := by
  rw [resolve]
  cases declared : module.id with
  | some id =>
    refine Serves.single_iff.mpr ⟨?_, ?_⟩
    · rw [give_of_declared declared, finalId]
      exact congrArg (Option.getD · _) declared
    · rw [give_of_declared declared]
      exact .refl pool
  | none =>
    refine Serves.single_iff.mpr ⟨?_, ?_⟩
    · rw [give_of_undeclared declared]
      rfl
    · rw [give_of_undeclared declared]
      exact .refl _

theorem MergeModule.serves_resolveAll (modules : List MergeModule) (pool : IdPool) :
    Serves .mergeModule (modules.map naming) pool ((modules.mapM resolve).run pool).2
      (((modules.mapM resolve).run pool).1.map finalId) := by
  rw [List.map_eq_flatMap, List.map_eq_flatMap]
  exact .mapM serves_resolve modules pool

theorem DirBody.serves_resolve (id : String) (body : DirBody) (pool : IdPool) :
    Serves .mergeModule (body.mergeModules.map MergeModule.naming) pool
      ((body.resolve id).run pool).2
        (((body.resolve id).run pool).1.mergeModules.map MergeModule.finalId) := by
  have files : Keeps .mergeModule (body.files.mapM File.resolve) :=
    .mapM (File.keeps_resolve (by decide) (by decide)) _
  have shortcuts : Keeps .mergeModule (body.shortcuts.mapM Shortcut.resolve) :=
    .mapM (Shortcut.keeps_resolve (by decide)) _
  have permissions : Keeps .mergeModule (body.permissions.mapM Permission.resolve) :=
    .mapM Permission.keeps_resolve _
  rw [resolve]
  exact .nothing_trans (((files _).trans (shortcuts _)).trans (permissions _))
    (MergeModule.serves_resolveAll body.mergeModules _)

namespace Dir

/-- Between two pools the merge modules of all directories got their ids and became those with a
prime. -/
def ServesModules (before after : IdPool) (dirs dirs' : List Dir) : Prop :=
  Serves .mergeModule ((modulesIn dirs).map MergeModule.naming) before after
    ((modulesIn dirs').map MergeModule.finalId)

namespace ServesModules

variable {before between after : IdPool}

theorem append {dirs₁ dirs₁' dirs₂ dirs₂' : List Dir}
    (first : ServesModules before between dirs₁ dirs₁')
    (second : ServesModules between after dirs₂ dirs₂') :
    ServesModules before after (dirs₁ ++ dirs₂) (dirs₁' ++ dirs₂') := by
  have both := Serves.append first second
  rwa [← List.map_append, ← List.map_append, modulesIn, modulesIn, modulesIn, modulesIn,
    ← readAll_append, ← readAll_append] at both

theorem of_body {body body' : DirBody} {dirs dirs' : List Dir}
    (own : Serves .mergeModule (body.mergeModules.map MergeModule.naming) before between
      (body'.mergeModules.map MergeModule.finalId))
    (below : ServesModules between after dirs dirs') :
    ServesModules before after [⟨body, dirs⟩] [⟨body', dirs'⟩] := by
  have both := own.append below
  rwa [← List.map_append, ← List.map_append, ← modulesIn_singleton, ← modulesIn_singleton] at both

end ServesModules

mutual

theorem servesModules_resolve (outerId : String) : ∀ (dir : Dir) (pool : IdPool),
    ServesModules pool ((dir.resolve outerId).run pool).2 [dir] [((dir.resolve outerId).run pool).1]
  | ⟨body, dirs⟩, pool => by
    have id : Keeps .mergeModule (body.resolveId outerId) :=
      body.keeps_resolveId (by decide) outerId
    have own := body.serves_resolve ((body.resolveId outerId).run pool).1
      ((body.resolveId outerId).run pool).2
    have below := servesModules_resolveAll ((body.resolveId outerId).run pool).1 dirs
      ((body.resolve ((body.resolveId outerId).run pool).1).run
        ((body.resolveId outerId).run pool).2).2
    rw [resolve]
    exact .of_body (.nothing_trans (id pool) own) below

/-- The merge modules of directories get their ids in the order of declaration. -/
theorem servesModules_resolveAll (outerId : String) : ∀ (dirs : List Dir) (pool : IdPool),
    ServesModules pool ((resolveAll outerId dirs).run pool).2 dirs
      ((resolveAll outerId dirs).run pool).1
  | [], pool => .nothing (.refl pool)
  | dir :: rest, pool => by
    have first := servesModules_resolve outerId dir pool
    have others := servesModules_resolveAll outerId rest ((dir.resolve outerId).run pool).2
    rw [resolveAll]
    exact first.append others

end

variable {kind : IdKind}

mutual

theorem keeps_resolve (apart : kind ∉ [IdKind.directory, .file, .shortcut, .mergeModule]) :
    ∀ (dir : Dir) (outerId : String), Keeps kind (dir.resolve outerId)
  | ⟨body, dirs⟩, outerId => by
    have others : kind ∉ [IdKind.file, .shortcut, .mergeModule] :=
      fun mem => apart (List.mem_cons_of_mem _ mem)
    have directory : kind ≠ .directory := fun same => apart (by simp [same])
    rw [resolve]
    exact (body.keeps_resolveId directory outerId).bind fun id =>
      (body.keeps_resolve others id).bind fun _ =>
        (keeps_resolveAll apart dirs id).bind fun _ => .pure _

/-- Directories and what they hold leave all other kinds alone. -/
theorem keeps_resolveAll (apart : kind ∉ [IdKind.directory, .file, .shortcut, .mergeModule]) :
    ∀ (dirs : List Dir) (outerId : String), Keeps kind (resolveAll outerId dirs)
  | [], _ => .pure []
  | dir :: rest, outerId => by
    rw [resolveAll]
    exact (keeps_resolve apart dir outerId).bind fun _ =>
      (keeps_resolveAll apart rest outerId).bind fun _ => .pure _

end

/-! ## Ids in use before the walk -/

mutual

theorem kind_of_mem_declaredIds : ∀ (dir : Dir), ∀ entry ∈ declaredIds dir,
    entry.1 = .directory ∨ entry.1 = .file
  | ⟨body, dirs⟩ => by
    have below := kind_of_mem_declaredIdsIn dirs
    rw [declaredIds, List.forall_mem_append, List.forall_mem_append, List.forall_mem_map,
      List.forall_mem_map]
    exact ⟨⟨fun _ _ => .inl rfl, fun _ _ => .inr rfl⟩, below⟩

theorem kind_of_mem_declaredIdsIn : ∀ (dirs : List Dir), ∀ entry ∈ declaredIdsIn dirs,
    entry.1 = .directory ∨ entry.1 = .file
  | [] => nofun
  | dir :: rest => by
    rw [declaredIdsIn, List.forall_mem_append]
    exact ⟨kind_of_mem_declaredIds dir, kind_of_mem_declaredIdsIn rest⟩

end

theorem kind_of_mem_reservedIds {dirs : List Dir} :
    ∀ entry ∈ reservedIds dirs, entry.1 = .directory ∨ entry.1 = .file := by
  rw [reservedIds, List.forall_mem_append, List.forall_mem_flatMap]
  exact ⟨kind_of_mem_declaredIdsIn dirs, fun _ _ => List.forall_mem_map.mpr fun _ _ => .inl rfl⟩

/-- Only ids of directories and of files are in use before the walk. -/
theorem keeps_reserve (apart : kind ∉ [IdKind.directory, .file]) (dirs : List Dir) :
    Keeps kind (forIn (reservedIds dirs) PUnit.unit fun entry _ => do
      reserve entry.1 entry.2
      pure (ForInStep.yield PUnit.unit) : StateM IdPool PUnit) := by
  refine .reserveAll fun entry mem same => apart ?_
  rcases kind_of_mem_reservedIds entry mem with directory | file
  · simp [same, directory]
  · simp [same, file]

end Dir

/-! ## Prepared projects -/

namespace Project

variable (project : Project) (options : Options)

/-- What is not in directories finds no ids in use. -/
theorem agreeOn_prepare {kind : IdKind}
    (apart : kind ∉ [IdKind.directory, .file, .shortcut, .mergeModule]) :
    AgreeOn kind {} (project.prepare options).ids := by
  have others : kind ∉ [IdKind.directory, .file] := fun mem => apart (by
    simp only [List.mem_cons, List.not_mem_nil, or_false] at mem ⊢
    tauto)
  exact (Dir.keeps_reserve others _ _).trans (Dir.keeps_resolveAll apart _ _ _)

/-- The merge modules of a prepared project have the ids that an empty pool gives them. -/
theorem moduleIds_prepare :
    (Dir.modulesIn (project.prepare options).project.dirs).map MergeModule.finalId =
      idsFor .mergeModule ((Dir.modulesIn project.dirs).map MergeModule.naming) {} := by
  have content : DirBody.IsContent DirBody.mergeModules :=
    ⟨fun _ _ => rfl, fun _ _ => rfl, fun _ => rfl, fun _ => rfl⟩
  have shaped : Dir.modulesIn (Dir.shape options.installDirDefaultId
      (project.withSomeDir.widened options).dirs).1 = Dir.modulesIn project.dirs :=
    project.readAll_shaped options content
  rw [← shaped]
  exact (Serves.nothing_trans (Dir.keeps_reserve (by decide) _ {})
    (Dir.servesModules_resolveAll Dir.rootId _ _)).ids_eq

end Project

end Installer
