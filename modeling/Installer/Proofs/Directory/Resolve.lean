import Installer.Proofs.Directory.Shape
import Installer.Proofs.Ident.Pool

/-! # Final ids

Files, shortcuts and permissions get their final ids from one pool, in one walk over all
directories.  `Resolved` says what such a walk does between two pools: files keep everything but
ids, and where no ids are declared the final ids of files and of shortcuts are handed out by the
pool and permissions are counted.
-/

namespace Installer

open IdPool

/-- What a file is apart from its id and from the ids of what it carries. -/
def File.outline (file : File) : File :=
  { file with id := none, shortcuts := [], permissions := [] }

/-- Between two pools the files, shortcuts and permissions got their final ids and became those with
a prime. -/
structure Resolved (before after : IdPool) (files files' : List File)
    (shortcuts shortcuts' : List Shortcut) (permissions permissions' : List Permission) : Prop where
  outlines : files'.map File.outline = files.map File.outline
  fileIds : (∀ file ∈ files, file.id = none) → Hands .file before after (files'.map File.finalId)
  shortcutIds : (∀ shortcut ∈ shortcuts, shortcut.id = none) →
    Hands .shortcut before after (shortcuts'.map Shortcut.finalId)
  permissionIds : (∀ permission ∈ permissions, permission.id = none) →
    Counts .permission "Permission" before after (permissions'.map Permission.finalId)

namespace Resolved

variable {before between after : IdPool} {files files' files₁ files₁' files₂ files₂' : List File}
  {shortcuts shortcuts' shortcuts₁ shortcuts₁' shortcuts₂ shortcuts₂' : List Shortcut}
  {permissions permissions' permissions₁ permissions₁' permissions₂ permissions₂' : List Permission}

theorem refl (pool : IdPool) : Resolved pool pool [] [] [] [] [] [] :=
  ⟨rfl, fun _ => .refl pool, fun _ => .refl pool, fun _ => .of_counts rfl⟩

theorem trans
    (first : Resolved before between files₁ files₁' shortcuts₁ shortcuts₁' permissions₁
      permissions₁')
    (second : Resolved between after files₂ files₂' shortcuts₂ shortcuts₂' permissions₂
      permissions₂') :
    Resolved before after (files₁ ++ files₂) (files₁' ++ files₂') (shortcuts₁ ++ shortcuts₂)
      (shortcuts₁' ++ shortcuts₂') (permissions₁ ++ permissions₂)
      (permissions₁' ++ permissions₂') where
  outlines := by rw [List.map_append, List.map_append, first.outlines, second.outlines]
  fileIds := fun none => by
    rw [List.forall_mem_append] at none
    rw [List.map_append]
    exact (first.fileIds none.1).trans (second.fileIds none.2)
  shortcutIds := fun none => by
    rw [List.forall_mem_append] at none
    rw [List.map_append]
    exact (first.shortcutIds none.1).trans (second.shortcutIds none.2)
  permissionIds := fun none => by
    rw [List.forall_mem_append] at none
    rw [List.map_append]
    exact (first.permissionIds none.1).trans (second.permissionIds none.2)

/-- A claim of a kind that is neither that of files nor that of shortcuts. -/
theorem of_claim {kind : IdKind} (file : kind ≠ .file) (shortcut : kind ≠ .shortcut)
    (name : String) (pool : IdPool) :
    Resolved pool ((claim kind name).run pool).2 [] [] [] [] [] [] where
  outlines := rfl
  fileIds := fun _ => .of_used fun id => isUsed_claim_of_ne file.symm name id pool
  shortcutIds := fun _ => .of_used fun id => isUsed_claim_of_ne shortcut.symm name id pool
  permissionIds := fun _ => .of_counts (by rw [counts_claim])

/-- A step made for each member of a list. -/
theorem mapM {α β : Type} {step : α → StateM IdPool β} (files : α → List File)
    (files' : β → List File) (shortcuts : α → List Shortcut) (shortcuts' : β → List Shortcut)
    (permissions : α → List Permission) (permissions' : β → List Permission)
    (each : ∀ (x : α) (pool : IdPool), Resolved pool ((step x).run pool).2
      (files x) (files' ((step x).run pool).1) (shortcuts x) (shortcuts' ((step x).run pool).1)
      (permissions x) (permissions' ((step x).run pool).1))
    (xs : List α) (pool : IdPool) :
    Resolved pool ((xs.mapM step).run pool).2
      (xs.flatMap files) (((xs.mapM step).run pool).1.flatMap files')
      (xs.flatMap shortcuts) (((xs.mapM step).run pool).1.flatMap shortcuts')
      (xs.flatMap permissions) (((xs.mapM step).run pool).1.flatMap permissions') := by
  induction xs generalizing pool with
  | nil => exact refl pool
  | cons x rest ih =>
    rw [List.mapM_cons]
    exact (each x pool).trans (ih _)

end Resolved

/-! ## What directories hold -/

theorem Shortcut.resolved (shortcut : Shortcut) (pool : IdPool) :
    Resolved pool (shortcut.resolve.run pool).2 [] [] [shortcut] [(shortcut.resolve.run pool).1]
      [] [] := by
  rw [resolve]
  cases declared : shortcut.id with
  | some id =>
    exact ⟨rfl, fun _ => .refl pool, fun none => by simp [declared] at none,
      fun _ => .of_counts rfl⟩
  | none =>
    have claimed := hands_claim .shortcut (Folder.identifier shortcut.name) pool
    exact ⟨rfl,
      fun _ => .of_used fun id => isUsed_claim_of_ne (by decide) _ id pool,
      fun _ => claimed,
      fun _ => .of_counts (by
        show ((claim .shortcut _).run pool).2.counts _ = _
        rw [counts_claim])⟩

theorem Permission.resolved (permission : Permission) (pool : IdPool) :
    Resolved pool (permission.resolve.run pool).2 [] [] [] []
      [permission] [(permission.resolve.run pool).1] := by
  rw [resolve]
  cases declared : permission.id with
  | some id =>
    exact ⟨rfl, fun _ => .refl pool, fun _ => .refl pool, fun none => by simp [declared] at none⟩
  | none =>
    have numbered := counts_number .permission "Permission" pool
    exact ⟨rfl, fun _ => .of_used fun id => rfl, fun _ => .of_used fun id => rfl, fun _ => numbered⟩

theorem MergeModule.resolved (module : MergeModule) (pool : IdPool) :
    Resolved pool (module.resolve.run pool).2 [] [] [] [] [] [] := by
  rw [resolve]
  cases module.id with
  | some id => exact .refl pool
  | none => exact .of_claim (by decide) (by decide) _ pool

theorem Shortcut.resolved_all (shortcuts : List Shortcut) (pool : IdPool) :
    Resolved pool ((shortcuts.mapM resolve).run pool).2 [] []
      shortcuts ((shortcuts.mapM resolve).run pool).1 [] [] := by
  have all := Resolved.mapM (fun _ => []) (fun _ => []) (fun s => [s]) (fun s => [s])
    (fun _ => []) (fun _ => []) resolved shortcuts pool
  simpa [Emit.flatMap_nothing] using all

theorem Permission.resolved_all (permissions : List Permission) (pool : IdPool) :
    Resolved pool ((permissions.mapM resolve).run pool).2 [] [] [] []
      permissions ((permissions.mapM resolve).run pool).1 := by
  have all := Resolved.mapM (fun _ => []) (fun _ => []) (fun _ => []) (fun _ => [])
    (fun p => [p]) (fun p => [p]) resolved permissions pool
  simpa [Emit.flatMap_nothing] using all

theorem MergeModule.resolved_all (modules : List MergeModule) (pool : IdPool) :
    Resolved pool ((modules.mapM resolve).run pool).2 [] [] [] [] [] [] := by
  have all := Resolved.mapM (fun _ => []) (fun _ => []) (fun _ => []) (fun _ => [])
    (fun _ => []) (fun _ => []) resolved modules pool
  simpa [Emit.flatMap_nothing] using all

theorem File.resolved (file : File) (pool : IdPool) :
    Resolved pool (file.resolve.run pool).2 [file] [(file.resolve.run pool).1]
      file.shortcuts (file.resolve.run pool).1.shortcuts
      file.permissions (file.resolve.run pool).1.permissions := by
  -- once the file's own id is settled, what it carries gets its ids
  have carried : ∀ (start : IdPool) (id : String),
      (∀ shortcuts permissions, Resolved pool start [file]
        [{ file with id := some id, shortcuts, permissions }] [] [] [] []) →
      Resolved pool ((file.permissions.mapM Permission.resolve).run
          ((file.shortcuts.mapM Shortcut.resolve).run start).2).2
        [file]
        [{ file with
            id := some id
            shortcuts := ((file.shortcuts.mapM Shortcut.resolve).run start).1
            permissions := ((file.permissions.mapM Permission.resolve).run
              ((file.shortcuts.mapM Shortcut.resolve).run start).2).1 }]
        file.shortcuts ((file.shortcuts.mapM Shortcut.resolve).run start).1
        file.permissions ((file.permissions.mapM Permission.resolve).run
          ((file.shortcuts.mapM Shortcut.resolve).run start).2).1 := fun start id first => by
    have shortcuts := Shortcut.resolved_all file.shortcuts start
    have permissions := Permission.resolved_all file.permissions
      ((file.shortcuts.mapM Shortcut.resolve).run start).2
    simpa using ((first _ _).trans shortcuts).trans permissions
  cases declared : file.id with
  | some id =>
    have run := carried pool id fun _ _ => ⟨rfl, fun none => by simp [declared] at none,
      fun _ => .refl pool, fun _ => .of_counts rfl⟩
    simp only [resolve, declared]
    exact run
  | none =>
    have claimed := hands_claim .file (Folder.identifier file.fileName) pool
    have run := carried _ _ fun _ _ => ⟨rfl, fun _ => claimed,
      fun _ => .of_used fun id => isUsed_claim_of_ne (by decide) _ id pool,
      fun _ => .of_counts (by rw [counts_claim])⟩
    simp only [resolve, declared]
    exact run

def DirBody.allShortcuts (body : DirBody) : List Shortcut :=
  body.files.flatMap File.shortcuts ++ body.shortcuts

def DirBody.allPermissions (body : DirBody) : List Permission :=
  body.files.flatMap File.permissions ++ body.permissions

theorem DirBody.resolved (id : String) (body : DirBody) (pool : IdPool) :
    Resolved pool ((body.resolve id).run pool).2 body.files ((body.resolve id).run pool).1.files
      body.allShortcuts ((body.resolve id).run pool).1.allShortcuts
      body.allPermissions ((body.resolve id).run pool).1.allPermissions := by
  have files := Resolved.mapM (fun f => [f]) (fun f => [f]) File.shortcuts File.shortcuts
    File.permissions File.permissions File.resolved body.files pool
  have shortcuts := Shortcut.resolved_all body.shortcuts ((body.files.mapM File.resolve).run pool).2
  have permissions := Permission.resolved_all body.permissions
    ((body.shortcuts.mapM Shortcut.resolve).run ((body.files.mapM File.resolve).run pool).2).2
  have modules := MergeModule.resolved_all body.mergeModules
    ((body.permissions.mapM Permission.resolve).run
      ((body.shortcuts.mapM Shortcut.resolve).run ((body.files.mapM File.resolve).run pool).2).2).2
  have all := ((files.trans shortcuts).trans permissions).trans modules
  simp only [List.flatMap_singleton', List.append_nil] at all
  exact all

/-! ## All directories -/

theorem DirBody.resolved_id (parentId : String) (body : DirBody) (pool : IdPool) :
    Resolved pool ((body.resolveId parentId).run pool).2 [] [] [] [] [] [] := by
  rw [resolveId]
  split
  next => exact .refl pool
  next => exact .refl pool
  next => exact .of_claim (by decide) (by decide) _ pool

namespace Dir

def AllResolved (before after : IdPool) (dirs dirs' : List Dir) : Prop :=
  Resolved before after (readAll DirBody.files dirs) (readAll DirBody.files dirs')
    (readAll DirBody.allShortcuts dirs) (readAll DirBody.allShortcuts dirs')
    (readAll DirBody.allPermissions dirs) (readAll DirBody.allPermissions dirs')

theorem AllResolved.append {before between after : IdPool} {dirs₁ dirs₁' dirs₂ dirs₂' : List Dir}
    (first : AllResolved before between dirs₁ dirs₁')
    (second : AllResolved between after dirs₂ dirs₂') :
    AllResolved before after (dirs₁ ++ dirs₂) (dirs₁' ++ dirs₂') := by
  have both := Resolved.trans first second
  simpa only [AllResolved, readAll_append] using both

theorem AllResolved.of_body {before between after : IdPool} {body body' : DirBody}
    {dirs dirs' : List Dir}
    (own : Resolved before between body.files body'.files body.allShortcuts body'.allShortcuts
      body.allPermissions body'.allPermissions)
    (below : AllResolved between after dirs dirs') :
    AllResolved before after [⟨body, dirs⟩] [⟨body', dirs'⟩] := by
  have both := own.trans below
  simpa only [AllResolved, readAll_singleton] using both

mutual

theorem allResolved_resolve (parentId : String) :
    ∀ (dir : Dir) (pool : IdPool), AllResolved pool ((dir.resolve parentId).run pool).2
      [dir] [((dir.resolve parentId).run pool).1]
  | ⟨body, dirs⟩, pool => by
    rw [resolve]
    have id := body.resolved_id parentId pool
    have own := body.resolved ((body.resolveId parentId).run pool).1
      ((body.resolveId parentId).run pool).2
    have below := allResolved_resolveAll ((body.resolveId parentId).run pool).1 dirs
      ((body.resolve ((body.resolveId parentId).run pool).1).run
        ((body.resolveId parentId).run pool).2).2
    exact AllResolved.of_body (id.trans own) below

theorem allResolved_resolveAll (parentId : String) :
    ∀ (dirs : List Dir) (pool : IdPool), AllResolved pool ((resolveAll parentId dirs).run pool).2
      dirs ((resolveAll parentId dirs).run pool).1
  | [], pool => .refl pool
  | dir :: rest, pool => by
    rw [resolveAll]
    have first := allResolved_resolve parentId dir pool
    have others := allResolved_resolveAll parentId rest ((dir.resolve parentId).run pool).2
    exact first.append others

end

end Dir

/-! ## Prepared projects -/

namespace Project

variable (project : Project) (options : Options)

/-- The directories of a prepared project are those of the shaped one with final ids. -/
theorem allResolved_prepare : ∃ before after, Dir.AllResolved before after
    (Dir.shape options.installDirDefaultId (project.withSomeDir.widened options).dirs).1
    (project.prepare options).project.dirs :=
  ⟨_, _, Dir.allResolved_resolveAll _ _ _⟩

/-- What directories hold is the same in the shaped project. -/
theorem readAll_shaped {α : Type} {read : DirBody → List α} (content : DirBody.IsContent read) :
    Dir.readAll read
        (Dir.shape options.installDirDefaultId (project.withSomeDir.widened options).dirs).1 =
      Dir.readAll read project.dirs :=
  (Dir.readAll_shape content.name content.nothing content.id _ _).trans
    (project.readAll_widened content.widen content.nothing options)

/-- The files of a prepared project are the declared ones, in the order of declaration. -/
theorem outlines_prepare :
    (Dir.allFiles (project.prepare options).project.dirs).map File.outline =
      (Dir.allFiles project.dirs).map File.outline := by
  have content : DirBody.IsContent fun body => body.files.map File.outline :=
    ⟨fun _ _ => rfl, fun _ _ => rfl, fun body => by simp [DirBody.widen, File.outline],
      fun _ => rfl⟩
  have outlines : ∀ dirs, (Dir.readAll DirBody.files dirs).map File.outline =
      Dir.readAll (fun body => body.files.map File.outline) dirs := fun dirs =>
    List.map_flatMap
  obtain ⟨before, after, resolved⟩ := project.allResolved_prepare options
  have shaped := project.readAll_shaped options content
  rw [← outlines, ← outlines] at shaped
  exact resolved.outlines.trans shaped

end Project

end Installer
