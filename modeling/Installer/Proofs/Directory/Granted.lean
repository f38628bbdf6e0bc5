import Installer.Proofs.Directory.Shape
import Installer.Proofs.Directory.Words
import Installer.Proofs.Emit.Growth
import Installer.Proofs.Product.AttributeNames

/-! # Permissions in the tree

Permissions are granted on directories and on files.  The extension for them is noted where they are
made, and where there are none, nothing in the tree needs it.
-/

namespace Installer

open Markup (Element)
open Markup.Element
open Emit
open Ledger (admitsEntries_grows)

variable {c : Compilation}

/-- The permissions on the directory itself and on its files. -/
def DirBody.granted (body : DirBody) : List Permission :=
  body.permissions ++ body.files.flatMap File.permissions

/-! ## Where they are noted -/

theorem File.notes_emit {file : File} (granted : file.permissions ≠ []) (dirId : String) :
    Notes .util (file.emit c dirId) :=
  .later fun _ => .later fun _ => .noteUnless (by simpa using granted) (.pure _)

namespace DirBody

theorem notes_emitPermissions {body : DirBody} (granted : body.permissions ≠ []) :
    Notes .util (body.emitPermissions c) :=
  .noteUnless (by simpa using granted)
    (.mapM (Permission.within_emit admitsEntries_grows) body.permissions)

theorem notes_emitContents {body : DirBody} (granted : body.granted ≠ []) (id : String) :
    Notes .util (body.emitContents c id) := by
  have rest : ∀ folder : List Element, Notes .util (do
      let files ← body.files.mapM (File.emit c id)
      let shortcuts ← body.shortcuts.mapM (Shortcut.emit c id)
      let modules ← body.mergeModules.mapM (MergeModule.emit c)
      let permissions ← body.emitPermissions c
      return folder ++ files ++ shortcuts ++ modules ++ permissions) := by
    intro folder
    by_cases own : body.permissions = []
    · obtain ⟨file, mem, onFile⟩ : ∃ file ∈ body.files, file.permissions ≠ [] := by
        by_contra none
        push Not at none
        exact granted (by simpa [DirBody.granted, own] using none)
      have files : Notes .util (body.files.mapM (File.emit c id)) :=
        .mapM mem (File.notes_emit onFile id) (File.within_emit admitsEntries_grows id)
      exact files.first fun _ =>
        (Within.mapM (Shortcut.within_emit admitsEntries_grows id) _).bind fun _ =>
          (Within.mapM (MergeModule.within_emit admitsEntries_grows) _).bind fun _ =>
            (body.within_emitPermissions admitsEntries_grows).bind fun _ => .pure _
    · exact .later fun _ => .later fun _ => .later fun _ =>
        (notes_emitPermissions own).first fun _ => .pure _
  rw [emitContents]
  split
  next => exact .later rest
  next => exact .later rest

end DirBody

namespace Dir

theorem notes_emitBody {dir : Dir} (granted : dir.granted ≠ []) (e : Element) :
    Notes .util (dir.emitBody c e) := by
  have filled : dir.isEmpty = false := by
    by_contra empty
    simp only [Bool.not_eq_false, isEmpty, Bool.and_eq_true, List.isEmpty_iff] at empty
    exact granted (by simp [DirBody.granted, empty])
  rw [emitBody, filled, if_neg Bool.false_ne_true]
  exact (DirBody.notes_emitContents granted _).first fun _ => .pure _

mutual

theorem notes_emit : ∀ (dir : Dir) (parent : Element), readAll DirBody.granted [dir] ≠ [] →
    Notes .util (dir.emit c parent)
  | ⟨body, dirs⟩, parent, granted => by
    rw [readAll_singleton] at granted
    rw [emit]
    by_cases own : body.granted = []
    · rw [own, List.nil_append] at granted
      exact .later fun e => (notes_emitAll dirs e granted).first fun _ => .pure _
    · exact (notes_emitBody own _).first fun e =>
        (within_emitAll admitsEntries_grows dirs e).bind fun _ => .pure _

/-- The extension is noted at the first directory with a permission. -/
theorem notes_emitAll : ∀ (dirs : List Dir) (parent : Element), readAll DirBody.granted dirs ≠ [] →
    Notes .util (emitAll c dirs parent)
  | [], parent, granted => absurd rfl granted
  | dir :: rest, parent, granted => by
    rw [← List.singleton_append, readAll_append] at granted
    rw [emitAll]
    by_cases here : readAll DirBody.granted [dir] = []
    · rw [here, List.nil_append] at granted
      exact .later fun parent => notes_emitAll rest parent granted
    · exact (notes_emit dir parent here).first fun parent =>
        within_emitAll admitsEntries_grows rest parent

end

theorem notes_emitTree (granted : readAll DirBody.granted c.project.dirs ≠ []) :
    Notes .util (emitTree c) := by
  rw [emitTree]
  exact (notes_emitAll _ _ granted).first fun tree =>
    within_emitLocations admitsEntries_grows tree

end Dir

/-! ## Where there are none -/

namespace Dir

/-- Without permissions the directory holds no element that grants one. -/
theorem only_contents {dir : Dir} (none : dir.granted = []) (e : Element) :
    ∀ x ∈ dir.contents c e, Only (· ≠ "util:PermissionEx") x := by
  obtain ⟨own, onFiles⟩ := List.append_eq_nil_iff.mp none
  rw [List.flatMap_eq_nil_iff] at onFiles
  have folder : ∀ id, Only (· ≠ "util:PermissionEx") (DirBody.folderComponent c id) := by
    simp [DirBody.folderComponent]
  have module : ∀ module : MergeModule, Only (· ≠ "util:PermissionEx") (module.element c) := by
    simp [MergeModule.element]
  have file : ∀ file ∈ dir.files, ∀ id, Only (· ≠ "util:PermissionEx") (file.component c id) := by
    intro file mem id
    exact only_file c (by decide) (by simp [onFiles file mem]) id
  rw [contents]
  split
  next =>
    rw [DirBody.emptyContents, List.forall_mem_append, List.forall_mem_map]
    refine ⟨?_, fun m _ => module m⟩
    split <;> simp [folder]
  next =>
    simp only [DirBody.contents, own, List.map_nil, List.append_nil, List.forall_mem_append,
      List.forall_mem_map]
    refine ⟨⟨⟨?_, fun f mem => file f mem _⟩, fun shortcut _ => ?_⟩, fun m _ => module m⟩
    · split <;> simp [folder]
    · simp [Shortcut.component]

theorem holdsOnly_of_readAll_granted {dirs : List Dir} (none : readAll DirBody.granted dirs = []) :
    HoldsOnly c (· ≠ "util:PermissionEx") dirs := fun dir mem =>
  only_contents (List.flatMap_eq_nil_iff.mp none dir mem)

end Dir

theorem Compilation.only_tree_of_readAll_granted
    (none : Dir.readAll DirBody.granted c.project.dirs = []) :
    Only (· ≠ "util:PermissionEx") c.tree := by
  refine only_tree (by decide) (Dir.holdsOnly_of_readAll_granted none) fun names start feature => ?_
  exact Dir.holdsOnly_of_readAll_granted (Dir.readAll_chain (fun _ _ _ => rfl) ..)

end Installer
