import Installer.Proofs.Emit.Walk

/-! # Ledgers that grow

No step of a compilation takes an extension or a packaging request back.  So it is enough to see one
step that writes it down.
-/

namespace Installer

namespace Ledger

structure Grows (before after : Ledger) : Prop where
  extensions : before.extensions ⊆ after.extensions
  packaging : before.packaging ⊆ after.packaging

instance : IsPreorder Ledger Grows where
  refl _ := ⟨List.Subset.refl _, List.Subset.refl _⟩
  trans _ _ _ first second :=
    ⟨List.Subset.trans first.extensions second.extensions,
      List.Subset.trans first.packaging second.packaging⟩

theorem Grows.of_eq {before after : Ledger} (extensions : after.extensions = before.extensions)
    (packaging : after.packaging = before.packaging) : Grows before after :=
  ⟨extensions ▸ List.Subset.refl _, packaging ▸ List.Subset.refl _⟩

theorem packaging_subset_addPackaging (ledger : Ledger) (request : PackagingRequest) :
    ledger.packaging ⊆ (ledger.addPackaging request).packaging := by
  rw [addPackaging]
  split
  next => exact List.Subset.refl _
  next => exact List.subset_append_left _ _

theorem mem_packaging_addPackaging (ledger : Ledger) (request : PackagingRequest) :
    request ∈ (ledger.addPackaging request).packaging := by
  rw [addPackaging]
  split
  next among => simpa using among
  next => exact List.mem_append_right _ (List.mem_singleton_self _)

theorem admitsEntries_grows : AdmitsEntries Grows where
  component _ _ _ := .of_eq rfl rfl
  location ledger location feature := by
    rw [addLocation]
    split <;> exact .of_eq rfl rfl
  mergeModule _ _ _ := .of_eq rfl rfl
  extension _ _ := ⟨List.subset_append_left _ _, List.Subset.refl _⟩
  packaging ledger request := by
    refine ⟨?_, packaging_subset_addPackaging ledger request⟩
    rw [addPackaging]
    split <;> exact List.Subset.refl _

theorem admitsIds_grows (kind : IdKind) : AdmitsIds Grows kind where
  claim _ _ := .of_eq rfl rfl
  reserve _ _ := .of_eq rfl rfl

end Ledger

namespace Emit

variable {α β : Type} {extension : Extension} {step : Emit α} {next : α → Emit β}

abbrev Grows (step : Emit α) : Prop :=
  Within Ledger.Grows step

/-- After the step the ledger has the extension. -/
def Notes (extension : Extension) (step : Emit α) : Prop :=
  Within (fun _ after => extension ∈ after.extensions) step

theorem notes_addExtension (extension : Extension) :
    Notes extension (note (·.addExtension extension)) :=
  .note fun _ => List.mem_append_right _ (List.mem_singleton_self _)

namespace Notes

/-- The first of two steps notes the extension. -/
theorem first (notes : Notes extension step) (rest : ∀ value, Grows (next value)) :
    Notes extension (step >>= next) := by
  intro before result after given
  obtain ⟨value, between, steps, last⟩ := gives_bind.mp given
  exact (rest value _ _ _ last).extensions (notes _ _ _ steps)

/-- The second of two steps notes the extension. -/
theorem later (notes : ∀ value, Notes extension (next value)) :
    Notes extension (step >>= next) := by
  intro before result after given
  obtain ⟨value, between, -, last⟩ := gives_bind.mp given
  exact notes value _ _ _ last

theorem mapM {make : α → Emit β} {x : α} {xs : List α} (mem : x ∈ xs)
    (notes : Notes extension (make x)) (each : ∀ x, Grows (make x)) :
    Notes extension (xs.mapM make) := by
  induction xs with
  | nil => cases mem
  | cons y rest ih =>
    rw [List.mapM_cons]
    rcases List.mem_cons.mp mem with rfl | others
    · exact notes.first fun _ => (Within.mapM each rest).bind fun _ => .pure _
    · exact .later fun _ => (ih others).first fun _ => .pure _

/-- A step before which the extension is noted. -/
theorem noteUnless {skip : Bool} (needed : skip = false) (rest : Grows step) :
    Notes extension (if skip = true then step else do
      Emit.note (·.addExtension extension)
      step) := by
  rw [needed, if_neg Bool.false_ne_true]
  exact (notes_addExtension extension).first fun _ => rest

end Notes

theorem notes_need {entities : List α} (needed : entities ≠ []) :
    Notes extension (need extension entities) := by
  rw [need]
  exact .noteUnless (by simpa using needed) (.pure _)

end Emit

open Emit
open Ledger (admitsEntries_grows admitsIds_grows)

variable {c : Compilation}

theorem Binary.grows_emit (binary : Binary) : Grows (binary.emit c) :=
  binary.within_emit admitsEntries_grows (admitsIds_grows .binary)

theorem CustomAction.grows_emitFrom (previous : Option String) (made : ActionElements)
    (actions : List CustomAction) : Grows (emitFrom c previous made actions) :=
  within_emitFrom admitsEntries_grows (admitsIds_grows .action) previous made actions

theorem Compilation.grows_emitInterface (c : Compilation) (rootId : Option String) :
    Grows (c.emitInterface rootId) :=
  c.within_emitInterface admitsEntries_grows rootId

end Installer
