import Installer.Proofs.Folder.Legal

/-! # Identifiers of identifiers

The identifier of a name has letters, digits, underscores and full stops only, and no digit in
front.  A text like this is its own identifier: it has neither tokens nor separators, and nothing in
it is replaced.  So it does not matter how often identifiers are made of one another
(`retracts_identifier`).
-/

namespace Installer.Folder

open LogicalPath

/-- The text has at least one character, none but letters and digits, underscores and full stops,
and does not begin with a digit. -/
structure IsIdentifier (text : String) : Prop where
  nonempty : text ≠ ""
  chars : ∀ c ∈ text.toList, c.isAlphanum = true ∨ c = '_' ∨ c = '.'
  start : ∀ c ∈ text.toList.head?, c.isDigit = false

variable {text : String}

theorem isPlain_iff :
    IsPlain text ↔ ∀ c ∈ text.toList, c.isAlphanum = true ∨ c = '_' ∨ c = '.' := by
  simp [IsPlain, isIdChar, or_assoc]

/-! ## What an identifier looks like -/

/-- Texts that are not mended. -/
theorem withLegalStart_eq_self_iff :
    withLegalStart text = text ↔ text ≠ "" ∧ ∀ c ∈ text.toList.head?, c.isDigit = false := by
  rw [withLegalStart]
  split
  next chars => simp [String.toList_eq_nil_iff.mp chars]
  next c rest chars =>
    have nonempty : text ≠ "" := by
      rintro rfl
      cases chars
    cases digit : c.isDigit with
    | true =>
      have longer : "_" ++ text ≠ text := fun same => by
        simpa using congrArg String.length same
      simp [chars, digit, longer]
    | false => simp [chars, digit, nonempty]

theorem isIdentifier_iff : IsIdentifier text ↔ withLegalStart text = text ∧ IsPlain text := by
  rw [withLegalStart_eq_self_iff, isPlain_iff]
  exact ⟨fun made => ⟨⟨made.nonempty, made.start⟩, made.chars⟩,
    fun ⟨⟨nonempty, start⟩, chars⟩ => ⟨nonempty, chars, start⟩⟩

instance : Decidable (IsIdentifier text) :=
  decidable_of_iff _ isIdentifier_iff.symm

theorem withLegalStart_withLegalStart (text : String) :
    withLegalStart (withLegalStart text) = withLegalStart text := by
  have under : '_'.isDigit = false := by decide
  rw [withLegalStart_eq_self_iff, withLegalStart]
  split
  next => simp [under]
  next c rest chars =>
    have nonempty : text ≠ "" := by
      rintro rfl
      cases chars
    cases digit : c.isDigit with
    | true => simp [under]
    | false => simp [chars, digit, nonempty]

theorem isIdentifier_identifier (name : String) : IsIdentifier (identifier name) := by
  refine isIdentifier_iff.mpr ⟨?_, isPlain_identifier name⟩
  rw [identifier_eq, withLegalStart_withLegalStart]

/-! ## Identifiers stay -/

theorem sanitize_of_isPlain (plain : IsPlain text) : sanitize text = text := by
  have kept : text.toList.map (fun c => if isIdChar c then c else '_') =
      text.toList.map fun c => c :=
    List.map_congr_left fun c inside => by rw [if_pos (plain c inside)]
  rw [sanitize, kept, List.map_id', String.ofList_toList]

theorem notMem_of_isPlain {c : Char} (other : isIdChar c = false) (plain : IsPlain text) :
    c ∉ text.toList := fun inside => by simp [plain c inside] at other

/-- A folder that is spelled without signs and brackets is spelled by its id. -/
theorem getD_specialId? (plain : IsPlain text) : (specialId? text).getD text = text := by
  cases special : specialId? text with
  | none => rfl
  | some id =>
    rw [Option.getD_some, ← String.toList_inj]
    obtain ⟨-, byToken | ⟨-, byId⟩⟩ := specialId?_eq_some special
    · obtain ⟨front, back, split, -⟩ := List.lookup_eq_some_iff.mp byToken
      obtain ⟨name, shape, -⟩ := isToken_of_mem (show (text, id) ∈ tokens by simp [split])
      exact absurd (by simp [shape] : '%' ∈ text.toList) (notMem_of_isPlain (by decide) plain)
    · rw [byId]
      simpa using unbracketed_brackets (notMem_of_isPlain (by decide) plain)
        (notMem_of_isPlain (by decide) plain) 0 0

theorem IsIdentifier.identifier_eq (made : IsIdentifier text) : identifier text = text := by
  obtain ⟨start, plain⟩ := isIdentifier_iff.mp made
  have unreplaced : expandTokens text = text := by
    refine replaceEach_eq_self (c := '%') (fun entry mem => ?_)
      (notMem_of_isPlain (by decide) plain)
    obtain ⟨name, shape, -⟩ := isToken_of_mem mem
    simp [shape]
  have single : components text = [text] := by
    refine IsName.components_eq ⟨fun empty => made.nonempty (String.toList_eq_nil_iff.mp empty), ?_⟩
    intro c inside
    rw [← Bool.not_eq_true, isSeparator, Bool.or_eq_true, beq_iff_eq, beq_iff_eq]
    rintro (rfl | rfl)
    · exact notMem_of_isPlain (by decide) plain inside
    · exact notMem_of_isPlain (by decide) plain inside
  rw [Folder.identifier_eq, single, List.map_singleton, piece, unreplaced, getD_specialId? plain,
    sanitize_of_isPlain plain, String.intercalate_singleton, start]

theorem IsIdentifier.numbered (made : IsIdentifier text) (n : Nat) :
    IsIdentifier (IdPool.numbered text n) := by
  have nonempty : text.toList ≠ [] := fun empty => made.nonempty (String.toList_eq_nil_iff.mp empty)
  have whole : (IdPool.numbered text n).toList = text.toList ++ '.' :: (toString n).toList := by
    simp [IdPool.numbered]
  refine ⟨fun empty => ?_, isPlain_iff.mp ?_, ?_⟩
  · simp [empty] at whole
  · exact isPlain_numbered (isIdentifier_iff.mp made).2 n
  · rw [whole, List.head?_append_of_ne_nil _ nonempty]
    exact made.start

theorem IsIdentifier.claim (made : IsIdentifier text) (kind : IdKind) (pool : IdPool) :
    IsIdentifier ((IdPool.claim kind text).run pool).1 := by
  simp only [IdPool.claim, StateT.run]
  split
  next => exact made
  next => exact made.numbered _

/-- Identifiers are the texts that are identifiers of themselves, and those that a pool makes of
them are too. -/
theorem retracts_identifier :
    (∀ name, IsIdentifier (identifier name)) ∧
      (∀ text, identifier text = text ↔ IsIdentifier text) ∧
        (∀ name, identifier (identifier name) = identifier name) ∧
          ∀ (kind : IdKind) (name : String) (pool : IdPool),
            identifier ((IdPool.claim kind (identifier name)).run pool).1 =
              ((IdPool.claim kind (identifier name)).run pool).1 := by
  refine ⟨isIdentifier_identifier, fun text => ⟨fun same => ?_, IsIdentifier.identifier_eq⟩,
    fun name => (isIdentifier_identifier name).identifier_eq, fun kind name pool => ?_⟩
  · exact same ▸ isIdentifier_identifier text
  · exact ((isIdentifier_identifier name).claim kind pool).identifier_eq

end Installer.Folder
