import Installer.Proofs.Folder.Widening
import Installer.Proofs.Ident.Given

/-! # Legal identifiers

An identifier that is made of a path has none but legal characters, and the first of them is a digit
only in texts that are mended.  A full stop in front is not mended, so that hidden files, whose
names begin with one, get identifiers that are not legal, and all other names get legal ones
(`isLegal_identifier_iff`).  Numbers behind an identifier do not matter.
-/

namespace Installer

open LogicalPath

namespace Text

/-- What a text begins with is not touched by a replacement that neither looks for it in front nor
puts it there. -/
theorem head?_replace {pattern sub : List Char} {c : Char} (nonempty : pattern ≠ [])
    (put : sub ≠ [])
    (sought : pattern.head? ≠ some c) (given : sub.head? ≠ some c) (text : List Char) :
    (replace pattern sub text).head? = some c ↔ text.head? = some c := by
  cases text with
  | nil => exact .rfl
  | cons d rest =>
    cases found : pattern.isPrefixOf (d :: rest) with
    | false => rw [replace_cons found, List.head?_cons, List.head?_cons]
    | true =>
      obtain ⟨after, split⟩ := List.isPrefixOf_iff_prefix.mp found
      have before : (d :: rest).head? = pattern.head? := by
        rw [← split, List.head?_append_of_ne_nil _ nonempty]
      rw [before, ← split, replace_append nonempty, List.head?_append_of_ne_nil _ put]
      exact iff_of_false given sought

end Text

namespace Folder

/-! ## Characters -/

def IsPlain (text : String) : Prop :=
  ∀ c ∈ text.toList, isIdChar c = true

instance {text : String} : Decidable (IsPlain text) :=
  decidable_of_iff (text.toList.all isIdChar = true) List.all_eq_true

theorem isPlain_append {front back : String} :
    IsPlain (front ++ back) ↔ IsPlain front ∧ IsPlain back := by
  rw [IsPlain, String.toList_append, List.forall_mem_append]
  rfl

theorem isPlain_toString (n : Nat) : IsPlain (toString n) := by
  intro c inside
  have digits : (toString n).toList = Nat.toDigits 10 n := Nat.toList_repr
  rw [digits] at inside
  have digit : c.isDigit = true := Nat.isDigit_of_mem_toDigits (by decide) (by decide) inside
  simp [isIdChar, Char.isAlphanum, digit]

theorem isPlain_numbered {text : String} (plain : IsPlain text) (n : Nat) :
    IsPlain (IdPool.numbered text n) :=
  isPlain_append.mpr ⟨isPlain_append.mpr ⟨plain, by decide⟩, isPlain_toString n⟩

theorem isPlain_sanitize (text : String) : IsPlain (sanitize text) := by
  intro c inside
  rw [sanitize, String.toList_ofList] at inside
  obtain ⟨d, -, rfl⟩ := List.mem_map.mp inside
  split
  next plain => exact plain
  next => rfl

theorem isPlain_intercalate {parts : List String} (plain : ∀ part ∈ parts, IsPlain part) :
    IsPlain (".".intercalate parts) := by
  induction parts with
  | nil => exact nofun
  | cons first rest ih =>
    rw [List.forall_mem_cons] at plain
    cases rest with
    | nil => simpa using plain.1
    | cons second others =>
      rw [String.intercalate_cons_cons, isPlain_append, isPlain_append]
      exact ⟨⟨plain.1, by decide⟩, ih plain.2⟩

theorem isPlain_withLegalStart {text : String} (plain : IsPlain text) :
    IsPlain (withLegalStart text) := by
  rw [withLegalStart]
  split
  next => decide
  next =>
    split
    next => exact isPlain_append.mpr ⟨by decide, plain⟩
    next => exact plain

theorem isPlain_identifier (path : String) : IsPlain (identifier path) := by
  rw [identifier_eq]
  refine isPlain_withLegalStart (isPlain_intercalate (List.forall_mem_map.mpr fun name _ => ?_))
  exact isPlain_sanitize _

/-! ## Legal ids -/

/-- The id has none but the characters of identifiers, and a letter or an underscore comes first. -/
structure IsLegal (id : String) : Prop where
  first : ∃ c ∈ id.toList.head?, c.isAlpha = true ∨ c = '_'
  plain : IsPlain id

instance {id : String} : Decidable (IsLegal id) :=
  decidable_of_iff (id.toList.head?.any (fun c => c.isAlpha || c == '_') = true ∧ IsPlain id) <| by
    simp only [Option.any_eq_true, Bool.or_eq_true, beq_iff_eq]
    exact ⟨fun holds => ⟨holds.1, holds.2⟩, fun legal => ⟨legal.first, legal.plain⟩⟩

/-- What stands behind a legal id needs no letter in front. -/
theorem IsLegal.append {id text : String} (legal : IsLegal id) (plain : IsPlain text) :
    IsLegal (id ++ text) := by
  obtain ⟨c, first, letter⟩ := legal.first
  refine ⟨⟨c, ?_, letter⟩, isPlain_append.mpr ⟨legal.plain, plain⟩⟩
  rw [String.toList_append, List.head?_append, Option.mem_def.mp first]
  rfl

theorem isLegal_numbered_iff {id : String} (n : Nat) :
    IsLegal (IdPool.numbered id n) ↔ IsLegal id := by
  constructor
  · intro legal
    obtain ⟨c, first, letter⟩ := legal.first
    have plain := isPlain_append.mp (isPlain_append.mp legal.plain).1
    refine ⟨⟨c, ?_, letter⟩, plain.1⟩
    rw [IdPool.numbered, String.append_assoc, String.toList_append, List.head?_append] at first
    cases own : id.toList.head? with
    | some d => rwa [own] at first
    | none =>
      -- the id would begin with the full stop before the number
      rw [own] at first
      obtain rfl : '.' = c := by simpa using first
      exact absurd letter (by decide)
  · intro legal
    exact (legal.append (by decide : IsPlain ".")).append (isPlain_toString n)

theorem IsFolderId.isLegal {id : String} (isId : IsFolderId id) : IsLegal id := by
  have plain : IsPlain id := fun c inside => (plain_of_isAlphanum (isId.isAlphanum c inside)).2.1
  obtain ⟨entry, mem, rfl⟩ := List.mem_map.mp isId
  obtain ⟨c, first, letter⟩ := (forall_tokens entry mem).2.2.2.2
  have alphanum : c.isAlphanum = true := isId.isAlphanum c (List.mem_of_mem_head? first)
  rw [Char.isAlphanum, letter, Bool.or_false] at alphanum
  exact ⟨⟨c, first, .inl alphanum⟩, plain⟩

/-! ## Identifiers of paths -/

/-- The first name of the path begins with a full stop, like that of a hidden file. -/
def IsHidden (path : String) : Prop :=
  ∃ name ∈ (components path).head?, name.toList.head? = some '.'

instance {path : String} : Decidable (IsHidden path) :=
  inferInstanceAs (Decidable (∃ name ∈ (components path).head?, name.toList.head? = some '.'))

theorem head?_replaceEach {replacements : List (String × String)} {c : Char}
    (apart : ∀ entry ∈ replacements, (entry.1.toList ≠ [] ∧ entry.1.toList.head? ≠ some c) ∧
      entry.2.toList ≠ [] ∧ entry.2.toList.head? ≠ some c) (text : String) :
    (replaceEach replacements text).toList.head? = some c ↔ text.toList.head? = some c := by
  induction replacements generalizing text with
  | nil => rw [replaceEach_nil]
  | cons entry rest ih =>
    rw [List.forall_mem_cons] at apart
    obtain ⟨⟨⟨nonempty, sought⟩, put, given⟩, others⟩ := apart
    rw [replaceEach_cons, ih others, String.toList_ofList,
      Text.head?_replace nonempty put sought given]

theorem head?_expandTokens (name : String) :
    (expandTokens name).toList.head? = some '.' ↔ name.toList.head? = some '.' := by
  refine head?_replaceEach (fun entry mem => ?_) name
  obtain ⟨shape, -, -, word, c, first, -⟩ := forall_tokens entry mem
  refine ⟨⟨by rw [shape]; simp, by rw [shape]; simp⟩, fun empty => by simp [empty] at first, ?_⟩
  exact fun stop => (plain_of_isAlphanum (word _ (List.mem_of_mem_head? stop))).2.2.2.1 rfl

/-- No special folder is spelled with a full stop. -/
theorem specialId?_eq_none_of_stop {name : String} (stop : '.' ∈ name.toList) :
    specialId? name = none := by
  cases special : specialId? name with
  | none => rfl
  | some id =>
    obtain ⟨isId, byToken | ⟨-, byId⟩⟩ := specialId?_eq_some special
    · obtain ⟨front, back, split, -⟩ := List.lookup_eq_some_iff.mp byToken
      have mem : (name, id) ∈ tokens := by simp [split]
      obtain ⟨shape, -, plain, -⟩ := forall_tokens _ mem
      rw [shape] at stop
      simp only [List.mem_cons, List.mem_append, List.not_mem_nil, or_false] at stop
      rcases stop with absurd_ | inside | absurd_
      · exact absurd absurd_ (by decide)
      · exact absurd rfl (plain_of_isAlphanum (plain _ inside)).2.2.2.1
      · exact absurd absurd_ (by decide)
    · rcases mem_unbracketed_or stop with bare | bracket | bracket
      · rw [← byId] at bare
        exact absurd bare isId.dot_notMem
      · exact absurd bracket (by decide)
      · exact absurd bracket (by decide)

theorem head?_sanitize (text : String) :
    (sanitize text).toList.head? = some '.' ↔ text.toList.head? = some '.' := by
  rw [sanitize, String.toList_ofList, List.head?_map]
  cases text.toList.head? with
  | none => exact .rfl
  | some c =>
    rw [Option.map_some, Option.some.injEq, Option.some.injEq]
    split
    next => exact .rfl
    next other => exact iff_of_false (by decide) fun same => other (same ▸ by decide)

/-- A name contributes a full stop in front just if it has one there. -/
theorem head?_piece (name : String) :
    (piece name).toList.head? = some '.' ↔ name.toList.head? = some '.' := by
  rw [piece, head?_sanitize, ← head?_expandTokens name]
  generalize expandTokens name = text
  cases special : specialId? text with
  | none => rw [Option.getD_none]
  | some id =>
    have isId := (specialId?_eq_some special).1
    rw [Option.getD_some]
    refine iff_of_false (fun stop => ?_) fun stop => ?_
    · exact isId.dot_notMem (List.mem_of_mem_head? stop)
    · rw [specialId?_eq_none_of_stop (List.mem_of_mem_head? stop)] at special
      cases special

theorem piece_ne_empty {name : String} (isName : IsName name) : (piece name).toList ≠ [] := by
  intro empty
  have bare : ((specialId? (expandTokens name)).getD (expandTokens name)).toList = [] := by
    rw [piece, sanitize, String.toList_ofList] at empty
    exact List.map_eq_nil_iff.mp empty
  cases special : specialId? (expandTokens name) with
  | none =>
    rw [special, Option.getD_none, String.toList_eq_nil_iff, expandTokens,
      replaceEach_eq_empty areInner_tokens, ← String.toList_eq_nil_iff] at bare
    exact isName.nonempty bare
  | some id =>
    rw [special, Option.getD_some] at bare
    obtain ⟨c, first, -⟩ := (specialId?_eq_some special).1.isLegal.first
    simp [bare] at first

theorem head?_intercalate {first : String} (rest : List String) (nonempty : first.toList ≠ []) :
    (".".intercalate (first :: rest)).toList.head? = first.toList.head? := by
  cases rest with
  | nil => rw [String.intercalate_singleton]
  | cons second others =>
    rw [String.intercalate_cons_cons, String.append_assoc, String.toList_append,
      List.head?_append_of_ne_nil _ nonempty]

/-- A text is not mended just if it begins with a full stop. -/
theorem isLegal_withLegalStart_iff {text : String} (plain : IsPlain text) :
    IsLegal (withLegalStart text) ↔ text.toList.head? ≠ some '.' := by
  cases chars : text.toList with
  | nil =>
    have mended : withLegalStart text = "_" := by rw [withLegalStart, chars]
    rw [mended]
    decide
  | cons c rest =>
    have kept : isIdChar c = true := plain c (by simp [chars])
    have whole : IsPlain (withLegalStart text) := isPlain_withLegalStart plain
    by_cases digit : c.isDigit = true
    · have mended : withLegalStart text = "_" ++ text := by rw [withLegalStart, chars]; simp [digit]
      rw [mended] at whole ⊢
      refine iff_of_true ⟨⟨'_', by simp, .inr rfl⟩, whole⟩ ?_
      rw [List.head?_cons, ne_eq, Option.some.injEq]
      rintro rfl
      exact absurd digit (by decide)
    · have unchanged : withLegalStart text = text := by rw [withLegalStart, chars]; simp [digit]
      rw [unchanged, List.head?_cons, ne_eq, Option.some.injEq]
      constructor
      · rintro legal rfl
        obtain ⟨d, first, letter⟩ := legal.first
        rw [chars, List.head?_cons, Option.mem_some_iff] at first
        exact absurd (first ▸ letter) (by decide)
      · intro notStop
        refine ⟨⟨c, by simp [chars], ?_⟩, plain⟩
        simpa [isIdChar, Char.isAlphanum, digit, notStop] using kept

theorem isLegal_identifier_iff {path : String} : IsLegal (identifier path) ↔ ¬ IsHidden path := by
  have plain : IsPlain (".".intercalate ((components path).map piece)) :=
    isPlain_intercalate (List.forall_mem_map.mpr fun name _ => isPlain_sanitize _)
  rw [identifier_eq, isLegal_withLegalStart_iff plain, IsHidden]
  cases names : components path with
  | nil => simp
  | cons first rest =>
    have isName : IsName first := isName_of_mem_components (names ▸ List.mem_cons_self ..)
    rw [List.map_cons, head?_intercalate _ (piece_ne_empty isName), ne_eq, head?_piece]
    simp

/-- A part of a path begins like the path. -/
theorem isHidden_take {path : String} {m : Nat} (positive : 0 < m) :
    IsHidden (ofComponents ((components path).take m)) ↔ IsHidden path := by
  rw [IsHidden, IsHidden, components_ofComponents_take, List.head?_take, if_neg (by omega)]

end Folder

/-! ## Ids of entities -/

theorem forall_mem_of_forall₂ {α β : Type} {R : α → β → Prop} {p : β → Prop} {xs : List α}
    {ys : List β} (related : List.Forall₂ R xs ys) (each : ∀ x ∈ xs, ∀ y, R x y → p y) :
    ∀ y ∈ ys, p y := by
  induction related with
  | nil => exact nofun
  | cons first _ ih =>
    rw [List.forall_mem_cons] at each
    exact List.forall_mem_cons.mpr ⟨each.1 _ first, ih each.2⟩

/-- If no id is declared, an entity with a legal id is one whose name is not hidden. -/
theorem Naming.Takes.isLegal_iff {naming : Naming} {id : String} (takes : naming.Takes id)
    (undeclared : naming.declared = none) :
    Folder.IsLegal id ↔ ¬ Folder.IsHidden naming.name := by
  rw [Takes, undeclared] at takes
  rcases takes with rfl | ⟨n, -, rfl⟩
  · exact Folder.isLegal_identifier_iff
  · rw [Folder.isLegal_numbered_iff, Folder.isLegal_identifier_iff]

theorem Naming.Takes.isPlain {naming : Naming} {id : String} (takes : naming.Takes id)
    (undeclared : naming.declared = none) : Folder.IsPlain id := by
  rw [Takes, undeclared] at takes
  have own := Folder.isPlain_identifier naming.name
  rcases takes with rfl | ⟨n, -, rfl⟩
  · exact own
  · exact Folder.isPlain_numbered own n

theorem Naming.forall_isPlain {namings : List Naming} {ids : List String}
    (takes : List.Forall₂ Naming.Takes namings ids)
    (undeclared : ∀ naming ∈ namings, naming.declared = none) : ∀ id ∈ ids, Folder.IsPlain id :=
  forall_mem_of_forall₂ takes fun naming mem _ taken => taken.isPlain (undeclared naming mem)

theorem Naming.forall_isLegal_iff {namings : List Naming} {ids : List String}
    (takes : List.Forall₂ Naming.Takes namings ids)
    (undeclared : ∀ naming ∈ namings, naming.declared = none) :
    (∀ id ∈ ids, Folder.IsLegal id) ↔ ∀ naming ∈ namings, ¬ Folder.IsHidden naming.name := by
  induction takes with
  | nil => simp
  | cons first _ ih =>
    rw [List.forall_mem_cons] at undeclared
    rw [List.forall_mem_cons, List.forall_mem_cons, first.isLegal_iff undeclared.1,
      ih undeclared.2]

end Installer
