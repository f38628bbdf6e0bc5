import Installer.Proofs.Folder.Identifier

/-! # Spellings that stay narrow

`Folder.widen` looks for a bare id as a whole text and for all other spellings anywhere in it, while
a name is recognised by itself, with whatever brackets there are around it.  So the id of a 32-bit
folder as one name among several is not replaced, nor is it with brackets on one side only
(`IsUnpaired`).  These are all the names that still lead to a 32-bit folder
(`specialId?_replaceEach_iff`, `identifier_widen_iff`): what is put in has digits, and no id of
another folder is part of a spelling of a 32-bit one.
-/

namespace Installer.Folder

open LogicalPath

/-! ## Replacing -/

variable {replacements : List (String × String)} {text : String}

theorem replaceEach_nil (text : String) : replaceEach [] text = text := by
  simp [replaceEach]

theorem replaceEach_cons (entry : String × String) (rest : List (String × String))
    (text : String) : replaceEach (entry :: rest) text =
      replaceEach rest
        (String.ofList (Text.replace entry.1.toList entry.2.toList text.toList)) := by
  simp [replaceEach]

theorem replaceEach_of_not_isInfix
    (absent : ∀ entry ∈ replacements, ¬ entry.1.toList <:+: text.toList) :
    replaceEach replacements text = text := by
  induction replacements with
  | nil => exact replaceEach_nil text
  | cons entry rest ih =>
    rw [List.forall_mem_cons] at absent
    rw [replaceEach_cons, Text.replace_of_not_isInfix absent.1, String.ofList_toList, ih absent.2]

/-- A character that no replacement takes away stays in a text. -/
theorem mem_replaceEach {c : Char}
    (kept : ∀ entry ∈ replacements, entry.1.toList ≠ [] ∧ (c ∈ entry.1.toList → c ∈ entry.2.toList))
    (mem : c ∈ text.toList) : c ∈ (replaceEach replacements text).toList := by
  induction replacements generalizing text with
  | nil => rwa [replaceEach_nil]
  | cons entry rest ih =>
    rw [List.forall_mem_cons] at kept
    rw [replaceEach_cons]
    refine ih kept.2 ?_
    rw [String.toList_ofList]
    exact Text.mem_replace kept.1.1 kept.1.2 mem

/-- Where all replacements put in a character that a text has not afterwards, none found anything.
-/
theorem not_infix_of_notMem_replaceEach {c : Char}
    (put : ∀ entry ∈ replacements, entry.1.toList ≠ [] ∧ c ∈ entry.2.toList)
    (absent : c ∉ (replaceEach replacements text).toList) :
    ∀ entry ∈ replacements, ¬ entry.1.toList <:+: text.toList := by
  induction replacements generalizing text with
  | nil => simp
  | cons entry rest ih =>
    rw [List.forall_mem_cons] at put
    rw [replaceEach_cons] at absent
    have missing : ¬ entry.1.toList <:+: text.toList := fun found => by
      refine absent (mem_replaceEach (fun other mem => ?_) ?_)
      · exact ⟨(put.2 other mem).1, fun _ => (put.2 other mem).2⟩
      · rw [String.toList_ofList]
        exact (Text.infix_replace put.1.1 found).subset put.1.2
    rw [Text.replace_of_not_isInfix missing, String.ofList_toList] at absent
    exact List.forall_mem_cons.mpr ⟨missing, ih put.2 absent⟩

/-! ## Narrow folders -/

/-- The text is the id of a folder that has a 64-bit counterpart. -/
def IsNarrow (id : String) : Prop :=
  id ∈ wideIds.map Prod.fst

instance (id : String) : Decidable (IsNarrow id) :=
  inferInstanceAs (Decidable (id ∈ wideIds.map Prod.fst))

/-- A narrow id is replaced in two brackets, and has nothing in common with what is put in. -/
theorem forall_narrow : ∀ id, IsNarrow id → IsFolderId id ∧
    "[" ++ id ++ "]" ∈ wideSpellings.map Prod.fst ∧ '6' ∉ id.toList := by
  have checked : ∀ id ∈ wideIds.map Prod.fst, IsFolderId id ∧
      "[" ++ id ++ "]" ∈ wideSpellings.map Prod.fst ∧ '6' ∉ id.toList := by
    decide +kernel
  exact checked

/-- Every spelling that is replaced has a sign that no bare id has, and what is put in has a digit.
-/
theorem forall_wideSpellings : ∀ entry ∈ wideSpellings,
    ('%' ∈ entry.1.toList ∨ '[' ∈ entry.1.toList ∧ ']' ∈ entry.1.toList) ∧
      '6' ∈ entry.2.toList := by
  decide +kernel

theorem areInner_wideSpellings : AreInner wideSpellings := by
  have checked : ∀ entry ∈ wideSpellings, entry.1.toList ≠ [] ∧ entry.2.toList ≠ [] ∧
      entry.1.toList.any isSeparator = false ∧ entry.2.toList.any isSeparator = false := by
    decide +kernel
  intro entry mem
  obtain ⟨spelling, wide, plain, plainWide⟩ := checked entry mem
  exact ⟨spelling, wide, by simpa using plain, by simpa using plainWide⟩

/-- The tokens of narrow folders are replaced, and other tokens keep the digit. -/
theorem forall_narrow_tokens : ∀ entry ∈ tokens,
    (IsNarrow entry.2 → entry.1 ∈ wideSpellings.map Prod.fst ∧ '6' ∉ entry.1.toList) ∧
      ('6' ∈ entry.1.toList → '6' ∈ entry.2.toList) := by
  decide +kernel

/-- No spelling of a narrow folder has the id of another folder in it. -/
theorem not_infix_narrow : ∀ entry ∈ tokens, ¬ IsNarrow entry.2 →
    (∀ id ∈ wideIds.map Prod.fst, ¬ entry.2.toList <:+: id.toList) ∧
      ∀ other ∈ tokens, IsNarrow other.2 → ¬ entry.2.toList <:+: other.1.toList := by
  decide +kernel

/-! ## Brackets -/

/-- The name is the id with brackets on one side of it at most. -/
def IsUnpaired (id name : String) : Prop :=
  ∃ opening closing, name.toList =
    List.replicate opening '[' ++ id.toList ++ List.replicate closing ']' ∧
      (opening = 0 ∨ closing = 0)

/-! ## Names of narrow folders -/

variable {id name : String}

/-- A name of a narrow folder is a token, or its id in brackets. -/
theorem exists_spelling (special : specialId? name = some id) : (name, id) ∈ tokens ∨
    ∃ opening closing, name.toList =
      List.replicate opening '[' ++ id.toList ++ List.replicate closing ']' := by
  obtain ⟨-, byToken | ⟨-, byId⟩⟩ := specialId?_eq_some special
  · obtain ⟨front, back, split, -⟩ := List.lookup_eq_some_iff.mp byToken
    exact .inl (by simp [split])
  · obtain ⟨opening, closing, bracketed⟩ := exists_brackets name.toList
    exact .inr ⟨opening, closing, by rwa [byId]⟩

theorem digit_notMem_of_specialId? (narrow : IsNarrow id) (special : specialId? name = some id) :
    '6' ∉ name.toList := by
  rcases exists_spelling special with token | ⟨opening, closing, bracketed⟩
  · exact ((forall_narrow_tokens _ token).1 narrow).2
  · simp [bracketed, (forall_narrow id narrow).2.2]

/-- A name of a narrow folder in which nothing is replaced is the id with unpaired brackets. -/
theorem isUnpaired_of_not_isInfix (narrow : IsNarrow id) (special : specialId? name = some id)
    (missing : ∀ entry ∈ wideSpellings, ¬ entry.1.toList <:+: name.toList) :
    IsUnpaired id name := by
  rcases exists_spelling special with token | ⟨opening, closing, bracketed⟩
  · obtain ⟨entry, mem, same⟩ := List.mem_map.mp ((forall_narrow_tokens _ token).1 narrow).1
    exact absurd (same ▸ List.infix_refl _) (missing entry mem)
  · refine ⟨opening, closing, bracketed, ?_⟩
    obtain ⟨entry, mem, same⟩ := List.mem_map.mp (forall_narrow id narrow).2.1
    -- with brackets on both sides the id in two brackets would have been found
    cases opening with
    | zero => exact .inl rfl
    | succ m =>
      cases closing with
      | zero => exact .inr rfl
      | succ n =>
        refine absurd ⟨List.replicate m '[', List.replicate n ']', ?_⟩ (missing entry mem)
        rw [same, bracketed, List.replicate_succ', List.replicate_succ]
        simp

/-- Nothing is replaced in an id with unpaired brackets. -/
theorem IsUnpaired.replaceEach_eq (narrow : IsNarrow id) (unpaired : IsUnpaired id name) :
    replaceEach wideSpellings name = name := by
  obtain ⟨opening, closing, bracketed, oneSided⟩ := unpaired
  have plain := fun c inside =>
    plain_of_isAlphanum ((forall_narrow id narrow).1.isAlphanum c inside)
  have percent : '%' ∉ id.toList := fun inside => (plain _ inside).2.2.1 rfl
  have left : '[' ∉ id.toList := fun inside => (plain _ inside).2.2.2.2.1 rfl
  have right : ']' ∉ id.toList := fun inside => (plain _ inside).2.2.2.2.2 rfl
  refine replaceEach_of_not_isInfix fun entry mem found => ?_
  -- a spelling has a percent sign or brackets of both kinds, and the name lacks either
  rcases (forall_wideSpellings entry mem).1 with sign | ⟨opens, closes⟩
  · have inside := found.subset sign
    simp [bracketed, percent] at inside
  · have opens' := found.subset opens
    have closes' := found.subset closes
    simp only [bracketed, List.mem_append, List.mem_replicate, left, right] at opens' closes'
    have none : opening ≠ 0 ∧ closing ≠ 0 := by simpa using And.intro opens' closes'
    omega

theorem IsUnpaired.specialId?_eq (narrow : IsNarrow id) (unpaired : IsUnpaired id name) :
    specialId? name = some id := by
  obtain ⟨opening, closing, bracketed, -⟩ := unpaired
  exact specialId?_brackets (forall_narrow id narrow).1 bracketed

/-- The names that lead to a narrow folder after the replacements. -/
theorem specialId?_replaceEach_iff (narrow : IsNarrow id) :
    specialId? (replaceEach wideSpellings name) = some id ↔ IsUnpaired id name := by
  constructor
  · intro special
    have missing : ∀ entry ∈ wideSpellings, ¬ entry.1.toList <:+: name.toList :=
      not_infix_of_notMem_replaceEach
        (fun entry mem =>
          ⟨(areInner_wideSpellings entry mem).1, (forall_wideSpellings entry mem).2⟩)
        (digit_notMem_of_specialId? narrow special)
    rw [replaceEach_of_not_isInfix missing] at special
    exact isUnpaired_of_not_isInfix narrow special missing
  · intro unpaired
    rw [unpaired.replaceEach_eq narrow, unpaired.specialId?_eq narrow]

/-! ## Tokens of other folders -/

/-- The text has the id of a folder in it that is not narrow. -/
def HasOther (text : List Char) : Prop :=
  ∃ entry ∈ tokens, ¬ IsNarrow entry.2 ∧ entry.2.toList <:+: text

/-- No token takes such an id away without putting in another one. -/
theorem HasOther.replace {chars : List Char} {entry : String × String} (mem : entry ∈ tokens)
    (has : HasOther chars) : HasOther (Text.replace entry.1.toList entry.2.toList chars) := by
  obtain ⟨other, isOther, wide, inside⟩ := has
  obtain ⟨shape, -, -, -, -⟩ := forall_tokens entry mem
  -- a token of a narrow folder has no such id between its signs; other tokens put one in
  by_cases narrow : IsNarrow entry.2
  · refine ⟨other, isOther, wide, ?_⟩
    have absent : '%' ∉ other.2.toList := fun percent =>
      (plain_of_isAlphanum ((forall_tokens other isOther).2.2.2.1 _ percent)).2.2.1 rfl
    have outside : ¬ other.2.toList <:+: (entry.1.toList.drop 1).dropLast := fun within =>
      (not_infix_narrow other isOther wide).2 entry mem narrow
        (within.trans ⟨['%'], ['%'], shape.symm⟩)
    rw [shape]
    exact Text.infix_replace_of_isInfix absent outside inside
  · by_cases found : entry.1.toList <:+: chars
    · exact ⟨entry, mem, narrow, Text.infix_replace (by rw [shape]; simp) found⟩
    · rw [Text.replace_of_not_isInfix found]
      exact ⟨other, isOther, wide, inside⟩

theorem HasOther.replaceEach (among : ∀ entry ∈ replacements, entry ∈ tokens)
    (has : HasOther text.toList) : HasOther (replaceEach replacements text).toList := by
  induction replacements generalizing text with
  | nil => rwa [replaceEach_nil]
  | cons entry rest ih =>
    rw [List.forall_mem_cons] at among
    rw [replaceEach_cons]
    refine ih among.2 ?_
    rw [String.toList_ofList]
    exact has.replace among.1

/-- Where there are no tokens of narrow folders, tokens of others leave their ids in the text. -/
theorem replaceEach_eq_or_hasOther (among : ∀ entry ∈ replacements, entry ∈ tokens)
    (missing : ∀ entry ∈ replacements, IsNarrow entry.2 → ¬ entry.1.toList <:+: text.toList) :
    replaceEach replacements text = text ∨ HasOther (replaceEach replacements text).toList := by
  induction replacements with
  | nil => exact .inl (replaceEach_nil text)
  | cons entry rest ih =>
    rw [List.forall_mem_cons] at among missing
    rw [replaceEach_cons]
    by_cases found : entry.1.toList <:+: text.toList
    · right
      refine HasOther.replaceEach among.2 ?_
      rw [String.toList_ofList]
      obtain ⟨shape, -⟩ := forall_tokens entry among.1
      exact ⟨entry, among.1, fun narrow => missing.1 narrow found,
        Text.infix_replace (by rw [shape]; simp) found⟩
    · rw [Text.replace_of_not_isInfix found, String.ofList_toList]
      exact ih among.2 missing.2

theorem infix_of_infix_replicate {c : Char} {block list : List Char} (absent : c ∉ block) (n : Nat)
    (inside : block <:+: List.replicate n c ++ list) : block <:+: list := by
  induction n with
  | zero => exact inside
  | succ n ih =>
    rw [List.replicate_succ, List.cons_append] at inside
    have parts : block <:+: [] ∨ block <:+: List.replicate n c ++ list :=
      Text.infix_of_infix_append_cons absent inside
    rcases parts with empty | later
    · exact List.infix_nil.mp empty ▸ List.nil_infix
    · exact ih later

/-- The names of a narrow folder have no id of another folder in them. -/
theorem not_hasOther_of_specialId? (narrow : IsNarrow id) (special : specialId? name = some id) :
    ¬ HasOther name.toList := by
  rintro ⟨other, isOther, wide, inside⟩
  obtain ⟨notId, notToken⟩ := not_infix_narrow other isOther wide
  rcases exists_spelling special with token | ⟨opening, closing, bracketed⟩
  · exact notToken _ token narrow inside
  · have plain := fun c inside =>
      plain_of_isAlphanum ((forall_tokens other isOther).2.2.2.1 c inside)
    have left : '[' ∉ other.2.toList := fun inside => (plain _ inside).2.2.2.2.1 rfl
    have right : ']' ∉ other.2.toList.reverse := fun inside =>
      (plain _ (List.mem_reverse.mp inside)).2.2.2.2.2 rfl
    refine notId id narrow ?_
    -- the brackets in front are taken off first, then, read backwards, those behind
    rw [bracketed, List.append_assoc] at inside
    have inside' := List.reverse_infix.mpr (infix_of_infix_replicate left opening inside)
    rw [List.reverse_append, List.reverse_replicate] at inside'
    exact List.reverse_infix.mp (infix_of_infix_replicate right closing inside')

/-! ## Identifiers of narrow folders -/

/-- Tokens inside a name make no narrow folder of it. -/
theorem specialId?_expandTokens_replaceEach_iff (narrow : IsNarrow id) :
    specialId? (expandTokens (replaceEach wideSpellings name)) = some id ↔ IsUnpaired id name := by
  constructor
  · intro special
    have absent : '6' ∉ (replaceEach wideSpellings name).toList := fun digit => by
      refine digit_notMem_of_specialId? narrow special (mem_replaceEach (fun entry mem => ?_) digit)
      exact ⟨(areInner_tokens entry mem).1, (forall_narrow_tokens entry mem).2⟩
    have missing := not_infix_of_notMem_replaceEach
      (fun entry mem => ⟨(areInner_wideSpellings entry mem).1, (forall_wideSpellings entry mem).2⟩)
      absent
    rw [replaceEach_of_not_isInfix missing, expandTokens] at special
    -- the tokens of narrow folders were replaced before
    have tokenless : ∀ entry ∈ tokens, IsNarrow entry.2 → ¬ entry.1.toList <:+: name.toList := by
      intro entry mem narrow'
      obtain ⟨spelling, isSpelling, same⟩ :=
        List.mem_map.mp ((forall_narrow_tokens entry mem).1 narrow').1
      exact same ▸ missing spelling isSpelling
    have kept := (replaceEach_eq_or_hasOther (fun _ mem => mem) tokenless).resolve_right
      (not_hasOther_of_specialId? narrow special)
    rw [kept] at special
    exact isUnpaired_of_not_isInfix narrow special missing
  · intro unpaired
    rw [unpaired.replaceEach_eq narrow]
    exact specialId?_expandTokens (unpaired.specialId?_eq narrow)

theorem underscore_notMem (isId : IsFolderId id) : '_' ∉ id.toList := fun inside =>
  absurd (isId.isAlphanum _ inside) (by decide)

/-- The identifier of a single name is the id of a folder only if the name leads to the folder once
its tokens are replaced. -/
theorem identifier_eq_iff {path first : String} (single : components path = [first])
    (isId : IsFolderId id) : identifier path = id ↔ specialId? (expandTokens first) = some id := by
  have identified : identifier path = withLegalStart (piece first) := by
    rw [identifier_eq, single, List.map_singleton, String.intercalate_singleton]
  rw [identified, piece]
  constructor
  · intro same
    have plain : sanitize ((specialId? (expandTokens first)).getD (expandTokens first)) = id := by
      rw [withLegalStart] at same
      split at same
      next =>
        rw [← same] at isId
        exact absurd (underscore_notMem isId) (by simp)
      next =>
        split at same
        next =>
          rw [← same] at isId
          exact absurd (underscore_notMem isId) (by simp)
        next => exact same
    cases special : specialId? (expandTokens first) with
    | some other =>
      rw [special, Option.getD_some, sanitize_of_isFolderId (specialId?_eq_some special).1] at plain
      rw [plain]
    | none =>
      rw [special, Option.getD_none] at plain
      -- a text without underscores was not changed
      have unchanged : sanitize (expandTokens first) = expandTokens first := by
        have each : ∀ c ∈ (expandTokens first).toList, (if isIdChar c then c else '_') = c := by
          intro c inside
          split
          next => rfl
          next other =>
            refine absurd ?_ (underscore_notMem isId)
            rw [← plain, sanitize, String.toList_ofList]
            exact List.mem_map.mpr ⟨c, inside, if_neg other⟩
        rw [sanitize, List.map_congr_left each, List.map_id', String.ofList_toList]
      rw [← unchanged, plain, specialId?_of_isFolderId isId] at special
      cases special
  · intro special
    rw [special, Option.getD_some, sanitize_of_isFolderId isId, withLegalStart_of_isFolderId isId]

/-! ## Wider texts -/

theorem components_of_isFolderId (isId : IsFolderId id) : components id = [id] :=
  (isName_of_specialId? (specialId?_of_isFolderId isId)).components_eq

/-- A bare narrow id gives way to the id of another folder. -/
theorem widen_of_isNarrow (narrow : IsNarrow text) :
    IsFolderId (widen text) ∧ ¬ IsNarrow (widen text) := by
  have checked : ∀ id ∈ wideIds.map Prod.fst, IsFolderId (widen id) ∧ ¬ IsNarrow (widen id) := by
    decide +kernel
  exact checked text narrow

theorem widen_of_not_isNarrow (other : ¬ IsNarrow text) :
    widen text = replaceEach wideSpellings text := by
  have missing : wideIds.lookup text = none := by
    rw [List.lookup_eq_none_iff]
    intro entry mem
    rw [bne_iff_ne]
    rintro rfl
    exact other (List.mem_map_of_mem mem)
  rw [widen, missing]

theorem components_widen (other : ¬ IsNarrow text) :
    components (widen text) = (components text).map (replaceEach wideSpellings) := by
  rw [widen_of_not_isNarrow other, components_replaceEach areInner_wideSpellings]

theorem replaceEach_eq_empty (inner : AreInner replacements) :
    replaceEach replacements text = "" ↔ text = "" := by
  induction replacements generalizing text with
  | nil => rw [replaceEach_nil]
  | cons entry rest ih =>
    rw [AreInner, List.forall_mem_cons] at inner
    rw [replaceEach_cons, ih inner.2, String.ofList_eq_empty_iff,
      Text.replace_eq_nil inner.1.2.1, String.toList_eq_nil_iff]

theorem widen_eq_empty : widen text = "" ↔ text = "" := by
  by_cases narrow : IsNarrow text
  · have checked : ∀ id ∈ wideIds.map Prod.fst, id ≠ "" ∧ widen id ≠ "" := by decide +kernel
    exact iff_of_false (checked text narrow).2 (checked text narrow).1
  · rw [widen_of_not_isNarrow narrow, replaceEach_eq_empty areInner_wideSpellings]

/-- An id with unpaired brackets that is a narrow id itself is the same id. -/
theorem IsUnpaired.eq_of_isNarrow (narrow : IsNarrow id) (unpaired : IsUnpaired id name)
    (bare : IsNarrow name) : name = id := by
  have special := unpaired.specialId?_eq narrow
  rw [specialId?_of_isFolderId (forall_narrow name bare).1] at special
  exact Option.some.inj special

/-- The whole names that lead to a narrow folder although they were made wider. -/
theorem specialId?_widen_iff (narrow : IsNarrow id) :
    specialId? (widen name) = some id ↔ name ≠ id ∧ IsUnpaired id name := by
  by_cases bare : IsNarrow name
  · obtain ⟨isId, wide⟩ := widen_of_isNarrow bare
    constructor
    · intro special
      rw [specialId?_of_isFolderId isId, Option.some.injEq] at special
      exact absurd (special ▸ narrow) wide
    · rintro ⟨different, unpaired⟩
      exact absurd (unpaired.eq_of_isNarrow narrow bare) different
  · rw [widen_of_not_isNarrow bare, specialId?_replaceEach_iff narrow]
    exact (and_iff_right fun same : name = id => bare (same ▸ narrow)).symm

/-- The paths whose first name has the identifier of a narrow folder although they were made wider.
-/
theorem identifier_widen_iff {path first : String} (narrow : IsNarrow id)
    (head : (components (widen path)).head? = some first) :
    identifier (ofComponents [first]) = id ↔
      path ≠ id ∧ ∃ name, (components path).head? = some name ∧ IsUnpaired id name := by
  have isName : IsName first := isName_of_mem_components (List.mem_of_mem_head? head)
  have single : components (ofComponents [first]) = [first] :=
    components_ofComponents (by simpa using isName)
  rw [identifier_eq_iff single (forall_narrow id narrow).1]
  by_cases bare : IsNarrow path
  · obtain ⟨isId, wide⟩ := widen_of_isNarrow bare
    rw [components_of_isFolderId isId, List.head?_cons, Option.some.injEq] at head
    rw [← head, specialId?_expandTokens (specialId?_of_isFolderId isId), Option.some.injEq,
      components_of_isFolderId (forall_narrow path bare).1, List.head?_cons]
    constructor
    · intro same
      exact absurd (same ▸ narrow) wide
    · rintro ⟨different, name, same, unpaired⟩
      cases same
      exact absurd (unpaired.eq_of_isNarrow narrow bare) different
  · rw [components_widen bare, List.head?_map, Option.map_eq_some_iff] at head
    obtain ⟨name, head, rfl⟩ := head
    rw [specialId?_expandTokens_replaceEach_iff narrow, head]
    constructor
    · intro unpaired
      exact ⟨fun same => bare (same ▸ narrow), name, rfl, unpaired⟩
    · rintro ⟨-, other, same, unpaired⟩
      exact Option.some.inj same ▸ unpaired

end Installer.Folder
