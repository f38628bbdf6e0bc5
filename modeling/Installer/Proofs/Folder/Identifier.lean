import Installer.Folder
import Installer.Proofs.Text.Replace

/-! # Identifiers of paths

The identifier of a path is put together from the identifiers of its names, whichever way the path
is written (`identifier_eq`).  So paths with the same names have the same identifier, a special
folder keeps its id, and the identifier of a path with several names has a full stop, which no id of
a special folder has.
-/

namespace Installer

/-! ## The names of a path -/

namespace LogicalPath

/-- The names in a text, as lists of characters. -/
def names (text : List Char) : List (List Char) :=
  (text.splitOnP isSeparator).filter fun name => !name.isEmpty

theorem components_eq (path : String) :
    components path = (names path.toList).map String.ofList := rfl

/-- A name on a path is not empty and has no separator in it. -/
structure IsName (name : String) : Prop where
  nonempty : name.toList ≠ []
  plain : ∀ c ∈ name.toList, isSeparator c = false

theorem isName_of_mem_components {path name : String} (mem : name ∈ components path) :
    IsName name := by
  obtain ⟨part, among, rfl⟩ := List.mem_map.mp mem
  obtain ⟨cut, nonempty⟩ := List.mem_filter.mp among
  constructor
  · simpa using nonempty
  · simpa using Text.not_isSep_of_mem_splitOnP cut

theorem IsName.components_eq {name : String} (isName : IsName name) : components name = [name] := by
  rw [components, List.splitOnP_eq_singleton isName.plain]
  simp [isName.nonempty]

theorem components_cons {name : String} (isName : IsName name) {rest : List String}
    (nonempty : rest ≠ []) (inner : components (ofComponents rest) = rest) :
    components (ofComponents (name :: rest)) = name :: rest := by
  have text : (ofComponents (name :: rest)).toList =
      name.toList ++ '\\' :: (ofComponents rest).toList := by
    rw [ofComponents, String.intercalate_cons_of_ne_nil nonempty]
    simp [ofComponents]
  have cut : (ofComponents (name :: rest)).toList.splitOnP isSeparator =
      name.toList :: (ofComponents rest).toList.splitOnP isSeparator := by
    rw [text, List.splitOnP_append_cons_of_forall_mem isName.plain _ (by decide)]
  have first : name.toList.isEmpty = false := by simpa using isName.nonempty
  rw [components] at inner
  rw [components, cut, List.filter_cons]
  simp only [first, Bool.not_false, if_true, List.map_cons, String.ofList_toList, inner]

/-- Names that are put together are found again. -/
theorem components_ofComponents {list : List String} (areNames : ∀ name ∈ list, IsName name) :
    components (ofComponents list) = list := by
  induction list with
  | nil => rfl
  | cons name rest ih =>
    rw [List.forall_mem_cons] at areNames
    cases rest with
    | nil => exact areNames.1.components_eq
    | cons second others => exact components_cons areNames.1 (by simp) (ih areNames.2)

theorem components_ofComponents_take (path : String) (n : Nat) :
    components (ofComponents ((components path).take n)) = (components path).take n :=
  components_ofComponents fun _ mem => isName_of_mem_components (List.mem_of_mem_take mem)

theorem components_ofComponents_components (path : String) :
    components (ofComponents (components path)) = components path :=
  components_ofComponents fun _ mem => isName_of_mem_components mem

end LogicalPath

namespace Folder

open LogicalPath

/-! ## Replacing in the names of a path -/

/-- The replacements neither find nor put in separators or nothing at all. -/
def AreInner (replacements : List (String × String)) : Prop :=
  ∀ entry ∈ replacements, entry.1.toList ≠ [] ∧ entry.2.toList ≠ [] ∧
    (∀ c ∈ entry.1.toList, isSeparator c = false) ∧ ∀ c ∈ entry.2.toList, isSeparator c = false

theorem names_replace {pattern sub : List Char} (nonempty : pattern ≠ []) (put : sub ≠ [])
    (plain : ∀ c ∈ pattern, isSeparator c = false) (plainSub : ∀ c ∈ sub, isSeparator c = false)
    (text : List Char) :
    names (Text.replace pattern sub text) = (names text).map (Text.replace pattern sub) := by
  rw [names, names, Text.splitOnP_replace nonempty plain plainSub, List.filter_map]
  congr 1
  refine List.filter_congr fun part _ => ?_
  simp only [Function.comp_apply]
  rw [Bool.eq_iff_iff]
  simp [Text.replace_eq_nil put]

theorem components_replaceEach {replacements : List (String × String)}
    (inner : AreInner replacements) (path : String) :
    components (replaceEach replacements path) =
      (components path).map (replaceEach replacements) := by
  have each : ∀ (list : List (String × String)), AreInner list → ∀ text : List Char,
      names (list.foldl (fun chars entry =>
          Text.replace entry.1.toList entry.2.toList chars) text) =
        (names text).map fun part => list.foldl (fun chars entry =>
          Text.replace entry.1.toList entry.2.toList chars) part := by
    intro list inner
    induction list with
    | nil => intro text; simp
    | cons entry rest ih =>
      intro text
      obtain ⟨nonempty, put, plain, plainSub⟩ := inner entry (List.mem_cons_self ..)
      have later := ih fun other mem => inner other (List.mem_cons_of_mem _ mem)
      rw [List.foldl_cons, later, names_replace nonempty put plain plainSub, List.map_map]
      rfl
  rw [LogicalPath.components_eq, LogicalPath.components_eq, replaceEach, String.toList_ofList,
    each replacements inner, List.map_map, List.map_map]
  refine List.map_congr_left fun part _ => ?_
  simp [replaceEach]

theorem replaceEach_eq_self {replacements : List (String × String)} {c : Char} {text : String}
    (inside : ∀ entry ∈ replacements, c ∈ entry.1.toList) (absent : c ∉ text.toList) :
    replaceEach replacements text = text := by
  have each : ∀ list : List (String × String), (∀ entry ∈ list, c ∈ entry.1.toList) →
      list.foldl (fun chars entry => Text.replace entry.1.toList entry.2.toList chars)
        text.toList = text.toList := by
    intro list inside
    induction list with
    | nil => rfl
    | cons entry rest ih =>
      rw [List.forall_mem_cons] at inside
      rw [List.foldl_cons, Text.replace_eq_self inside.1 absent, ih inside.2]
  rw [replaceEach, each _ inside, String.ofList_toList]

/-! ## Tokens -/

/-- A token is a name in per cent signs. -/
def IsToken (text : List Char) : Prop :=
  ∃ name, text = '%' :: (name ++ ['%']) ∧ name ≠ [] ∧ '%' ∉ name

/-- A token has no part that is another token. -/
theorem replace_token {text pattern sub : List Char} (isToken : IsToken text)
    (isPattern : IsToken pattern) :
    Text.replace pattern sub text = if pattern = text then sub else text := by
  obtain ⟨name, rfl, -, plain⟩ := isToken
  obtain ⟨wanted, rfl, nonempty, wantedPlain⟩ := isPattern
  have same : '%' :: (wanted ++ ['%']) = '%' :: (name ++ ['%']) ↔ wanted = name := by simp
  -- after its first per cent sign the text has only one more, at its end
  have later : ∀ part : List Char, '%' ∉ part →
      Text.replaceAfter ('%' :: (wanted ++ ['%'])) sub 0 (part ++ ['%']) = part ++ ['%'] := by
    intro part plain
    induction part with
    | nil => simp [Text.replaceAfter, List.isPrefixOf]
    | cons c part ih =>
      simp only [List.mem_cons, not_or] at plain
      rw [List.cons_append, Text.replaceAfter]
      simp [List.isPrefixOf, plain.1, ih plain.2]
  rw [Text.replace, Text.replaceAfter]
  by_cases here : wanted = name
  · subst here
    have dropped : ∀ part : List Char, Text.replaceAfter ('%' :: (wanted ++ ['%'])) sub
        part.length part = [] := by
      intro part
      induction part with
      | nil => rfl
      | cons c part ih => exact ih
    have length := dropped (wanted ++ ['%'])
    simp only [List.length_append, List.length_singleton] at length
    simp [length]
  · have missing : ('%' :: (wanted ++ ['%'])).isPrefixOf ('%' :: (name ++ ['%'])) = false := by
      rw [← Bool.not_eq_true, List.isPrefixOf_iff_prefix]
      rintro ⟨back, equal⟩
      have equal' : name ++ '%' :: [] = wanted ++ '%' :: back := by simpa using equal.symm
      exact here ((List.append_cons_inj_of_notMem plain (by simp)).mp equal').1.symm
    rw [missing, if_neg (fun equal => here (same.mp equal)), later name plain]
    rfl

/-- A character of the ids of special folders. -/
theorem plain_of_isAlphanum {c : Char} (isAlphanum : c.isAlphanum = true) :
    isSeparator c = false ∧ isIdChar c = true ∧ c ≠ '%' ∧ c ≠ '.' ∧ c ≠ '[' ∧ c ≠ ']' := by
  refine ⟨?_, by simp [isIdChar, isAlphanum], ?_⟩
  · rw [← Bool.not_eq_true, isSeparator, Bool.or_eq_true, beq_iff_eq, beq_iff_eq]
    rintro (rfl | rfl)
    · exact absurd isAlphanum (by decide)
    · exact absurd isAlphanum (by decide)
  · refine ⟨?_, ?_, ?_, ?_⟩ <;> (rintro rfl; exact absurd isAlphanum (by decide))

theorem all_tokens : (tokens.all fun entry =>
    let name := (entry.1.toList.drop 1).dropLast
    entry.1.toList == '%' :: (name ++ ['%']) && !name.isEmpty && name.all Char.isAlphanum &&
      entry.2.toList.all Char.isAlphanum && entry.2.toList.head?.any fun c => !c.isDigit) =
        true := by
  decide +kernel

/-- Tokens are names in per cent signs, and an id has letters and digits only, a letter first. -/
theorem forall_tokens : ∀ entry ∈ tokens,
    entry.1.toList = '%' :: ((entry.1.toList.drop 1).dropLast ++ ['%']) ∧
      (entry.1.toList.drop 1).dropLast ≠ [] ∧
        (∀ c ∈ (entry.1.toList.drop 1).dropLast, c.isAlphanum = true) ∧
          (∀ c ∈ entry.2.toList, c.isAlphanum = true) ∧
            ∃ c ∈ entry.2.toList.head?, c.isDigit = false := by
  intro entry mem
  have checked := List.all_eq_true.mp all_tokens entry mem
  simp only [Bool.and_eq_true, beq_iff_eq, Bool.not_eq_true', List.all_eq_true,
    List.isEmpty_eq_false_iff, Option.any_eq_true] at checked
  obtain ⟨⟨⟨⟨shape, nonempty⟩, plain⟩, word⟩, first⟩ := checked
  exact ⟨shape, nonempty, plain, word, first⟩

theorem isToken_of_mem {entry : String × String} (mem : entry ∈ tokens) :
    IsToken entry.1.toList := by
  obtain ⟨shape, nonempty, plain, -⟩ := forall_tokens entry mem
  exact ⟨_, shape, nonempty, fun inside => (plain_of_isAlphanum (plain _ inside)).2.2.1 rfl⟩

theorem plain_of_mem {entry : String × String} (mem : entry ∈ tokens) :
    ∀ c ∈ entry.1.toList, isSeparator c = false := by
  obtain ⟨shape, -, plain, -⟩ := forall_tokens entry mem
  rw [shape]
  simp only [List.mem_cons, List.mem_append, List.not_mem_nil, or_false]
  rintro c (rfl | inside | rfl)
  · decide
  · exact (plain_of_isAlphanum (plain c inside)).1
  · decide

theorem areInner_tokens : AreInner tokens := by
  intro entry mem
  obtain ⟨shape, -, -, word, first⟩ := forall_tokens entry mem
  refine ⟨by rw [shape]; simp, ?_, plain_of_mem mem,
    fun c inside => (plain_of_isAlphanum (word c inside)).1⟩
  rintro empty
  simp [empty] at first

/-- A text that is a token as a whole becomes the id of its folder. -/
theorem expandTokens_of_lookup {name id : String} (found : tokens.lookup name = some id) :
    expandTokens name = id := by
  obtain ⟨front, back, split, before⟩ := List.lookup_eq_some_iff.mp found
  have here : (name, id) ∈ tokens := by simp [split]
  have isToken := isToken_of_mem here
  -- the tokens before it leave the name alone, those after it leave the id alone
  have kept : ∀ list : List (String × String), (∀ entry ∈ list, entry ∈ tokens) →
      (∀ entry ∈ list, name != entry.1) →
        list.foldl (fun chars entry => Text.replace entry.1.toList entry.2.toList chars)
          name.toList = name.toList := by
    intro list among other
    induction list with
    | nil => rfl
    | cons entry rest ih =>
      rw [List.forall_mem_cons] at among other
      have different : entry.1.toList ≠ name.toList := fun equal => by
        simp [String.toList_inj.mp equal] at other
      rw [List.foldl_cons, replace_token isToken (isToken_of_mem among.1), if_neg different,
        ih among.2 other.2]
  have done : replaceEach back id = id := by
    refine replaceEach_eq_self (c := '%') (fun entry mem => ?_) fun inside => ?_
    · obtain ⟨token, shape, -⟩ := isToken_of_mem (show entry ∈ tokens by simp [split, mem])
      simp [shape]
    · exact (plain_of_isAlphanum ((forall_tokens _ here).2.2.2.1 _ inside)).2.2.1 rfl
  rw [expandTokens, replaceEach, split, List.foldl_append,
    kept front (by simp [split]; tauto) before, List.foldl_cons, replace_token isToken isToken,
    if_pos rfl]
  exact done

/-! ## Special folders -/

def IsFolderId (id : String) : Prop :=
  id ∈ tokens.map Prod.snd

instance (id : String) : Decidable (IsFolderId id) :=
  inferInstanceAs (Decidable (id ∈ tokens.map Prod.snd))

theorem IsFolderId.isAlphanum {id : String} (isId : IsFolderId id) :
    ∀ c ∈ id.toList, c.isAlphanum = true := by
  obtain ⟨entry, mem, rfl⟩ := List.mem_map.mp isId
  exact (forall_tokens entry mem).2.2.2.1

/-- No id of a special folder has a full stop in it. -/
theorem IsFolderId.dot_notMem {id : String} (isId : IsFolderId id) : '.' ∉ id.toList :=
  fun inside => (plain_of_isAlphanum (isId.isAlphanum _ inside)).2.2.2.1 rfl

theorem exists_dropWhile_eq (c : Char) (list : List Char) :
    ∃ n, list = List.replicate n c ++ list.dropWhile (· == c) := by
  induction list with
  | nil => exact ⟨0, rfl⟩
  | cons x rest ih =>
    by_cases same : x = c
    · obtain ⟨n, front⟩ := ih
      refine ⟨n + 1, ?_⟩
      rw [List.dropWhile_cons_of_pos (by simpa using same), List.replicate_succ, List.cons_append,
        ← front, same]
    · exact ⟨0, by rw [List.dropWhile_cons_of_neg (by simpa using same)]; rfl⟩

/-- What is taken off a text are brackets. -/
theorem exists_brackets (text : List Char) : ∃ opening closing,
    text = List.replicate opening '[' ++ unbracketed text ++ List.replicate closing ']' := by
  obtain ⟨opening, front⟩ := exists_dropWhile_eq '[' text
  obtain ⟨closing, back⟩ := exists_dropWhile_eq ']' (text.dropWhile (· == '[')).reverse
  refine ⟨opening, closing, ?_⟩
  have back' := congrArg List.reverse back
  rw [List.reverse_reverse, List.reverse_append, List.reverse_replicate] at back'
  rw [unbracketed, List.append_assoc, ← back', ← front]

theorem dropWhile_replicate_append {c : Char} (n : Nat) {list : List Char} (absent : c ∉ list) :
    (List.replicate n c ++ list).dropWhile (· == c) = list := by
  induction n with
  | zero =>
    cases list with
    | nil => rfl
    | cons x rest =>
      simp only [List.mem_cons, not_or] at absent
      exact List.dropWhile_cons_of_neg (by simpa using Ne.symm absent.1)
  | succ n ih =>
    rw [List.replicate_succ, List.cons_append, List.dropWhile_cons_of_pos (by simp), ih]

/-- All brackets around an id are taken off. -/
theorem unbracketed_brackets {id : List Char} (opening : '[' ∉ id) (closing : ']' ∉ id)
    (m n : Nat) : unbracketed (List.replicate m '[' ++ id ++ List.replicate n ']') = id := by
  have absent : '[' ∉ id ++ List.replicate n ']' := by simp [opening]
  rw [unbracketed, List.append_assoc, dropWhile_replicate_append m absent, List.reverse_append,
    List.reverse_replicate, dropWhile_replicate_append n (by simpa using closing),
    List.reverse_reverse]

theorem mem_unbracketed_or {c : Char} {text : List Char} (mem : c ∈ text) :
    c ∈ unbracketed text ∨ c = '[' ∨ c = ']' := by
  obtain ⟨opening, closing, bracketed⟩ := exists_brackets text
  rw [bracketed, List.mem_append, List.mem_append] at mem
  rcases mem with (bracket | inside) | bracket
  · exact .inr (.inl (List.eq_of_mem_replicate bracket))
  · exact .inl inside
  · exact .inr (.inr (List.eq_of_mem_replicate bracket))

/-- The ways to spell a special folder: by a token, or by its id that may be in brackets. -/
theorem specialId?_eq_some {name id : String} (special : specialId? name = some id) :
    IsFolderId id ∧ (tokens.lookup name = some id ∨
      tokens.lookup name = none ∧ id.toList = unbracketed name.toList) := by
  rw [specialId?] at special
  cases found : tokens.lookup name with
  | some other =>
    simp only [found, Option.some.injEq] at special
    subst special
    obtain ⟨front, back, split, -⟩ := List.lookup_eq_some_iff.mp found
    exact ⟨List.mem_map.mpr ⟨(name, other), by simp [split], rfl⟩, .inl rfl⟩
  | none =>
    simp only [found, Option.ite_none_right_eq_some, Option.some.injEq] at special
    obtain ⟨listed, rfl⟩ := special
    obtain ⟨entry, mem, equal⟩ := List.any_eq_true.mp listed
    exact ⟨List.mem_map.mpr ⟨entry, mem, by simpa using equal⟩, .inr ⟨rfl, by simp⟩⟩

/-- An id is recognised in any brackets. -/
theorem specialId?_brackets {id name : String} {opening closing : Nat} (isId : IsFolderId id)
    (bracketed : name.toList =
      List.replicate opening '[' ++ id.toList ++ List.replicate closing ']') :
    specialId? name = some id := by
  have plain := fun c inside => plain_of_isAlphanum (isId.isAlphanum c inside)
  -- the name is no token, since it has no per cent sign
  have missing : tokens.lookup name = none := by
    rw [List.lookup_eq_none_iff]
    intro entry mem
    obtain ⟨token, shape, -⟩ := isToken_of_mem mem
    rw [bne_iff_ne]
    rintro rfl
    have inside : '%' ∈ entry.1.toList := by simp [shape]
    rw [bracketed, List.mem_append, List.mem_append] at inside
    rcases inside with (bracket | inside) | bracket
    · exact absurd (List.eq_of_mem_replicate bracket) (by decide)
    · exact (plain _ inside).2.2.1 rfl
    · exact absurd (List.eq_of_mem_replicate bracket) (by decide)
  have bare : unbracketed name.toList = id.toList := by
    rw [bracketed]
    exact unbracketed_brackets (fun inside => (plain _ inside).2.2.2.2.1 rfl)
      (fun inside => (plain _ inside).2.2.2.2.2 rfl) _ _
  obtain ⟨entry, mem, equal⟩ := List.mem_map.mp isId
  have listed : (tokens.any fun entry => entry.2 == id) = true :=
    List.any_eq_true.mpr ⟨entry, mem, by simpa using equal⟩
  simp only [specialId?, missing, bare, String.ofList_toList, listed, if_true]

theorem specialId?_of_isFolderId {id : String} (isId : IsFolderId id) : specialId? id = some id :=
  specialId?_brackets isId (by simp : id.toList =
    List.replicate 0 '[' ++ id.toList ++ List.replicate 0 ']')

/-- With its token replaced, the name of a special folder still names it. -/
theorem specialId?_expandTokens {name id : String} (special : specialId? name = some id) :
    specialId? (expandTokens name) = some id := by
  obtain ⟨isId, byToken | ⟨-, byId⟩⟩ := specialId?_eq_some special
  · rw [expandTokens_of_lookup byToken, specialId?_of_isFolderId isId]
  · -- a bare id has no token in it
    have kept : expandTokens name = name := by
      refine replaceEach_eq_self (c := '%') (fun entry mem => ?_) fun inside => ?_
      · obtain ⟨token, shape, -⟩ := isToken_of_mem mem
        simp [shape]
      · rcases mem_unbracketed_or inside with bare | bracket | bracket
        · rw [← byId] at bare
          exact (plain_of_isAlphanum (isId.isAlphanum _ bare)).2.2.1 rfl
        · cases bracket
        · cases bracket
    rw [kept, special]

theorem isName_of_specialId? {name id : String} (special : specialId? name = some id) :
    IsName name := by
  obtain ⟨isId, byToken | ⟨-, byId⟩⟩ := specialId?_eq_some special
  · obtain ⟨front, back, split, -⟩ := List.lookup_eq_some_iff.mp byToken
    have mem : (name, id) ∈ tokens := by simp [split]
    obtain ⟨token, shape, -⟩ := isToken_of_mem mem
    exact ⟨by simp [shape], plain_of_mem mem⟩
  · refine ⟨fun empty => ?_, fun c inside => ?_⟩
    · obtain ⟨entry, mem, rfl⟩ := List.mem_map.mp isId
      obtain ⟨c, first, -⟩ := (forall_tokens entry mem).2.2.2.2
      simp [byId, empty, unbracketed] at first
    · rcases mem_unbracketed_or inside with bare | rfl | rfl
      · rw [← byId] at bare
        exact (plain_of_isAlphanum (isId.isAlphanum _ bare)).1
      · decide
      · decide

/-! ## Identifiers of paths -/

/-- What a name contributes to the identifier of a path. -/
def piece (name : String) : String :=
  sanitize ((specialId? (expandTokens name)).getD (expandTokens name))

theorem sanitize_of_isFolderId {id : String} (isId : IsFolderId id) : sanitize id = id := by
  have kept : id.toList.map (fun c => if isIdChar c then c else '_') = id.toList.map fun c => c :=
    List.map_congr_left fun c inside => by
      simp [(plain_of_isAlphanum (isId.isAlphanum c inside)).2.1]
  rw [sanitize, kept, List.map_id', String.ofList_toList]

theorem withLegalStart_of_isFolderId {id : String} (isId : IsFolderId id) :
    withLegalStart id = id := by
  obtain ⟨entry, mem, rfl⟩ := List.mem_map.mp isId
  obtain ⟨c, first, letter⟩ := (forall_tokens entry mem).2.2.2.2
  rw [withLegalStart]
  split
  next empty => simp [empty] at first
  next d rest text =>
    simp only [text, List.head?_cons, Option.mem_some_iff] at first
    rw [first, letter]
    rfl

/-- The identifier of a path is made of what its names contribute. -/
theorem identifier_eq (path : String) :
    identifier path = withLegalStart (".".intercalate ((components path).map piece)) := by
  rw [identifier]
  split
  next id special =>
    have isId := (specialId?_eq_some special).1
    have whole : piece path = id := by
      rw [piece, specialId?_expandTokens special, Option.getD_some, sanitize_of_isFolderId isId]
    rw [(isName_of_specialId? special).components_eq, List.map_singleton, whole,
      String.intercalate_singleton, withLegalStart_of_isFolderId isId]
  next =>
    rw [expandTokens, components_replaceEach areInner_tokens]
    simp only [List.map_map]
    rfl

theorem identifier_congr {path path' : String} (same : components path = components path') :
    identifier path = identifier path' := by
  rw [identifier_eq, identifier_eq, same]

/-- The identifier does not depend on the way in which the names of a path are separated. -/
theorem identifier_ofComponents (path : String) :
    identifier (ofComponents (components path)) = identifier path :=
  identifier_congr (components_ofComponents_components path)

/-- Only the identifiers of paths with several names need to have a full stop. -/
theorem dot_mem_identifier {path : String} (several : 2 ≤ (components path).length) :
    '.' ∈ (identifier path).toList := by
  have started : ∀ text : String, '.' ∈ text.toList → '.' ∈ (withLegalStart text).toList := by
    intro text inside
    rw [withLegalStart]
    split
    next empty => simp [empty] at inside
    next =>
      split
      next => simp [inside]
      next => exact inside
  rw [identifier_eq]
  refine started _ ?_
  cases names : (components path).map piece with
  | nil => simp [List.map_eq_nil_iff.mp names] at several
  | cons first rest =>
    cases rest with
    | nil =>
      have length := congrArg List.length names
      simp only [List.length_map, List.length_singleton] at length
      omega
    | cons second others =>
      rw [String.intercalate_cons_cons]
      simp

end Folder

end Installer
