import Installer.Proofs.Folder.Widening

/-! # Spellings of paths

Paths with the same names may be written with other separators, or with more of them.  Identifiers
do not see that, but a special folder is recognised by its bare spelling only.  Wider folders do not
make a difference: the replacements work on each name of a path, and they make a special folder of
nothing else.
-/

namespace Installer

open LogicalPath

theorem LogicalPath.components_append (front back : String) :
    components (front ++ "\\" ++ back) = components front ++ components back := by
  have text : (front ++ "\\" ++ back).toList = front.toList ++ '\\' :: back.toList := by
    simp
  rw [components, text, List.splitOnP_append_cons _ _ (by decide), List.filter_append,
    List.map_append]
  rfl

namespace Text

variable {pattern sub : List Char}

/-- Where the pattern is found, what is before stays and the replacement goes on behind. -/
theorem exists_replace_eq (nonempty : pattern ≠ []) {text : List Char} (found : pattern <:+: text) :
    ∃ front back, text = front ++ (pattern ++ back) ∧
      replace pattern sub text = front ++ (sub ++ replace pattern sub back) := by
  induction text using replace_induction nonempty with
  | nil => exact absurd (List.infix_nil.mp found) nonempty
  | here text ih => exact ⟨[], text, rfl, replace_append nonempty text⟩
  | there c rest missing ih =>
    rcases List.infix_cons_iff.mp found with front | later
    · rw [List.isPrefixOf_iff_prefix.mpr front] at missing
      cases missing
    · obtain ⟨front, back, split, replaced⟩ := ih later
      exact ⟨c :: front, back, by rw [split]; rfl, by rw [replace_cons missing, replaced]; rfl⟩

/-- What stands before a bracket is made of brackets where all brackets come first. -/
theorem eq_of_mem_front {c : Char} {front rest tail : List Char} {n : Nat}
    (same : front ++ c :: rest = List.replicate n c ++ tail) (absent : c ∉ tail) :
    ∀ x ∈ front, x = c := by
  rcases List.append_eq_append_iff.mp same with ⟨mid, brackets, -⟩ | ⟨mid, rfl, inside⟩
  · intro x mem
    exact List.eq_of_mem_replicate (brackets ▸ List.mem_append_left mid mem)
  · exact absurd (by simp [inside]) absent

/-- What stands behind a bracket is made of brackets where all brackets come last. -/
theorem eq_of_mem_back {c : Char} {front back head : List Char} {n : Nat}
    (same : front ++ c :: back = head ++ List.replicate n c) (absent : c ∉ head) :
    ∀ x ∈ back, x = c := by
  have reversed : back.reverse ++ c :: front.reverse = List.replicate n c ++ head.reverse := by
    simpa using congrArg List.reverse same
  intro x mem
  exact eq_of_mem_front reversed (by simpa using absent) x (List.mem_reverse.mpr mem)

end Text

namespace Folder

/-- A wide spelling is a token, or an id in a pair of brackets. -/
theorem wideSpellings_shape : ∀ entry ∈ wideSpellings, isSpecial entry.1 = true ∧
    (entry.2.toList.count '%' = 2 ∨ entry.2.toList.head? = some '[' ∧
      entry.2.toList.getLast? = some ']' ∧ ∃ id ∈ wideIds.map Prod.fst,
        entry.1.toList = '[' :: (id.toList ++ [']'])) := by
  decide +kernel

theorem count_token {entry : String × String} (mem : entry ∈ tokens) :
    entry.1.toList.count '%' = 2 ∧ entry.1.toList.head? = some '%' ∧
      entry.1.toList.getLast? = some '%' ∧ '[' ∉ entry.1.toList := by
  have checked : ∀ entry ∈ tokens, entry.1.toList.count '%' = 2 ∧
      entry.1.toList.head? = some '%' ∧ entry.1.toList.getLast? = some '%' ∧
        '[' ∉ entry.1.toList := by
    decide +kernel
  exact checked entry mem

variable {id name : String}

/-- A token that is put into a name of a folder is the whole name. -/
theorem eq_nil_of_token {front sub back : List Char} (signs : sub.count '%' = 2)
    (special : specialId? name = some id) (same : name.toList = front ++ (sub ++ back)) :
    front = [] ∧ back = [] := by
  have inside : '%' ∈ name.toList := by
    rw [same]
    have sign : '%' ∈ sub := List.count_pos_iff.mp (by omega)
    simp [sign]
  rcases exists_spelling special with token | ⟨opening, closing, bracketed⟩
  -- a token has two signs, one at each end, and both are in `sub`; an id in brackets has none
  · obtain ⟨count, first, last, -⟩ := count_token token
    simp only [same, List.count_append, signs] at count
    constructor
    · cases front with
      | nil => rfl
      | cons c rest =>
        simp only [same, List.cons_append, List.head?_cons, Option.some.injEq] at first
        rw [first, List.count_cons_self] at count
        omega
    · rcases List.eq_nil_or_concat back with rfl | ⟨rest, c, rfl⟩
      · rfl
      · simp only [same, List.concat_eq_append, ← List.append_assoc, List.getLast?_concat,
          Option.some.injEq] at last
        rw [last, List.concat_eq_append, List.count_append, List.count_singleton_self] at count
        omega
  · have isId := (specialId?_eq_some special).1
    rw [bracketed, List.mem_append, List.mem_append] at inside
    rcases inside with (bracket | inside) | bracket
    · exact absurd (List.eq_of_mem_replicate bracket) (by decide)
    · exact absurd rfl (plain_of_isAlphanum (isId.isAlphanum _ inside)).2.2.1
    · exact absurd (List.eq_of_mem_replicate bracket) (by decide)

/-- Around an id in brackets there is nothing in a name of a folder but more brackets. -/
theorem eq_bracket_of_brackets {front sub back : List Char} (opens : sub.head? = some '[')
    (closes : sub.getLast? = some ']') (special : specialId? name = some id)
    (same : name.toList = front ++ (sub ++ back)) :
    (∀ c ∈ front, c = '[') ∧ ∀ c ∈ back, c = ']' := by
  obtain ⟨rest, rfl⟩ := List.head?_eq_some_iff.mp opens
  obtain ⟨before, ends⟩ := List.getLast?_eq_some_iff.mp closes
  rcases exists_spelling special with token | ⟨opening, closing, bracketed⟩
  · exact absurd (by simp [same]) (count_token token).2.2.2
  · have isId := (specialId?_eq_some special).1
    have plain := fun c inside => plain_of_isAlphanum (isId.isAlphanum c inside)
    have left : '[' ∉ id.toList := fun inside => (plain _ inside).2.2.2.2.1 rfl
    have right : ']' ∉ id.toList := fun inside => (plain _ inside).2.2.2.2.2 rfl
    rw [bracketed] at same
    have opened : front ++ '[' :: (rest ++ back) =
        List.replicate opening '[' ++ (id.toList ++ List.replicate closing ']') := by
      simpa using same.symm
    have closed : (front ++ before) ++ ']' :: back =
        (List.replicate opening '[' ++ id.toList) ++ List.replicate closing ']' := by
      rw [same, ends]
      simp
    exact ⟨Text.eq_of_mem_front opened (by simp [left]),
      Text.eq_of_mem_back closed (by simp [right])⟩

/-- A name that spells a folder after one replacement does so before. -/
theorem isSpecial_of_replace {entry : String × String} (mem : entry ∈ wideSpellings)
    (special : specialId? (String.ofList
      (Text.replace entry.1.toList entry.2.toList name.toList)) = some id) :
    isSpecial name = true := by
  obtain ⟨isSpelling, shape⟩ := wideSpellings_shape entry mem
  obtain ⟨nonempty, put, -, -⟩ := areInner_wideSpellings entry mem
  by_cases found : entry.1.toList <:+: name.toList
  · obtain ⟨front, back, split, replaced⟩ := Text.exists_replace_eq nonempty found
    have same : (String.ofList (Text.replace entry.1.toList entry.2.toList name.toList)).toList =
        front ++ (entry.2.toList ++ Text.replace entry.1.toList entry.2.toList back) := by
      rw [String.toList_ofList, replaced]
    rcases shape with signs | ⟨opens, closes, narrow, isId, bracketed⟩
    · obtain ⟨rfl, none⟩ := eq_nil_of_token signs special same
      obtain rfl := (Text.replace_eq_nil put).mp none
      have whole : name = entry.1 := String.toList_injective (by simpa using split)
      exact whole ▸ isSpelling
    · obtain ⟨before, behind⟩ := eq_bracket_of_brackets opens closes special same
      -- behind the id only brackets are left, so nothing is replaced there
      have absent : ¬ entry.1.toList <:+: back := fun inside => by
        have opening := (Text.infix_replace nonempty inside).subset
          (List.mem_of_head? opens)
        exact absurd (behind _ opening) (by decide)
      rw [Text.replace_of_not_isInfix absent] at behind
      have allBrackets : name.toList = List.replicate (front.length + 1) '[' ++ narrow.toList ++
          List.replicate (back.length + 1) ']' := by
        rw [split, bracketed, List.replicate_succ', List.replicate_succ,
          ← List.eq_replicate_of_mem before, ← List.eq_replicate_of_mem behind]
        simp
      rw [isSpecial, specialId?_brackets (forall_narrow narrow isId).1 allBrackets]
      rfl
  · rw [Text.replace_of_not_isInfix found, String.ofList_toList] at special
    rw [isSpecial, special]
    rfl

/-- The replacements make a special folder of nothing else. -/
theorem isSpecial_of_replaceEach (special : isSpecial (replaceEach wideSpellings name) = true) :
    isSpecial name = true := by
  have each : ∀ entries, (∀ entry ∈ entries, entry ∈ wideSpellings) → ∀ name,
      isSpecial (replaceEach entries name) = true → isSpecial name = true := by
    intro entries among
    induction entries with
    | nil => exact fun name special => by rwa [replaceEach_nil] at special
    | cons entry rest ih =>
      intro name special
      rw [List.forall_mem_cons] at among
      rw [replaceEach_cons] at special
      obtain ⟨id, found⟩ := Option.isSome_iff_exists.mp (ih among.2 _ special)
      exact isSpecial_of_replace among.1 found
  exact each wideSpellings (fun _ mem => mem) name special

/-! ## Spellings -/

/-- Two spellings of one name or path, where a special folder keeps its spelling. -/
structure Respells (name name' : String) : Prop where
  components : components name = components name'
  special : ∀ first, LogicalPath.components name = [first] → isSpecial first = true → name = name'

/-- Two spellings of one path, where a single name keeps its spelling. -/
structure RespellsPath (name name' : String) : Prop where
  components : components name = components name'
  single : (LogicalPath.components name).length ≤ 1 → name = name'

/-- Two names that lead to the same folder, special or not. -/
structure SameFolder (name name' : String) : Prop where
  components : components name = components name'
  specialId : specialId? name = specialId? name'

variable {name' : String}

theorem SameFolder.refl (name : String) : SameFolder name name :=
  ⟨rfl, rfl⟩

theorem Respells.symm (respells : Respells name name') : Respells name' name :=
  ⟨respells.components.symm, fun first single special =>
    (respells.special first (respells.components.trans single) special).symm⟩

theorem RespellsPath.respells (respells : RespellsPath name name') : Respells name name' :=
  ⟨respells.components, fun _ single _ => respells.single (by simp [single])⟩

theorem Respells.specialId?_eq_none (respells : Respells name name') (differ : name ≠ name') :
    specialId? name = none := by
  by_contra special
  obtain ⟨id, found⟩ := Option.ne_none_iff_exists'.mp special
  exact differ (respells.special name (isName_of_specialId? found).components_eq
    (Option.isSome_iff_exists.mpr ⟨id, found⟩))

theorem Respells.sameFolder (respells : Respells name name') : SameFolder name name' := by
  refine ⟨respells.components, ?_⟩
  by_cases same : name = name'
  · rw [same]
  · rw [respells.specialId?_eq_none same, respells.symm.specialId?_eq_none (Ne.symm same)]

/-- A bare narrow id is spelled in one way only. -/
theorem Respells.not_isNarrow (respells : Respells name name') (differ : name ≠ name') :
    ¬ IsNarrow name := fun narrow => by
  have special := specialId?_of_isFolderId (forall_narrow name narrow).1
  rw [respells.specialId?_eq_none differ] at special
  cases special

theorem Respells.components_widen (respells : Respells name name') (differ : name ≠ name') :
    LogicalPath.components (widen name) =
        (LogicalPath.components name).map (replaceEach wideSpellings) ∧
      LogicalPath.components (widen name') =
        (LogicalPath.components name).map (replaceEach wideSpellings) := by
  rw [Folder.components_widen (respells.not_isNarrow differ),
    Folder.components_widen (respells.symm.not_isNarrow differ.symm), respells.components]
  exact ⟨rfl, rfl⟩

theorem Respells.widen (respells : Respells name name') :
    Respells (widen name) (Folder.widen name') := by
  by_cases same : name = name'
  · subst same
    exact ⟨rfl, fun _ _ _ => rfl⟩
  · obtain ⟨wide, wide'⟩ := respells.components_widen same
    refine ⟨wide.trans wide'.symm, fun first single special => ?_⟩
    rw [wide, List.map_eq_singleton_iff] at single
    obtain ⟨first, single, rfl⟩ := single
    exact absurd (respells.special first single (isSpecial_of_replaceEach special)) same

theorem RespellsPath.widen (respells : RespellsPath name name') :
    RespellsPath (widen name) (Folder.widen name') := by
  by_cases same : name = name'
  · subst same
    exact ⟨rfl, fun _ => rfl⟩
  · obtain ⟨wide, wide'⟩ := respells.respells.components_widen same
    refine ⟨wide.trans wide'.symm, fun single => ?_⟩
    rw [wide, List.length_map] at single
    exact absurd (respells.single single) same

end Folder

end Installer
