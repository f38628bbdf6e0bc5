import Installer.Json.Printer
import Installer.Json.Reader
import Installer.Proofs.Text.Hex

/-! # Printed values are read back

A character is printed as itself or as an escape, and either way read as itself.  The digits of a
whole number are read as the number as long as it fits a machine word, and reading stops where they
end.  A value that is plain, with names for keys and whole numbers that fit a machine word, is read
back from what is printed for it if and only if it nests no deeper than the reader allows
(`value?_chars`).
-/

namespace Installer.Json

open Reader

/-! ## Strings -/

theorem ofCode?_toNat (c : Char) : ofCode? c.toNat = some c := by
  have valid : c.toNat.isValidChar := c.valid
  rw [ofCode?, if_pos valid, Char.ofNat_toNat]

theorem stringFrom_unicode {c : Char} (small : c.toNat < 16 ^ 4) (done tail : List Char) :
    stringFrom done ('\\' :: 'u' :: (Text.Hex.ofNat 4 c.toNat ++ tail)) =
      stringFrom (c :: done) tail := by
  obtain ⟨a, b, d, e, digits⟩ : ∃ a b d e, Text.Hex.ofNat 4 c.toNat = [a, b, d, e] :=
    ⟨_, _, _, _, rfl⟩
  have number : Text.Hex.toNat? [a, b, d, e] = some c.toNat := by
    rw [← digits, Text.Hex.toNat?_ofNat small]
  rw [digits]
  simp only [List.cons_append, List.nil_append]
  rw [stringFrom, number]
  simp [ofCode?_toNat]

theorem stringFrom_escapeChar (c : Char) (done tail : List Char) :
    stringFrom done (escapeChar c ++ tail) = stringFrom (c :: done) tail := by
  unfold escapeChar
  split
  case h_8 quote backslash _ _ _ _ _ =>
    split
    next small => exact stringFrom_unicode (by omega) done tail
    next large =>
      rw [List.singleton_append, stringFrom, if_neg large]
      · exact quote
      · intro _ _ _ _ _ same
        exact absurd same backslash
      · intro _ _ same
        exact absurd same backslash
  all_goals simp [stringFrom, escaped?]

theorem stringFrom_quoted (text : List Char) :
    ∀ done rest : List Char,
      stringFrom done (text.flatMap escapeChar ++ '"' :: rest) =
        some (String.ofList (done.reverse ++ text), rest) := by
  induction text with
  | nil => intro done rest; simp [stringFrom]
  | cons c text ih =>
    intro done rest
    rw [List.flatMap_cons, List.append_assoc, stringFrom_escapeChar, ih]
    simp

theorem string?_quoted (s : String) (rest : List Char) :
    string? (s.toList.flatMap escapeChar ++ '"' :: rest) = some (s, rest) := by
  rw [string?, stringFrom_quoted]
  simp

/-! ## Whole numbers -/

/-- What follows a value in a printed text: nothing, or a mark that ends it. -/
def Ends (rest : List Char) : Prop :=
  ∀ c ∈ rest.head?, c = ',' ∨ c = ']' ∨ c = '}'

theorem Ends.nil : Ends [] :=
  nofun

theorem head?_toDigits_ne_zero (n : Nat) (positive : 0 < n) :
    (Nat.toDigits 10 n).head? ≠ some '0' := by
  induction n using Nat.strongRecOn with
  | ind n ih =>
    by_cases small : n < 10
    · rw [Nat.toDigits_of_lt_base small]
      have digits : ∀ d < 10, 0 < d → [Nat.digitChar d].head? ≠ some '0' := by decide
      exact digits n small positive
    · have front := ih (n / 10) (by omega) (by omega)
      rw [Nat.toDigits_of_base_le (by decide) (by omega)]
      cases digits : Nat.toDigits 10 (n / 10) with
      | nil => exact absurd digits Nat.toDigits_ne_nil
      | cons c rest => simpa [digits] using front

theorem isDigit_of_mem_toDigits {c : Char} {n : Nat} (mem : c ∈ Nat.toDigits 10 n) :
    c.isDigit = true :=
  Nat.isDigit_of_mem_toDigits (by decide) (by decide) mem

theorem digits?_toDigits (n : Nat) {rest : List Char} (ends : Ends rest) :
    digits? (Nat.toDigits 10 n ++ rest) = some (Nat.toDigits 10 n, rest) := by
  have stop : rest.takeWhile Char.isDigit = [] ∧ rest.dropWhile Char.isDigit = rest := by
    cases rest with
    | nil => exact ⟨rfl, rfl⟩
    | cons c rest => rcases ends c rfl with rfl | rfl | rfl <;> simp
  have all : ∀ c ∈ Nat.toDigits 10 n, c.isDigit = true := fun c => isDigit_of_mem_toDigits
  rw [digits?, List.takeWhile_append_of_pos all, List.dropWhile_append_of_pos all, stop.1, stop.2,
    List.append_nil]
  split
  next none => exact absurd none Nat.toDigits_ne_nil
  next => rfl

theorem whole?_toDigits (n : Nat) {rest : List Char} (ends : Ends rest) :
    whole? (Nat.toDigits 10 n ++ rest) = some (Nat.toDigits 10 n, rest) := by
  rw [whole?, digits?_toDigits n ends]
  split
  next zeros =>
    -- a number whose digits begin with a zero is zero, and has no digit behind it
    cases n with
    | zero => simp [Nat.toDigits_zero] at zeros
    | succ n =>
      simp only [Option.some.injEq, Prod.mk.injEq] at zeros
      have first := head?_toDigits_ne_zero (n + 1) (Nat.succ_pos n)
      simp [zeros.1] at first
  next => rfl

theorem le_ofDigitChars (digits : List Char) : ∀ n, n ≤ Nat.ofDigitChars 10 digits n := by
  induction digits with
  | nil => intro n; rfl
  | cons c digits ih =>
    intro n
    rw [Nat.ofDigitChars_cons]
    exact Nat.le_trans (by omega) (ih _)

theorem absorb_eq (digits : List Char) :
    ∀ n, Nat.ofDigitChars 10 digits n < UInt64.size →
      absorb n digits = (Nat.ofDigitChars 10 digits n, []) := by
  induction digits with
  | nil => intro n _; rfl
  | cons c digits ih =>
    intro n fits
    rw [Nat.ofDigitChars_cons] at fits ⊢
    have small := Nat.lt_of_le_of_lt (le_ofDigitChars digits _) fits
    rw [absorb, if_pos small, ih _ fits]

theorem numberParts?_toDigits (n : Nat) {rest : List Char} (ends : Ends rest) :
    numberParts? (Nat.toDigits 10 n ++ rest) = some (⟨Nat.toDigits 10 n, [], none⟩, rest) := by
  have noFraction : fraction? rest = some ([], rest) := by
    unfold fraction?
    split
    next => rcases ends _ rfl with h | h | h <;> cases h
    next => rfl
  have noExponent : exponent? rest = some (none, rest) := by
    unfold exponent?
    split
    next => rcases ends _ rfl with h | h | h <;> cases h
    next => rcases ends _ rfl with h | h | h <;> cases h
    next => rfl
  simp [numberParts?, whole?_toDigits n ends, noFraction, noExponent]

theorem number?_toDigits {n : Nat} (fits : n < UInt64.size) {rest : List Char} (ends : Ends rest) :
    number? (Nat.toDigits 10 n ++ rest) = some (.integer false n, rest) := by
  have noSign : sign (Nat.toDigits 10 n ++ rest) = (false, Nat.toDigits 10 n ++ rest) := by
    unfold sign
    split
    next chars =>
      cases digits : Nat.toDigits 10 n with
      | nil => exact absurd digits Nat.toDigits_ne_nil
      | cons c more =>
        have isDigit : c.isDigit = true := isDigit_of_mem_toDigits (digits ▸ List.mem_cons_self)
        rw [digits, List.cons_append, List.cons.injEq] at chars
        rw [chars.1] at isDigit
        cases isDigit
    next => rfl
  have value : numberValue? false ⟨Nat.toDigits 10 n, [], none⟩ = some (.integer false n) := by
    rw [numberValue?, absorb_eq _ 0 (by rwa [Nat.ofDigitChars_ten_toDigits]),
      Nat.ofDigitChars_ten_toDigits]
    rfl
  simp [number?, noSign, numberParts?_toDigits n ends, value]

namespace Value

/-! ## Plain values and their depth -/

mutual

/-- All keys are names and all numbers whole and without sign. -/
def IsPlain : Value → Prop
  | .null | .bool _ | .string _ => True
  | .integer negative n => negative = false ∧ n < UInt64.size
  | .decimal _ _ => False
  | .array items => ArePlain items
  | .object members => HavePlain members
termination_by structural v => v

def ArePlain : List Value → Prop
  | [] => True
  | item :: rest => IsPlain item ∧ ArePlain rest
termination_by structural items => items

def HavePlain : List (Key × Value) → Prop
  | [] => True
  | (key, member) :: rest => (∃ name, key = .name name) ∧ IsPlain member ∧ HavePlain rest
termination_by structural members => members

end

theorem arePlain_iff {items : List Value} : ArePlain items ↔ ∀ item ∈ items, item.IsPlain := by
  induction items with
  | nil => simp [ArePlain]
  | cons item rest ih => simp [ArePlain, ih]

theorem havePlain_iff {members : List (Key × Value)} :
    HavePlain members ↔ ∀ member ∈ members, (∃ name, member.1 = .name name) ∧ member.2.IsPlain := by
  induction members with
  | nil => simp [HavePlain]
  | cons member rest ih => simp [HavePlain, ih, and_assoc]

theorem havePlain_append {members others : List (Key × Value)} (plain : HavePlain members)
    (plainOthers : HavePlain others) : HavePlain (members ++ others) := by
  rw [havePlain_iff] at *
  intro member mem
  cases List.mem_append.mp mem with
  | inl mem => exact plain member mem
  | inr mem => exact plainOthers member mem

mutual

def depth : Value → Nat
  | .array items => depthOfItems items + 1
  | .object members => depthOfMembers members + 1
  | _ => 0
termination_by structural v => v

def depthOfItems : List Value → Nat
  | [] => 0
  | item :: rest => max (depth item) (depthOfItems rest)
termination_by structural items => items

def depthOfMembers : List (Key × Value) → Nat
  | [] => 0
  | (_, member) :: rest => max (depth member) (depthOfMembers rest)
termination_by structural members => members

end

theorem depth_le_depthOfMembers {member : Key × Value} {members : List (Key × Value)}
    (mem : member ∈ members) : member.2.depth ≤ depthOfMembers members := by
  induction mem with
  | head => exact Nat.le_max_left _ _
  | tail _ _ ih => exact Nat.le_trans ih (Nat.le_max_right _ _)

/-! ## How a printed value begins -/

def Begins (c : Char) : Prop :=
  c ∉ [' ', '\t', '\n', '\r', ']', '}', ',']

instance : DecidablePred Begins := fun c => inferInstanceAs (Decidable (c ∉ _))

theorem chars_integer (n : Nat) : chars (.integer false n) = Nat.toDigits 10 n := by
  simp [chars]

theorem begins_of_isDigit {c : Char} (digit : c.isDigit = true) : Begins c := by
  intro mem
  simp only [List.mem_cons, List.not_mem_nil, or_false] at mem
  rcases mem with h | h | h | h | h | h | h <;> subst h <;> cases digit

theorem exists_chars {v : Value} (plain : v.IsPlain) :
    ∃ c rest, chars v = c :: rest ∧ Begins c := by
  cases v with
  | null => exact ⟨_, _, rfl, by decide⟩
  | bool b => cases b <;> exact ⟨_, _, rfl, by decide⟩
  | integer negative n =>
    cases plain.1
    cases digits : Nat.toDigits 10 n with
    | nil => exact absurd digits Nat.toDigits_ne_nil
    | cons c rest =>
      refine ⟨c, rest, by rw [chars_integer, digits], ?_⟩
      exact begins_of_isDigit (isDigit_of_mem_toDigits (digits ▸ List.mem_cons_self))
  | decimal negative x => exact absurd plain id
  | string s => exact ⟨_, _, rfl, by decide⟩
  | array items => exact ⟨_, _, rfl, by decide⟩
  | object members => exact ⟨_, _, rfl, by decide⟩

theorem exists_itemChars {item : Value} {items : List Value} (plain : item.IsPlain) :
    ∃ c rest, itemChars (item :: items) = c :: rest ∧ Begins c := by
  obtain ⟨c, rest, written, begins⟩ := exists_chars plain
  cases items with
  | nil => exact ⟨c, rest, written, begins⟩
  | cons next more => exact ⟨c, _, by rw [itemChars, written, List.cons_append], begins⟩

theorem exists_memberChars (member : Key × Value) (members : List (Key × Value)) :
    ∃ rest, memberChars (member :: members) = '"' :: rest := by
  cases members <;> exact ⟨_, rfl⟩

theorem length_le_memberChars : ∀ members : List (Key × Value),
    members.length ≤ (memberChars members).length
  | [] => Nat.le_refl 0
  | [(key, v)] => by
    simp [memberChars, quoted]
  | (key, v) :: next :: more => by
    have others := length_le_memberChars (next :: more)
    simp only [memberChars, quoted, List.length_append, List.length_cons] at others ⊢
    omega

theorem skipBlanks_cons {c : Char} (begins : Begins c) (rest : List Char) :
    skipBlanks (c :: rest) = c :: rest := by
  simp only [Begins, List.mem_cons, not_or] at begins
  simp [skipBlanks, begins]

theorem skipBlanks_chars {v : Value} (plain : v.IsPlain) (rest : List Char) :
    skipBlanks (chars v ++ rest) = chars v ++ rest := by
  obtain ⟨c, more, chars, begins⟩ := exists_chars plain
  rw [chars, List.cons_append, skipBlanks_cons begins]

/-! ## Reading -/

theorem expect?_append (word : String) (rest : List Char) :
    expect? word (word.toList ++ rest) = some rest := by
  have found : word.toList.isPrefixOf (word.toList ++ rest) = true :=
    List.isPrefixOf_iff_prefix.mpr ⟨rest, rfl⟩
  rw [expect?, if_pos found, ← String.length_toList, List.drop_left]

theorem memberName?_quoted (name : String) (rest : List Char) :
    memberName? (quoted name ++ ':' :: rest) = some (name, rest) := by
  have inside := string?_quoted name (':' :: rest)
  have colon : skipBlanks (':' :: rest) = ':' :: rest := skipBlanks_cons (by decide) rest
  simp only [quoted, List.cons_append, List.append_assoc, List.nil_append] at inside ⊢
  rw [memberName?, skipBlanks_cons (by decide)]
  simp [inside, colon]

theorem value?_of_isDigit {c : Char} (digit : c.isDigit = true) (rest : List Char)
    (limit fuel : Nat) : value? limit (fuel + 1) (c :: rest) = number? (c :: rest) := by
  rw [value?, skipBlanks_cons (begins_of_isDigit digit)]
  split
  case h_7 => rfl
  all_goals
    next same =>
      rw [List.cons.injEq] at same
      rw [same.1] at digit
      cases digit

mutual

/-- A printed value is read back if it is not too deep, and not at all otherwise. -/
theorem value?_chars : ∀ v : Value, v.IsPlain → ∀ {rest : List Char}, Ends rest →
    ∀ {limit fuel : Nat}, (chars v).length < fuel →
      value? limit fuel (chars v ++ rest) = if v.depth ≤ limit then some (v, rest) else none
  | .null, _, rest, _, limit, fuel + 1, _ => by
    simp only [value?, chars, List.cons_append, skipBlanks_cons (by decide : Begins 'n')]
    exact congrArg _ (expect?_append "ull" rest)
  | .bool true, _, rest, _, limit, fuel + 1, _ => by
    simp only [value?, chars, List.cons_append, skipBlanks_cons (by decide : Begins 't')]
    exact congrArg _ (expect?_append "rue" rest)
  | .bool false, _, rest, _, limit, fuel + 1, _ => by
    simp only [value?, chars, List.cons_append, skipBlanks_cons (by decide : Begins 'f')]
    exact congrArg _ (expect?_append "alse" rest)
  | .integer false n, plain, rest, ends, limit, fuel + 1, _ => by
    have flat : (Value.integer false n).depth ≤ limit := Nat.zero_le _
    rw [chars_integer, if_pos flat]
    cases digits : Nat.toDigits 10 n with
    | nil => exact absurd digits Nat.toDigits_ne_nil
    | cons c more =>
      have digit : c.isDigit = true := isDigit_of_mem_toDigits (digits ▸ List.mem_cons_self)
      rw [List.cons_append, value?_of_isDigit digit, ← List.cons_append, ← digits,
        number?_toDigits plain.2 ends]
  | .integer true n, plain, _, _, _, _, _ => nomatch plain.1
  | .string s, _, rest, _, limit, fuel + 1, _ => by
    have inside := string?_quoted s rest
    simp only [value?, chars, quoted, List.cons_append, List.append_assoc, List.nil_append,
      skipBlanks_cons (by decide : Begins '"'), inside]
    rfl
  | .array [], _, rest, _, limit, fuel + 1, _ => by
    simp only [value?, chars, itemChars, List.cons_append, List.nil_append,
      skipBlanks_cons (by decide : Begins '[')]
    cases limit <;> simp [skipBlanks, depth, depthOfItems]
  | .array (item :: items), plain, rest, _, limit, fuel + 1, enough => by
    obtain ⟨c, more, written, begins⟩ :
        ∃ c rest, itemChars (item :: items) = c :: rest ∧ Begins c :=
      exists_itemChars plain.1
    have notEnd : c ≠ ']' := by
      rintro rfl
      exact absurd begins (by decide)
    simp only [chars, List.length_cons, List.length_append, List.length_nil] at enough
    have inside : items? (limit - 1) fuel (itemChars (item :: items) ++ ']' :: rest) =
        if depthOfItems (item :: items) ≤ limit - 1 then some (item :: items, rest) else none :=
      items?_itemChars (item :: items) plain (List.cons_ne_nil _ _) (by omega)
    simp only [value?, chars, List.cons_append, List.append_assoc, List.nil_append,
      skipBlanks_cons (by decide : Begins '[')]
    rw [written] at inside ⊢
    rw [List.cons_append] at inside ⊢
    rw [skipBlanks_cons begins, depth]
    cases limit with
    | zero => rfl
    | succ limit =>
      rw [Nat.add_sub_cancel] at inside
      simp only [Nat.add_le_add_iff_right]
      split
      case h_1 impossible => exact absurd impossible (Nat.succ_ne_zero _)
      case h_2 same => exact absurd (List.cons.inj same).1 notEnd
      case h_3 limit' same _ =>
        cases same
        rw [inside]
        split <;> rfl
  | .object [], _, rest, _, limit, fuel + 1, _ => by
    simp only [value?, chars, memberChars, List.cons_append, List.nil_append,
      skipBlanks_cons (by decide : Begins '{')]
    cases limit <;> simp [skipBlanks, depth, depthOfMembers]
  | .object (member :: members), plain, rest, _, limit, fuel + 1, enough => by
    obtain ⟨more, written⟩ := exists_memberChars member members
    simp only [chars, List.length_cons, List.length_append, List.length_nil] at enough
    have inside : members? (limit - 1) fuel (memberChars (member :: members) ++ '}' :: rest) =
        if depthOfMembers (member :: members) ≤ limit - 1 then some (member :: members, rest)
        else none :=
      members?_memberChars (member :: members) plain (List.cons_ne_nil _ _) (by omega)
    simp only [value?, chars, List.cons_append, List.append_assoc, List.nil_append,
      skipBlanks_cons (by decide : Begins '{')]
    rw [written] at inside ⊢
    rw [List.cons_append] at inside ⊢
    rw [skipBlanks_cons (by decide : Begins '"'), depth]
    cases limit with
    | zero => rfl
    | succ limit =>
      rw [Nat.add_sub_cancel] at inside
      simp only [Nat.add_le_add_iff_right]
      split
      case h_1 impossible => exact absurd impossible (Nat.succ_ne_zero _)
      case h_2 same => exact absurd (List.cons.inj same).1 (by decide)
      case h_3 limit' same _ =>
        cases same
        rw [inside]
        split <;> rfl
termination_by structural v => v

theorem items?_itemChars : ∀ items : List Value, ArePlain items → items ≠ [] →
    ∀ {rest : List Char} {limit fuel : Nat}, (itemChars items).length + 1 < fuel →
      items? limit fuel (itemChars items ++ ']' :: rest) =
        if depthOfItems items ≤ limit then some (items, rest) else none
  | [item], plain, _, rest, limit, fuel + 1, enough => by
    rw [itemChars] at enough ⊢
    have here : value? limit fuel (chars item ++ ']' :: rest) =
        if item.depth ≤ limit then some (item, ']' :: rest) else none :=
      value?_chars item plain.1 (by simp [Ends]) (by omega)
    rw [items?, here, depthOfItems, depthOfItems, Nat.max_zero]
    by_cases flat : item.depth ≤ limit <;> simp [flat, skipBlanks]
  | item :: next :: more, plain, _, rest, limit, fuel + 1, enough => by
    simp only [itemChars, List.length_append, List.length_cons] at enough ⊢
    rw [List.append_assoc, List.cons_append]
    have here : value? limit fuel (chars item ++ ',' :: (itemChars (next :: more) ++ ']' :: rest)) =
        if item.depth ≤ limit then some (item, ',' :: (itemChars (next :: more) ++ ']' :: rest))
        else none :=
      value?_chars item plain.1 (by simp [Ends]) (by omega)
    have there : items? limit fuel (itemChars (next :: more) ++ ']' :: rest) =
        if depthOfItems (next :: more) ≤ limit then some (next :: more, rest) else none :=
      items?_itemChars (next :: more) plain.2 (List.cons_ne_nil _ _) (by omega)
    rw [items?, here, depthOfItems]
    by_cases flat : item.depth ≤ limit
    · rw [if_pos flat]
      by_cases others : depthOfItems (next :: more) ≤ limit <;>
        simp [flat, others, skipBlanks, there]
    · have deep : ¬ max item.depth (depthOfItems (next :: more)) ≤ limit := by omega
      simp [flat]
termination_by structural items => items

theorem members?_memberChars : ∀ members : List (Key × Value), HavePlain members → members ≠ [] →
    ∀ {rest : List Char} {limit fuel : Nat}, (memberChars members).length + 1 < fuel →
      members? limit fuel (memberChars members ++ '}' :: rest) =
        if depthOfMembers members ≤ limit then some (members, rest) else none
  | [(.name name, member)], plain, _, rest, limit, fuel + 1, enough => by
    simp only [memberChars, List.length_append, List.length_cons] at enough ⊢
    rw [List.append_assoc, List.cons_append]
    have here : value? limit fuel (chars member ++ '}' :: rest) =
        if member.depth ≤ limit then some (member, '}' :: rest) else none :=
      value?_chars member plain.2.1 (by simp [Ends]) (by omega)
    rw [members?, Key.text, memberName?_quoted]
    simp only [here, depthOfMembers, Nat.max_zero]
    by_cases flat : member.depth ≤ limit <;> simp [flat, skipBlanks]
  | (.name name, member) :: next :: more, plain, _, rest, limit, fuel + 1, enough => by
    simp only [memberChars, List.length_append, List.length_cons] at enough ⊢
    rw [List.append_assoc, List.cons_append, List.append_assoc, List.cons_append]
    have here : value? limit fuel
          (chars member ++ ',' :: (memberChars (next :: more) ++ '}' :: rest)) =
        if member.depth ≤ limit then
          some (member, ',' :: (memberChars (next :: more) ++ '}' :: rest))
        else none :=
      value?_chars member plain.2.1 (by simp [Ends]) (by omega)
    have there : members? limit fuel (memberChars (next :: more) ++ '}' :: rest) =
        if depthOfMembers (next :: more) ≤ limit then some (next :: more, rest) else none :=
      members?_memberChars (next :: more) plain.2.2 (List.cons_ne_nil _ _) (by omega)
    rw [members?, Key.text, memberName?_quoted, depthOfMembers]
    simp only [here]
    by_cases flat : member.depth ≤ limit
    · rw [if_pos flat]
      by_cases others : depthOfMembers (next :: more) ≤ limit <;>
        simp [flat, others, skipBlanks, there]
    · simp [flat]
  | (.place n, _) :: _, plain, _, _, _, _, _ => nomatch plain.1
  | (.stray, _) :: _, plain, _, _, _, _, _ => nomatch plain.1
termination_by structural members => members

end

end Value

end Installer.Json
