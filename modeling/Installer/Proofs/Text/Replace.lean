import Installer.Text.Search
import Mathlib.Data.List.Basic

/-! # Replacing inside the parts of a text

A replacement never reaches over a character that its pattern does not have.  So a text that is cut
at separators can be replaced in before it is cut or after, as long as neither the pattern nor what
is put in has separators (`splitOnP_replace`).
-/

namespace Installer.Text

variable {pattern sub : List Char} {isSep : Char → Bool}

/-! ## Patterns -/

theorem isPrefixOf_append_cons {c : Char} (other : c ∉ pattern) (front back : List Char) :
    pattern.isPrefixOf (front ++ c :: back) = pattern.isPrefixOf front := by
  induction pattern generalizing front with
  | nil => simp
  | cons first rest ih =>
    simp only [List.mem_cons, not_or] at other
    cases front with
    | nil => simp [List.isPrefixOf, Ne.symm other.1]
    | cons x front => simp [List.isPrefixOf, ih other.2]

theorem isPrefixOf_nil (nonempty : pattern ≠ []) : pattern.isPrefixOf [] = false := by
  cases pattern with
  | nil => exact absurd rfl nonempty
  | cons first rest => rfl

/-! ## Replacements -/

theorem replaceAfter_append_cons {c : Char} (nonempty : pattern ≠ []) (other : c ∉ pattern)
    {skip : Nat} {front : List Char} (enough : skip ≤ front.length) (back : List Char) :
    replaceAfter pattern sub skip (front ++ c :: back) =
      replaceAfter pattern sub skip front ++ c :: replaceAfter pattern sub 0 back := by
  induction front generalizing skip with
  | nil =>
    have missing : pattern.isPrefixOf (c :: back) = false :=
      (isPrefixOf_append_cons other [] back).trans (isPrefixOf_nil nonempty)
    cases Nat.le_zero.mp enough
    simp [replaceAfter, missing]
  | cons x front ih =>
    cases skip with
    | succ skip =>
      simp only [List.length_cons, Nat.add_le_add_iff_right] at enough
      exact ih enough
    | zero =>
      have same := isPrefixOf_append_cons other (x :: front) back
      rw [List.cons_append] at same
      simp only [List.cons_append, replaceAfter, same]
      split
      next here =>
        -- the pattern ends before the character that it does not have
        have length := (List.isPrefixOf_iff_prefix.mp here).length_le
        simp only [List.length_cons] at length
        rw [ih (by omega), List.append_assoc]
      next =>
        rw [ih (Nat.zero_le _)]
        rfl

theorem mem_replaceAfter {c : Char} {skip : Nat} {text : List Char}
    (mem : c ∈ replaceAfter pattern sub skip text) : c ∈ text ∨ c ∈ sub := by
  induction text generalizing skip with
  | nil =>
    cases skip <;> cases mem
  | cons x rest ih =>
    cases skip with
    | succ skip => exact (ih mem).imp_left (List.mem_cons_of_mem _)
    | zero =>
      rw [replaceAfter] at mem
      split at mem
      next =>
        cases List.mem_append.mp mem with
        | inl put => exact .inr put
        | inr later => exact (ih later).imp_left (List.mem_cons_of_mem _)
      next =>
        cases List.mem_cons.mp mem with
        | inl here => exact .inl (here ▸ List.mem_cons_self ..)
        | inr later => exact (ih later).imp_left (List.mem_cons_of_mem _)

theorem replace_eq_nil (put : sub ≠ []) {text : List Char} :
    replace pattern sub text = [] ↔ text = [] := by
  cases text with
  | nil => simp [replace, replaceAfter]
  | cons x rest =>
    simp only [replace, replaceAfter]
    split <;> simp [put]

theorem replace_of_not_isInfix {text : List Char} (absent : ¬ pattern <:+: text) :
    replace pattern sub text = text := by
  rw [replace]
  induction text with
  | nil => rfl
  | cons x rest ih =>
    have notHere : pattern.isPrefixOf (x :: rest) = false := by
      rw [← Bool.not_eq_true, List.isPrefixOf_iff_prefix]
      exact fun here => absent here.isInfix
    rw [replaceAfter, notHere, ih fun later => absent (List.infix_cons later)]
    rfl

theorem replace_eq_self {c : Char} (inside : c ∈ pattern) {text : List Char} (absent : c ∉ text) :
    replace pattern sub text = text :=
  replace_of_not_isInfix fun found => absent (found.subset inside)

theorem replaceAfter_length (front back : List Char) :
    replaceAfter pattern sub front.length (front ++ back) = replaceAfter pattern sub 0 back := by
  induction front with
  | nil => rfl
  | cons x front ih => exact ih

theorem replace_append (nonempty : pattern ≠ []) (text : List Char) :
    replace pattern sub (pattern ++ text) = sub ++ replace pattern sub text := by
  cases pattern with
  | nil => exact absurd rfl nonempty
  | cons first rest =>
    have here : (first :: rest).isPrefixOf (first :: (rest ++ text)) = true :=
      List.isPrefixOf_iff_prefix.mpr (List.prefix_append (first :: rest) text)
    rw [replace, List.cons_append, replaceAfter, if_pos here, List.length_cons,
      Nat.add_sub_cancel, replaceAfter_length, replace]

theorem replace_cons {c : Char} {rest : List Char}
    (missing : pattern.isPrefixOf (c :: rest) = false) :
    replace pattern sub (c :: rest) = c :: replace pattern sub rest := by
  rw [replace, replaceAfter, missing]
  rfl

/-- An argument that goes over a text the way a replacement does. -/
@[elab_as_elim]
theorem replace_induction (nonempty : pattern ≠ []) {motive : List Char → Prop} (nil : motive [])
    (here : ∀ text, motive text → motive (pattern ++ text))
    (there : ∀ c rest, pattern.isPrefixOf (c :: rest) = false → motive rest → motive (c :: rest))
    (text : List Char) : motive text := by
  induction length : text.length using Nat.strongRecOn generalizing text with
  | ind n ih =>
    cases text with
    | nil => exact nil
    | cons c rest =>
      cases found : pattern.isPrefixOf (c :: rest) with
      | false => exact there c rest found (ih _ (by simp [← length]) rest rfl)
      | true =>
        obtain ⟨back, same⟩ := List.isPrefixOf_iff_prefix.mp found
        have shorter : back.length < n := by
          have positive := List.length_pos_iff.mpr nonempty
          have total := congrArg List.length same
          rw [List.length_append, length] at total
          omega
        exact same ▸ here back (ih _ shorter back rfl)

/-! ## What is found and what is kept -/

/-- Where the pattern is found, its substitute is put in. -/
theorem infix_replace (nonempty : pattern ≠ []) {text : List Char} (found : pattern <:+: text) :
    sub <:+: replace pattern sub text := by
  induction text using replace_induction nonempty with
  | nil => exact absurd (List.infix_nil.mp found) nonempty
  | here text ih =>
    rw [replace_append nonempty]
    exact (List.prefix_append ..).isInfix
  | there c rest missing ih =>
    rw [replace_cons missing]
    cases List.infix_cons_iff.mp found with
    | inl front =>
      rw [List.isPrefixOf_iff_prefix.mpr front] at missing
      cases missing
    | inr later => exact List.infix_cons (ih later)

/-- A character stays in a text if it is in the substitute whenever it is in the pattern. -/
theorem mem_replace (nonempty : pattern ≠ []) {c : Char} (kept : c ∈ pattern → c ∈ sub)
    {text : List Char} (mem : c ∈ text) : c ∈ replace pattern sub text := by
  induction text using replace_induction nonempty with
  | nil => cases mem
  | here text ih =>
    rw [replace_append nonempty, List.mem_append]
    exact (List.mem_append.mp mem).imp kept ih
  | there x rest missing ih =>
    rw [replace_cons missing, List.mem_cons]
    exact (List.mem_cons.mp mem).imp_right ih

theorem replace_append_of_notMem {c : Char} {more front : List Char} (absent : c ∉ front)
    (back : List Char) :
    replace (c :: more) sub (front ++ back) = front ++ replace (c :: more) sub back := by
  induction front with
  | nil => rfl
  | cons x front ih =>
    simp only [List.mem_cons, not_or] at absent
    have missing : (c :: more).isPrefixOf (x :: (front ++ back)) = false := by
      simp [List.isPrefixOf, absent.1]
    rw [List.cons_append, replace_cons missing, ih absent.2, List.cons_append]

/-- A block reaches over no character that it does not have. -/
theorem infix_of_infix_append_cons {c : Char} {block front back : List Char} (absent : c ∉ block)
    (found : block <:+: front ++ c :: back) : block <:+: front ∨ block <:+: back := by
  obtain ⟨before, after, same⟩ := found
  rw [List.append_assoc, List.append_eq_append_iff] at same
  rcases same with ⟨mid, rfl, inside⟩ | ⟨mid, rfl, inside⟩
  · -- the block begins before the character, so it ends there too
    left
    rcases List.append_eq_append_iff.mp inside with ⟨rest, rfl, -⟩ | ⟨rest, rfl, beyond⟩
    · exact ⟨before, rest, by simp⟩
    · cases rest with
      | nil => exact ⟨before, [], by simp⟩
      | cons x rest =>
        obtain ⟨rfl, -⟩ := List.cons.inj beyond
        simp at absent
  · right
    cases mid with
    | cons x mid =>
      obtain ⟨-, rfl⟩ := List.cons.inj inside
      exact ⟨mid, after, by simp⟩
    | nil =>
      cases block with
      | nil => exact List.nil_infix
      | cons x block =>
        obtain ⟨rfl, -⟩ := List.cons.inj inside
        simp at absent

/-- A block without the delimiter of the pattern stays, unless it is inside the pattern. -/
theorem infix_replace_of_isInfix {c : Char} {inner block : List Char} (absent : c ∉ block)
    (outside : ¬ block <:+: inner) {text : List Char} (found : block <:+: text) :
    block <:+: replace (c :: (inner ++ [c])) sub text := by
  have nonempty : c :: (inner ++ [c]) ≠ [] := List.cons_ne_nil _ _
  induction text using replace_induction nonempty with
  | nil => exact found
  | here text ih =>
    have later : block <:+: text := by
      have cut : c :: (inner ++ [c]) ++ text = [] ++ c :: (inner ++ c :: text) := by simp
      rw [cut] at found
      rcases infix_of_infix_append_cons absent found with empty | beyond
      · exact List.infix_nil.mp empty ▸ List.nil_infix
      · exact (infix_of_infix_append_cons absent beyond).resolve_left outside
    rw [replace_append nonempty]
    exact (ih later).trans (List.suffix_append ..).isInfix
  | there x rest missing ih =>
    cases List.infix_cons_iff.mp found with
    | inl here =>
      obtain ⟨back, same⟩ := here
      rw [← same, replace_append_of_notMem absent]
      exact (List.prefix_append ..).isInfix
    | inr later =>
      rw [replace_cons missing]
      exact List.infix_cons (ih later)

/-! ## What is put in -/

/-- A block without the first character of the substitute begins a text only if it did before. -/
theorem prefix_of_prefix_replace {x : Char} {more block : List Char} (nonempty : pattern ≠ [])
    (absent : x ∉ block) {text : List Char} (front : block <+: replace pattern (x :: more) text) :
    block <+: text := by
  induction text using replace_induction nonempty generalizing block with
  | nil => exact front
  | here text ih =>
    rw [replace_append nonempty, List.cons_append] at front
    cases block with
    | nil => exact List.nil_prefix
    | cons c block =>
      obtain ⟨rfl, -⟩ := List.cons_prefix_cons.mp front
      simp at absent
  | there c rest missing ih =>
    rw [replace_cons missing] at front
    cases block with
    | nil => exact List.nil_prefix
    | cons d block =>
      obtain ⟨rfl, later⟩ := List.cons_prefix_cons.mp front
      simp only [List.mem_cons, not_or] at absent
      exact List.cons_prefix_cons.mpr ⟨rfl, ih absent.2 later⟩

/-- A block without the delimiters of the substitute is found only where it was before, and it is
not what has been replaced. -/
theorem infix_of_infix_replace {x y : Char} {inner block : List Char} (nonempty : pattern ≠ [])
    (opening : x ∉ block) (closing : y ∉ block) (outside : ¬ block <:+: inner) {text : List Char}
    (found : block <:+: replace pattern (x :: (inner ++ [y])) text) :
    block <:+: text ∧ block ≠ pattern := by
  have notEmpty : ¬ block <:+: [] := fun empty => outside (List.infix_nil.mp empty ▸ List.nil_infix)
  induction text using replace_induction nonempty with
  | nil => exact absurd found notEmpty
  | here text ih =>
    rw [replace_append nonempty, List.cons_append, List.append_assoc, ← List.nil_append (x :: _)]
      at found
    have behind := (infix_of_infix_append_cons opening found).resolve_left notEmpty
    have later := (infix_of_infix_append_cons closing behind).resolve_left outside
    exact ⟨(ih later).1.trans (List.suffix_append ..).isInfix, (ih later).2⟩
  | there c rest missing ih =>
    have kept : replace pattern (x :: (inner ++ [y])) (c :: rest) =
        c :: replace pattern (x :: (inner ++ [y])) rest := replace_cons missing
    rw [kept] at found
    cases List.infix_cons_iff.mp found with
    | inl front =>
      rw [← kept] at front
      have here := prefix_of_prefix_replace nonempty opening front
      refine ⟨here.isInfix, ?_⟩
      rintro rfl
      rw [List.isPrefixOf_iff_prefix.mpr here] at missing
      cases missing
    | inr later => exact ⟨List.infix_cons (ih later).1, (ih later).2⟩

/-! ## Cutting -/

/-- What is cut out of a text has no separators. -/
theorem not_isSep_of_mem_splitOnP {text part : List Char} (mem : part ∈ text.splitOnP isSep) :
    ∀ c ∈ part, isSep c = false := by
  induction text generalizing part with
  | nil =>
    rw [List.splitOnP_nil, List.mem_singleton] at mem
    subst mem
    simp
  | cons x rest ih =>
    rw [List.splitOnP_cons_eq_if_modifyHead] at mem
    split at mem
    next =>
      cases List.mem_cons.mp mem with
      | inl here => simp [here]
      | inr later => exact ih later
    next plain =>
      cases split : rest.splitOnP isSep with
      | nil => simp [split] at mem
      | cons first others =>
        rw [split, List.modifyHead_cons, List.mem_cons] at mem
        cases mem with
        | inl here =>
          subst here
          have inside := ih (split ▸ List.mem_cons_self ..)
          simpa using ⟨by simpa using plain, inside⟩
        | inr later => exact ih (split ▸ List.mem_cons_of_mem _ later)

theorem splitOnP_replace (nonempty : pattern ≠ []) (plain : ∀ c ∈ pattern, isSep c = false)
    (plainSub : ∀ c ∈ sub, isSep c = false) (text : List Char) :
    (replace pattern sub text).splitOnP isSep =
      (text.splitOnP isSep).map (replace pattern sub) := by
  induction length : text.length using Nat.strongRecOn generalizing text with
  | ind n ih =>
    by_cases separated : ∃ c ∈ text, isSep c = true
    · obtain ⟨c, mem, isSep_⟩ := separated
      obtain ⟨front, back, rfl⟩ := List.append_of_mem mem
      have other : c ∉ pattern := fun inside => by simp [plain c inside] at isSep_
      have cut : replace pattern sub (front ++ c :: back) =
          replace pattern sub front ++ c :: replace pattern sub back :=
        replaceAfter_append_cons nonempty other (Nat.zero_le _) back
      simp only [List.length_append, List.length_cons] at length
      rw [cut, List.splitOnP_append_cons _ _ isSep_, List.splitOnP_append_cons _ _ isSep_,
        List.map_append, ih front.length (by omega) front rfl, ih back.length (by omega) back rfl]
    · -- without separators nothing is cut, before and after
      have missing : ∀ c ∈ text, isSep c = false := fun c mem => by
        simpa using fun isSep_ => separated ⟨c, mem, isSep_⟩
      have none' : ∀ c ∈ replace pattern sub text, isSep c = false := fun c mem =>
        (mem_replaceAfter mem).elim (missing c) (plainSub c)
      rw [List.splitOnP_eq_singleton missing, List.splitOnP_eq_singleton none']
      rfl

end Installer.Text
