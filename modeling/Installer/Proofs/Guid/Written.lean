import Installer.Guid.Basic
import Installer.Proofs.Text.Hex

/-! # The written form of a GUID is read as the GUID

A GUID is written in groups of digits.  The digits of all groups together are its own, and no digit
is a mark of another written form, so that only one way of reading applies.
-/

namespace Installer.Guid

theorem digitChar_ne : ∀ d < 16, Nat.digitChar d ≠ '-' ∧ Nat.digitChar d ≠ '{' ∧
    (Nat.digitChar d).toLower ≠ 'u' := by
  decide

theorem length_digits (guid : Guid) : guid.digits.length = 32 :=
  Text.Hex.length_ofNat 32 _

theorem ofDigits?_digits (guid : Guid) : ofDigits? guid.digits = some guid := by
  have fits : guid.bits.toNat < 16 ^ 32 := guid.bits.isLt
  rw [ofDigits?, digits, Text.Hex.length_ofNat, Text.Hex.toNat?_ofNat fits]
  simp

/-! ## Groups -/

theorem flatten_groups :
    ∀ (sizes : List Nat) (digits : List Char), sizes.sum = digits.length →
      (groups sizes digits).flatten = digits ∧ (groups sizes digits).map List.length = sizes
  | [], digits, total => by
    rw [List.sum_nil] at total
    simp [groups, List.length_eq_zero_iff.mp total.symm]
  | size :: sizes, digits, total => by
    rw [List.sum_cons] at total
    have left : sizes.sum = (digits.drop size).length := by
      rw [List.length_drop]
      omega
    obtain ⟨flat, lengths⟩ := flatten_groups sizes (digits.drop size) left
    simp only [groups, List.flatten_cons, List.map_cons, flat, lengths, List.take_append_drop]
    simp
    omega

theorem mem_of_mem_groups {c : Char} :
    ∀ {sizes : List Nat} {digits group : List Char}, group ∈ groups sizes digits → c ∈ group →
      c ∈ digits
  | size :: sizes, digits, group, mem, inside => by
    rw [groups, List.mem_cons] at mem
    cases mem with
    | inl same => exact List.mem_of_mem_take (same ▸ inside)
    | inr mem => exact List.mem_of_mem_drop (mem_of_mem_groups mem inside)

theorem ofHyphenated?_hyphenated (guid : Guid) : ofHyphenated? guid.hyphenated = some guid := by
  obtain ⟨flat, lengths⟩ := flatten_groups groupSizes guid.digits (by rw [length_digits]; rfl)
  have plain : ∀ group ∈ groups groupSizes guid.digits, '-' ∉ group := by
    intro group mem hyphen
    obtain ⟨d, small, same⟩ := Text.Hex.mem_ofNat (mem_of_mem_groups mem hyphen)
    exact (digitChar_ne d small).1 same.symm
  have parts : guid.hyphenated.splitOnP (· == '-') = groups groupSizes guid.digits :=
    List.splitOn_intercalate '-' plain (List.cons_ne_nil _ _)
  simp only [ofHyphenated?, parts, lengths, flat, if_pos, ofDigits?_digits]

/-! ## The written form -/

theorem hyphenated_eq_cons (guid : Guid) :
    ∃ d < 16, ∃ rest, guid.hyphenated = Nat.digitChar d :: rest := by
  obtain ⟨rest, digits⟩ :
      ∃ rest, guid.digits = Nat.digitChar (guid.bits.toNat / 16 ^ 31 % 16) :: rest :=
    ⟨_, Text.Hex.ofNat_succ 31 _⟩
  refine ⟨guid.bits.toNat / 16 ^ 31 % 16, Nat.mod_lt _ (by decide),
    rest.take 7 ++ '-' :: ['-'].intercalate (groups [4, 4, 4, 12] (guid.digits.drop 8)), ?_⟩
  simp [hyphenated, groups, groupSizes, digits, List.intercalate, List.intersperse]

theorem length_hyphenated (guid : Guid) : guid.hyphenated.length = 36 := by
  simp [hyphenated, groups, groupSizes, List.intercalate, List.intersperse, length_digits]

theorem nameSpace_eq : nameSpace = 'u' :: "rn:uuid:".toList := by
  decide

theorem ofString?_toString (guid : Guid) : ofString? (toString guid) = some guid := by
  obtain ⟨d, small, rest, chars⟩ := hyphenated_eq_cons guid
  obtain ⟨-, notBrace, notU⟩ := digitChar_ne d small
  have text : (toString guid).toList = guid.hyphenated := String.toList_ofList
  have notName : ¬ Text.lowerAscii (guid.hyphenated.take nameSpace.length) = nameSpace := by
    intro same
    have first := congrArg List.head? same
    rw [chars, nameSpace_eq, List.length_cons, List.take_succ_cons, Text.lowerAscii, List.map_cons,
      List.head?_cons, List.head?_cons, Option.some.injEq] at first
    exact notU first
  rw [ofString?, text]
  split
  next brace =>
    rw [chars, List.cons.injEq] at brace
    exact absurd brace.1 notBrace
  next =>
    have length : ¬ guid.hyphenated.length = 32 := by
      rw [length_hyphenated]
      decide
    rw [if_neg length, if_neg notName, ofHyphenated?_hyphenated]

end Installer.Guid
