import Installer.Markup.Writer
import Installer.Proofs.Text.Lines
import Installer.Proofs.Text.Replace

/-! # CDATA sections

A content that holds the terminator is written as several sections.  None of them ends early, their
contents together are the content (`Parts`), and trimming the lines of the content is trimming those
of each section.
-/

namespace Installer.Markup

open Text (trimLines)

def cdataSection (part : List Char) : List Char :=
  cdataOpen ++ (part ++ cdataClose)

/-- Followed by a terminator, the part of a content is not ended before it. -/
def Unclosed : List Char → Prop
  | [] => True
  | c :: rest => (∀ back, cdataClose.isPrefixOf (c :: (rest ++ (cdataClose ++ back))) = false) ∧
      Unclosed rest

/-- The content is cut into parts, each between the characters of a terminator. -/
inductive Parts : List (List Char) → List Char → Prop where
  | last {part : List Char} : Unclosed part → Parts [part] part
  | cons {part more : List Char} {rest : List (List Char)} :
    Unclosed part → Parts rest ('>' :: more) → Parts (part :: rest) (part ++ '>' :: more)

/-! ## Where a section ends -/

theorem isPrefixOf_cdataClose_eq_true {text : List Char}
    (here : cdataClose.isPrefixOf text = true) :
    ∃ back, text = ']' :: ']' :: '>' :: back := by
  obtain ⟨back, rfl⟩ := List.isPrefixOf_iff_prefix.mp here
  exact ⟨back, rfl⟩

theorem Unclosed.of_append : ∀ {front back : List Char}, Unclosed (front ++ back) → Unclosed back
  | [], _, h => h
  | _ :: front, _, h => @Unclosed.of_append front _ h.2

theorem not_unclosed_cdataClose {back : List Char} : ¬ Unclosed (']' :: ']' :: '>' :: back) :=
  fun h => absurd (h.1 []) (by simp [cdataClose])

/-- The terminator is found where it begins in the part itself, never across its end. -/
theorem isPrefixOf_cdataClose_append {c : Char} : ∀ {rest : List Char},
    cdataClose.isPrefixOf (c :: rest) = false → ∀ back,
      cdataClose.isPrefixOf (c :: (rest ++ (cdataClose ++ back))) = false
  | [], missing, back => by simp [cdataClose, List.isPrefixOf]
  | [x], missing, back => by simp [cdataClose, List.isPrefixOf]
  | x :: y :: rest, missing, back => by simpa [cdataClose, List.isPrefixOf] using missing

theorem Unclosed.cons {c : Char} {rest : List Char}
    (missing : cdataClose.isPrefixOf (c :: rest) = false) (h : Unclosed rest) :
    Unclosed (c :: rest) :=
  ⟨isPrefixOf_cdataClose_append missing, h⟩

theorem Unclosed.isPrefixOf {c : Char} {rest : List Char} (h : Unclosed (c :: rest)) :
    cdataClose.isPrefixOf (c :: rest) = false := by
  rw [← Bool.not_eq_true]
  intro here
  obtain ⟨back, same⟩ := isPrefixOf_cdataClose_eq_true here
  exact not_unclosed_cdataClose (same ▸ h)

/-! ## Cutting a content -/

theorem Parts.cons_char {c : Char} {content : List Char} {parts : List (List Char)}
    (missing : cdataClose.isPrefixOf (c :: content) = false) (h : Parts parts content) :
    ∃ part rest, parts = part :: rest ∧ Parts ((c :: part) :: rest) (c :: content) := by
  cases h with
  | last unclosed => exact ⟨_, _, rfl, .last (.cons missing unclosed)⟩
  | @cons part more rest unclosed later =>
    refine ⟨_, _, rfl, .cons (.cons ?_ unclosed) later⟩
    rw [← Bool.not_eq_true] at missing ⊢
    intro here
    obtain ⟨back, same⟩ := isPrefixOf_cdataClose_eq_true here
    exact missing (by rw [← List.cons_append, same]; simp [cdataClose])

/-- Every content can be cut so, and its sections are those that are written. -/
theorem exists_parts (content : List Char) : ∃ part rest, Parts (part :: rest) content ∧
    Text.replace cdataClose "]]]]><![CDATA[>".toList content ++ cdataClose =
      part ++ (cdataClose ++ rest.flatMap cdataSection) := by
  have nonempty : cdataClose ≠ [] := by decide
  refine Text.replace_induction nonempty ?nil ?here ?there content
  case nil => exact ⟨[], [], .last trivial, by simp [Text.replace, Text.replaceAfter]⟩
  case here =>
    -- two of the three characters end one section, the third begins the next
    rintro text ⟨part, others, parts, written⟩
    have missing : cdataClose.isPrefixOf ('>' :: text) = false := by
      simp [cdataClose, List.isPrefixOf]
    obtain ⟨_, _, same, second⟩ := parts.cons_char missing
    cases same
    have first : Unclosed [']', ']'] := by
      simp [Unclosed, cdataClose, List.isPrefixOf]
    refine ⟨[']', ']'], ('>' :: part) :: others, ?_, ?_⟩
    · have content : cdataClose ++ text = [']', ']'] ++ '>' :: text := by
        simp [cdataClose]
      rw [content]
      exact .cons first second
    · have put : "]]]]><![CDATA[>".toList = [']', ']'] ++ (cdataClose ++ (cdataOpen ++ ['>'])) := by
        decide
      rw [Text.replace_append nonempty, List.append_assoc, written, put]
      simp [cdataSection]
  case there =>
    rintro c rest missing ⟨part, others, parts, written⟩
    obtain ⟨_, _, same, longer⟩ := parts.cons_char missing
    cases same
    refine ⟨c :: part, others, longer, ?_⟩
    rw [Text.replace_cons missing, List.cons_append, written, List.cons_append]

theorem exists_parts_cdataText (content : String) :
    ∃ parts, Parts parts content.toList ∧
      (cdataText content).toList = parts.flatMap cdataSection := by
  obtain ⟨part, rest, parts, written⟩ := exists_parts content.toList
  refine ⟨part :: rest, parts, ?_⟩
  simp only [cdataText, String.toList_ofList, List.append_assoc, written]
  simp [cdataSection]

theorem Parts.unclosed {parts : List (List Char)} {content : List Char}
    (h : Parts parts content) : ∀ part ∈ parts, Unclosed part := by
  induction h with
  | last unclosed => exact List.forall_mem_singleton.mpr unclosed
  | cons unclosed _ ih => exact List.forall_mem_cons.mpr ⟨unclosed, ih⟩

/-! ## Trimming -/

theorem Unclosed.trimLines : ∀ {part : List Char}, Unclosed part → Unclosed (trimLines part)
  | [], _ => trivial
  | c :: rest, h => by
    have later := Unclosed.trimLines h.2
    rw [Text.trimLines]
    split
    case isTrue => exact later
    case isFalse =>
      apply Unclosed.cons _ later
      rw [← Bool.not_eq_true]
      intro here
      obtain ⟨back, same⟩ := isPrefixOf_cdataClose_eq_true here
      obtain ⟨rfl, second⟩ := List.cons.inj same
      obtain ⟨_, rfl, third⟩ := Text.trimLines_eq_cons second (by decide)
      obtain ⟨_, rfl, _⟩ := Text.trimLines_eq_cons third (by decide)
      exact not_unclosed_cdataClose h

theorem Parts.trimLines {parts : List (List Char)} {content : List Char}
    (h : Parts parts content) : Parts (parts.map trimLines) (trimLines content) := by
  induction h with
  | last unclosed => exact .last unclosed.trimLines
  | @cons part more rest unclosed _ ih =>
    have solid : Text.isBlank '>' = false := by decide
    rw [Text.trimLines_of_not_isBlank solid] at ih
    rw [Text.trimLines_append_of_not_isBlank solid]
    exact .cons unclosed.trimLines ih

theorem trimLines_section (part back : List Char) :
    trimLines (cdataSection part ++ back) = cdataSection (trimLines part) ++ trimLines back := by
  have lead : ∀ c ∈ cdataOpen, Text.isBlank c = false :=
    Text.isBlank_eq_false_of_any (by decide)
  have close : cdataClose = [']', ']', '>'] := by decide
  have solid : Text.isBlank ']' = false := by decide
  have stop : Text.isBlank '>' = false := by decide
  simp [cdataSection, Text.trimLines_append_solid _ lead, close,
    Text.trimLines_append_of_not_isBlank solid, Text.trimLines_of_not_isBlank solid,
    Text.trimLines_of_not_isBlank stop]

theorem trimLines_sections (parts : List (List Char)) (back : List Char) :
    trimLines (parts.flatMap cdataSection ++ back) =
      (parts.map trimLines).flatMap cdataSection ++ trimLines back := by
  induction parts with
  | nil => rfl
  | cons part rest ih =>
    rw [List.flatMap_cons, List.append_assoc, trimLines_section, ih]
    simp

end Installer.Markup
