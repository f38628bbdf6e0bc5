import Installer.Proofs.Markup.Reading

/-! # Encoded character data

Attribute values and texts are written with references for the characters that markup is made of,
and contents of CDATA sections with their terminators taken apart.  What is written shows a reader
no markup of its own, and reading it gives back what was to be written:

* `Encodes` says so of values and texts, whose ampersands all begin a known reference,
* `allSections?` reads CDATA sections, each as far as the first terminator, and
  `allSections?_flatMap` shows that it finds the sections that were written.
-/

namespace Installer.Markup

/-! ## References -/

/-- The encoded text shows no hidden character, each of its ampersands begins one of the references,
and with references resolved it is the content. -/
structure Encodes (hidden : List Char) (references : List String) (content encoded : String) :
    Prop where
  hides : ∀ c ∈ hidden, c ∉ encoded.toList
  refers : ∀ front back, encoded.toList = front ++ '&' :: back →
    ∃ reference ∈ references, reference.toList <+: '&' :: back
  resolves : Xml.resolve? none encoded.toList = some content.toList

/-- Every character is written as it is, or as a reference if it is an ampersand or one of some
others. -/
def RefersTo (references : List String) (escape : Char → List Char) : Prop :=
  ∀ c : Char, c ≠ '&' ∧ escape c = [c] ∨
    ∃ reference ∈ references, ∃ name, escape c = reference.toList ∧
      reference.toList = '&' :: name ∧ '&' ∉ name

theorem refersTo_escapeTextChar : RefersTo ["&amp;", "&lt;", "&gt;"] escapeTextChar := by
  intro c
  unfold escapeTextChar
  split
  · exact .inr ⟨"&amp;", by decide, "amp;".toList, rfl, by decide, by decide⟩
  · exact .inr ⟨"&lt;", by decide, "lt;".toList, rfl, by decide, by decide⟩
  · exact .inr ⟨"&gt;", by decide, "gt;".toList, rfl, by decide, by decide⟩
  next other _ _ => exact .inl ⟨other, rfl⟩

theorem refersTo_escapeAttrChar :
    RefersTo ["&amp;", "&lt;", "&gt;", "&quot;", "&apos;"] escapeAttrChar := by
  intro c
  unfold escapeAttrChar
  split
  · exact .inr ⟨"&amp;", by decide, "amp;".toList, rfl, by decide, by decide⟩
  · exact .inr ⟨"&lt;", by decide, "lt;".toList, rfl, by decide, by decide⟩
  · exact .inr ⟨"&gt;", by decide, "gt;".toList, rfl, by decide, by decide⟩
  · exact .inr ⟨"&quot;", by decide, "quot;".toList, rfl, by decide, by decide⟩
  · exact .inr ⟨"&apos;", by decide, "apos;".toList, rfl, by decide, by decide⟩
  next other _ _ _ _ => exact .inl ⟨other, rfl⟩

/-- An ampersand in an encoded text is the first character of a reference, since references have no
other one. -/
theorem RefersTo.flatMap {references : List String} {escape : Char → List Char}
    (refers : RefersTo references escape) {content front back : List Char}
    (found : content.flatMap escape = front ++ '&' :: back) :
    ∃ reference ∈ references, reference.toList <+: '&' :: back := by
  induction content generalizing front with
  | nil => simp at found
  | cons c rest ih =>
    rw [List.flatMap_cons, List.append_eq_append_iff] at found
    rcases found with ⟨later, -, same⟩ | ⟨inside, here, same⟩
    · exact ih same
    · cases inside with
      | nil =>
        rw [← List.nil_append (_ :: _)] at same
        exact ih same.symm
      | cons first inside =>
        obtain ⟨rfl, rfl⟩ := List.cons.inj same
        rcases refers c with ⟨other, plain⟩ | ⟨reference, known, name, written, begins, alone⟩
        · have only : '&' ∈ [c] := by simp [← plain, here]
          exact absurd (List.mem_singleton.mp only).symm other
        · rw [written, begins] at here
          cases front with
          | nil =>
            rw [List.nil_append] at here
            exact ⟨reference, known, begins ▸ here ▸ List.prefix_append ..⟩
          | cons _ front =>
            have again : '&' ∈ name := by simp [(List.cons.inj here).2]
            exact absurd again alone

theorem not_mem_escapeAttrChar {hidden : Char} (isHidden : hidden ∈ ['<', '>', '"', '\''])
    (c : Char) : hidden ∉ escapeAttrChar c := by
  simp only [List.mem_cons, List.not_mem_nil, or_false] at isHidden
  unfold escapeAttrChar
  split
  case h_6 _ lt gt quote apostrophe =>
    rw [List.mem_singleton]
    rintro rfl
    obtain rfl | rfl | rfl | rfl := isHidden
    exacts [lt rfl, gt rfl, quote rfl, apostrophe rfl]
  all_goals obtain rfl | rfl | rfl | rfl := isHidden <;> decide

theorem encodes_escapeAttr (content : String) :
    Encodes ['<', '>', '"', '\''] ["&amp;", "&lt;", "&gt;", "&quot;", "&apos;"] content
      (escapeAttr content) where
  hides c hidden := by
    rw [escapeAttr, String.toList_ofList]
    exact Xml.not_mem_flatMap (not_mem_escapeAttrChar hidden) content.toList
  refers front back found := by
    rw [escapeAttr, String.toList_ofList] at found
    exact refersTo_escapeAttrChar.flatMap found
  resolves := by
    rw [escapeAttr, String.toList_ofList]
    exact Xml.resolve_flatMap Xml.resolve_escapeAttrChar content.toList

theorem encodes_escapeText (content : String) :
    Encodes ['<', '>'] ["&amp;", "&lt;", "&gt;"] content (escapeText content) where
  hides := by
    rw [escapeText, String.toList_ofList]
    simp only [List.forall_mem_cons, List.not_mem_nil, false_implies, implies_true, and_true]
    exact ⟨Xml.not_mem_flatMap Xml.lt_not_mem_escapeTextChar content.toList,
      Xml.not_mem_flatMap Xml.gt_not_mem_escapeTextChar content.toList⟩
  refers front back found := by
    rw [escapeText, String.toList_ofList] at found
    exact refersTo_escapeTextChar.flatMap found
  resolves := by
    rw [escapeText, String.toList_ofList]
    exact Xml.resolve_flatMap Xml.resolve_escapeTextChar content.toList

/-! ## Sections -/

theorem length_cutAt? {pattern text before after : List Char}
    (cut : Text.cutAt? pattern text = some (before, after)) :
    before.length + after.length ≤ text.length := by
  induction text generalizing before with
  | nil =>
    rw [Text.cutAt?] at cut
    split at cut
    · cases cut
      simp
    · cases cut
  | cons c rest ih =>
    rw [Text.cutAt?] at cut
    split at cut
    · cases cut
      simp
    · obtain ⟨⟨front, back⟩, found, same⟩ := Option.map_eq_some_iff.mp cut
      cases same
      have shorter := ih found
      simp only [List.length_cons]
      omega

/-- The content of the CDATA section that a text begins with, up to the first terminator behind its
opening mark, and the text behind the section. -/
def firstSection? (text : List Char) : Option (List Char × List Char) :=
  if cdataOpen.isPrefixOf text then Text.cutAt? cdataClose (text.drop cdataOpen.length) else none

theorem length_firstSection? {text content rest : List Char}
    (cut : firstSection? text = some (content, rest)) : rest.length < text.length := by
  rw [firstSection?] at cut
  split at cut
  next opens =>
    have mark : 0 < cdataOpen.length := by decide
    have begins := (List.isPrefixOf_iff_prefix.mp opens).length_le
    have shorter := length_cutAt? cut
    rw [List.length_drop] at shorter
    omega
  next => cases cut

/-- The contents of a text that is a sequence of CDATA sections and nothing else. -/
def allSections? (text : List Char) : Option (List (List Char)) :=
  if text.isEmpty then some []
  else
    match _cut : firstSection? text with
    | some (content, rest) => (allSections? rest).map (content :: ·)
    | none => none
termination_by text.length
decreasing_by exact length_firstSection? _cut

/-- The first terminator behind an unclosed part is the one that is put there. -/
theorem Unclosed.cutAt? {part : List Char} (unclosed : Unclosed part) (back : List Char) :
    Text.cutAt? cdataClose (part ++ (cdataClose ++ back)) = some (part, back) := by
  induction part with
  | nil => rfl
  | cons c rest ih =>
    rw [List.cons_append, Text.cutAt?, unclosed.1 back, ih unclosed.2]
    rfl

theorem firstSection?_cdataSection {part : List Char} (unclosed : Unclosed part)
    (back : List Char) : firstSection? (cdataSection part ++ back) = some (part, back) := by
  have opens : cdataSection part ++ back = cdataOpen ++ (part ++ (cdataClose ++ back)) := by
    simp [cdataSection]
  rw [firstSection?, opens, if_pos (List.isPrefixOf_iff_prefix.mpr (List.prefix_append ..)),
    List.drop_left, unclosed.cutAt?]

theorem allSections?_cons {part : List Char} (unclosed : Unclosed part) (back : List Char) :
    allSections? (cdataSection part ++ back) = (allSections? back).map (part :: ·) := by
  have nonempty : ¬ (cdataSection part ++ back).isEmpty = true := by
    have mark : cdataOpen ≠ [] := by decide
    simp [cdataSection, mark]
  rw [allSections?, if_neg nonempty]
  split
  next content rest cut =>
    rw [firstSection?_cdataSection unclosed] at cut
    cases cut
    rfl
  next missing =>
    rw [firstSection?_cdataSection unclosed] at missing
    cases missing

theorem allSections?_flatMap {parts : List (List Char)}
    (unclosed : ∀ part ∈ parts, Unclosed part) :
    allSections? (parts.flatMap cdataSection) = some parts := by
  induction parts with
  | nil => rw [List.flatMap_nil, allSections?]; rfl
  | cons part rest ih =>
    rw [List.forall_mem_cons] at unclosed
    rw [List.flatMap_cons, allSections?_cons unclosed.1, ih unclosed.2, Option.map_some]

theorem Parts.flatten {parts : List (List Char)} {content : List Char} (cut : Parts parts content) :
    parts.flatten = content := by
  induction cut with
  | last _ => simp
  | cons _ _ ih => rw [List.flatten_cons, ih]

/-- Attribute values, texts and contents of CDATA sections are read back as they were given, and
nothing in them is taken for markup. -/
theorem encodes_content (content : String) :
    Encodes ['<', '>', '"', '\''] ["&amp;", "&lt;", "&gt;", "&quot;", "&apos;"] content
        (escapeAttr content) ∧
      Encodes ['<', '>'] ["&amp;", "&lt;", "&gt;"] content (escapeText content) ∧
        ∃ parts, allSections? (cdataText content).toList = some parts ∧
          parts.flatten = content.toList := by
  obtain ⟨parts, cut, written⟩ := exists_parts_cdataText content
  refine ⟨encodes_escapeAttr content, encodes_escapeText content, parts, ?_, cut.flatten⟩
  rw [written, allSections?_flatMap cut.unclosed]

end Installer.Markup
