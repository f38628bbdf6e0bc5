import Installer.Markup.Layout
import Installer.Proofs.Markup.Sections
import Installer.Proofs.Markup.Written

/-! # What the layout changes

Setting blank lines adds line feeds to a text and takes some away, but only outside CDATA sections
(`Relaid`).  With the trimming of lines before it this is all that happens to the characters of a
document (`Turned`), and it can be followed piece by piece.
-/

namespace Installer.Markup

open Text (trimLines)

namespace Layout

/-! ## Line feeds outside CDATA sections -/

/-- The second text is the first with other numbers of line feeds outside CDATA sections. The first
text begins inside a section or not, behind `skip` characters that belong to a marker. -/
inductive Relaid : Nat → Bool → List Char → List Char → Prop where
  | nil {skip : Nat} {inside : Bool} : Relaid skip inside [] []
  | pass {skip : Nat} {inside : Bool} {c : Char} {rest out : List Char} :
    Relaid skip inside rest out → Relaid (skip + 1) inside (c :: rest) (c :: out)
  | turn {inside : Bool} {c : Char} {rest out : List Char} :
    (marker inside).isPrefixOf (c :: rest) = true →
      Relaid ((marker inside).length - 1) (!inside) rest out →
      Relaid 0 inside (c :: rest) (c :: out)
  | keep {inside : Bool} {c : Char} {rest out : List Char} :
    (marker inside).isPrefixOf (c :: rest) = false → Relaid 0 inside rest out →
      Relaid 0 inside (c :: rest) (c :: out)
  | feeds (count : Nat) {rest out : List Char} :
    Relaid 0 false rest out → Relaid 0 false ('\n' :: rest) (List.replicate count '\n' ++ out)

theorem marker_ne_nil (inside : Bool) : marker inside ≠ [] := by
  cases inside <;> decide

/-- Where a marker stands, it is found at its first character, and the others belong to it. -/
theorem exists_marker_eq (inside : Bool) : ∃ c front, marker inside = c :: front ∧
    (marker inside).length - 1 = front.length ∧
      ∀ back, (marker inside).isPrefixOf (c :: (front ++ back)) = true := by
  obtain ⟨c, front, begins⟩ := List.exists_cons_of_ne_nil (marker_ne_nil inside)
  refine ⟨c, front, begins, by rw [begins, List.length_cons, Nat.add_sub_cancel], fun back => ?_⟩
  rw [List.isPrefixOf_iff_prefix, begins]
  exact List.prefix_append (c :: front) back

theorem feed_not_mem_marker (inside : Bool) : '\n' ∉ marker inside := by
  cases inside <;> decide

/-- A line feed begins no marker. -/
theorem isPrefixOf_feed (inside : Bool) (rest : List Char) :
    (marker inside).isPrefixOf ('\n' :: rest) = false :=
  (Text.isPrefixOf_append_cons (feed_not_mem_marker inside) [] rest).trans
    (Text.isPrefixOf_nil (marker_ne_nil inside))

/-- A line is kept, and behind it the state is the one at its end. -/
theorem Relaid.line {back out : List Char} : ∀ {line : List Char} {skip : Nat} {inside : Bool},
    skip ≤ line.length →
    Relaid 0 (endsInsideAfter skip inside line) ('\n' :: back) out →
    Relaid skip inside (line ++ '\n' :: back) (line ++ out)
  | [], 0, inside, _, h => h
  | c :: line, skip + 1, inside, enough, h => .pass (.line (Nat.le_of_succ_le_succ enough) h)
  | c :: line, 0, inside, _, h => by
    have same := Text.isPrefixOf_append_cons (feed_not_mem_marker inside) (c :: line) back
    rw [endsInsideAfter] at h
    split at h
    case isTrue here =>
      -- the marker ends on the line
      have length := (List.isPrefixOf_iff_prefix.mp here).length_le
      rw [List.length_cons] at length
      exact .turn (same.trans here) (.line (by omega) h)
    case isFalse missing =>
      exact .keep (same.trans (Bool.eq_false_iff.mpr missing)) (.line (Nat.zero_le _) h)

/-! ## Laying out lines -/

/-- The lines, each behind a line feed. -/
def feedLines (lines : List (List Char)) : List Char :=
  lines.flatMap ('\n' :: ·)

theorem feedLines_append_feed (lines : List (List Char)) :
    ∃ back, feedLines lines ++ ['\n'] = '\n' :: back := by
  cases lines with
  | nil => exact ⟨[], rfl⟩
  | cons line rest => exact ⟨line ++ (feedLines rest ++ ['\n']), by simp [feedLines]⟩

theorem feedLines_cons (line : List Char) (rest : List (List Char)) :
    feedLines (line :: rest) ++ ['\n'] = '\n' :: (line ++ (feedLines rest ++ ['\n'])) := by
  simp [feedLines]

theorem Relaid.line_feedLines {inside : Bool} {line out : List Char} {rest : List (List Char)}
    (h : Relaid 0 (endsInside inside line) (feedLines rest ++ ['\n']) out) :
    Relaid 0 inside (line ++ (feedLines rest ++ ['\n'])) (line ++ out) := by
  obtain ⟨back, begins⟩ := feedLines_append_feed rest
  rw [begins] at h ⊢
  exact .line (Nat.zero_le _) h

theorem relaid_spaced (previous : List Char) (inside : Bool) (lines : List (List Char))
    (trimmed : ∀ line ∈ lines, Text.trimEnd line = line) :
    Relaid 0 inside (feedLines lines ++ ['\n'])
      (feedLines (spaced previous inside lines) ++ ['\n']) := by
  fun_induction spaced previous inside lines with
  | case1 previous inside => exact .keep (isPrefixOf_feed inside _) .nil
  | case2 previous line rest ih =>
    rw [feedLines_cons, feedLines_cons]
    exact .keep (isPrefixOf_feed true _)
      (.line_feedLines (ih fun other mem => trimmed other (List.mem_cons_of_mem _ mem)))
  | case3 previous line rest inside blank ih =>
    -- a blank line goes with its line feed
    have ih := ih fun other mem => trimmed other (List.mem_cons_of_mem _ mem)
    simp only [Bool.and_eq_true, List.isEmpty_iff] at blank
    cases Text.eq_nil_of_trim_eq_nil (trimmed line List.mem_cons_self) blank.2
    rw [feedLines_cons]
    exact .feeds 0 ih
  | case4 previous line rest inside filled gap ih =>
    rw [feedLines_cons, feedLines_cons, feedLines_cons]
    exact .feeds 2
      (.line_feedLines (ih fun other mem => trimmed other (List.mem_cons_of_mem _ mem)))
  | case5 previous line rest inside filled tight ih =>
    rw [feedLines_cons, feedLines_cons]
    exact .feeds 1
      (.line_feedLines (ih fun other mem => trimmed other (List.mem_cons_of_mem _ mem)))

theorem feedLines_append_eq (lines : List (List Char)) :
    feedLines lines ++ ['\n'] = '\n' :: Text.unlines lines := by
  induction lines with
  | nil => rfl
  | cons line rest ih => rw [feedLines_cons, ih, Text.unlines_cons]

/-! ## Pieces of a text that has been laid out -/

namespace Relaid

/-- Outside CDATA sections the number of copies of a character that is no line feed stays one. -/
theorem cons_inv {c : Char} {rest out : List Char} (other : c ≠ '<')
    (h : Relaid 0 false (c :: rest) out) :
    ∃ count later, out = List.replicate count c ++ later ∧ Relaid 0 false rest later ∧
      (c ≠ '\n' → count = 1) := by
  cases h with
  | turn here _ =>
    obtain ⟨back, same⟩ := List.isPrefixOf_iff_prefix.mp here
    exact absurd (List.cons.inj same).1.symm other
  | keep _ later => exact ⟨1, _, rfl, later, fun _ => rfl⟩
  | feeds count later => exact ⟨count, _, rfl, later, fun single => absurd rfl single⟩

theorem pass_inv {inside : Bool} {back : List Char} : ∀ {front out : List Char},
    Relaid front.length inside (front ++ back) out →
      ∃ later, out = front ++ later ∧ Relaid 0 inside back later
  | [], out, h => ⟨out, rfl, h⟩
  | c :: front, _, .pass h => by
    obtain ⟨later, rfl, kept⟩ := pass_inv h
    exact ⟨later, rfl, kept⟩

theorem marker_inv {inside : Bool} {back out : List Char}
    (h : Relaid 0 inside (marker inside ++ back) out) :
    ∃ later, out = marker inside ++ later ∧ Relaid 0 (!inside) back later := by
  obtain ⟨c, front, begins, length, here⟩ := exists_marker_eq inside
  rw [begins, List.cons_append] at h
  cases h with
  | turn _ inner =>
    rw [length] at inner
    obtain ⟨later, rfl, kept⟩ := pass_inv inner
    exact ⟨later, by rw [begins]; rfl, kept⟩
  | keep missing _ => cases (here back).symm.trans missing
  | feeds => exact absurd (begins ▸ List.mem_cons_self) (feed_not_mem_marker false)

/-- A character inside a CDATA section at which it does not end. -/
theorem inside_inv {c : Char} {rest out : List Char}
    (missing : cdataClose.isPrefixOf (c :: rest) = false) (h : Relaid 0 true (c :: rest) out) :
    ∃ later, out = c :: later ∧ Relaid 0 true rest later := by
  cases h with
  | turn here _ => cases here.symm.trans missing
  | keep _ later => exact ⟨_, rfl, later⟩

theorem section_inv {back : List Char} : ∀ {part out : List Char}, Unclosed part →
    Relaid 0 true (part ++ (cdataClose ++ back)) out →
      ∃ later, out = part ++ (cdataClose ++ later) ∧ Relaid 0 false back later
  | [], _, _, h => h.marker_inv
  | c :: part, _, unclosed, h => by
    obtain ⟨_, rfl, inner⟩ := h.inside_inv (unclosed.1 back)
    obtain ⟨later, rfl, kept⟩ := section_inv unclosed.2 inner
    exact ⟨later, rfl, kept⟩

theorem sections_inv {back : List Char} : ∀ {parts : List (List Char)} {out : List Char},
    (∀ part ∈ parts, Unclosed part) → Relaid 0 false (parts.flatMap cdataSection ++ back) out →
      ∃ later, out = parts.flatMap cdataSection ++ later ∧ Relaid 0 false back later
  | [], out, _, h => ⟨out, rfl, h⟩
  | part :: parts, _, unclosed, h => by
    rw [List.forall_mem_cons] at unclosed
    simp only [List.flatMap_cons, cdataSection, List.append_assoc] at h
    obtain ⟨_, rfl, inner⟩ := marker_inv h
    obtain ⟨_, rfl, behind⟩ := section_inv unclosed.1 inner
    obtain ⟨later, rfl, kept⟩ := sections_inv unclosed.2 behind
    exact ⟨later, by simp [cdataSection, marker], kept⟩

/-- A tag begins no CDATA section. -/
theorem tag_inv {c : Char} {rest out : List Char} (other : c ≠ '!')
    (h : Relaid 0 false ('<' :: c :: rest) out) :
    ∃ later, out = '<' :: later ∧ Relaid 0 false (c :: rest) later := by
  cases h with
  | turn here _ =>
    obtain ⟨back, same⟩ := List.isPrefixOf_iff_prefix.mp here
    exact absurd (List.cons.inj (List.cons.inj same).2).1.symm other
  | keep _ later => exact ⟨_, rfl, later⟩

theorem quiet_inv {back : List Char} : ∀ {front out : List Char}, '<' ∉ front → '\n' ∉ front →
    Relaid 0 false (front ++ back) out →
      ∃ later, out = front ++ later ∧ Relaid 0 false back later
  | [], out, _, _, h => ⟨out, rfl, h⟩
  | c :: front, _, outer, single, h => by
    simp only [List.mem_cons, not_or] at outer single
    obtain ⟨count, _, rfl, inner, once⟩ := h.cons_inv (Ne.symm outer.1)
    obtain ⟨later, rfl, kept⟩ := quiet_inv outer.2 single.2 inner
    exact ⟨later, by rw [once (Ne.symm single.1)]; rfl, kept⟩

end Relaid

end Layout

/-! ## Escaping and blanks -/

/-- An escape leaves blanks as they are and never makes one. -/
structure Escapes (escape : Char → List Char) : Prop where
  nonempty : ∀ c : Char, escape c ≠ []
  blank : ∀ {c : Char}, Text.isBlank c = true → escape c = [c]
  solid : ∀ {c : Char}, Text.isBlank c = false → ∀ x ∈ escape c, Text.isBlank x = false

theorem escapes_pure : Escapes (fun c => [c]) where
  nonempty c := List.cons_ne_nil c []
  blank _ := rfl
  solid solid := List.forall_mem_singleton.mpr solid

theorem escapes_escapeTextChar : Escapes escapeTextChar where
  nonempty c := by
    unfold escapeTextChar
    split <;> first | decide | exact List.cons_ne_nil c []
  blank {c} blank := by
    unfold escapeTextChar
    split <;> first | rfl | cases blank
  solid {c} solid := by
    unfold escapeTextChar
    split <;> first
      | exact Text.isBlank_eq_false_of_any (by decide)
      | exact List.forall_mem_singleton.mpr solid

theorem escapes_escapeAttrChar : Escapes escapeAttrChar where
  nonempty c := by
    unfold escapeAttrChar
    split <;> first | decide | exact List.cons_ne_nil c []
  blank {c} blank := by
    unfold escapeAttrChar
    split <;> first | rfl | cases blank
  solid {c} solid := by
    unfold escapeAttrChar
    split <;> first
      | exact Text.isBlank_eq_false_of_any (by decide)
      | exact List.forall_mem_singleton.mpr solid

namespace Escapes

variable {escape : Char → List Char} (h : Escapes escape)
include h

theorem feed_not_mem {c : Char} (other : c ≠ '\n') : '\n' ∉ escape c := by
  intro mem
  cases blank : Text.isBlank c with
  | true =>
    rw [h.blank blank, List.mem_singleton] at mem
    exact other mem.symm
  | false => cases h.solid blank _ mem

theorem feed_not_mem_flatMap {content : List Char} (single : '\n' ∉ content) :
    '\n' ∉ content.flatMap escape := by
  rw [List.mem_flatMap]
  rintro ⟨c, mem, inside⟩
  apply h.feed_not_mem _ inside
  rintro rfl
  exact single mem

theorem relaid_inv {back : List Char} : ∀ {content out : List Char},
    '<' ∉ content.flatMap escape → Layout.Relaid 0 false (content.flatMap escape ++ back) out →
      ∃ shown later, out = shown.flatMap escape ++ later ∧ Layout.Relaid 0 false back later ∧
        shown ⊆ content ∧ ('\n' ∉ content → shown = content)
  | [], out, _, laid => ⟨[], out, rfl, laid, List.Subset.refl _, fun _ => rfl⟩
  | c :: content, out, outer, laid => by
    rw [List.flatMap_cons, List.mem_append, not_or] at outer
    rw [List.flatMap_cons, List.append_assoc] at laid
    cases blank : Text.isBlank c with
    | true =>
      rw [h.blank blank] at outer laid
      have other : c ≠ '<' := fun same => outer.1 (List.mem_singleton.mpr same.symm)
      -- other blanks than line feeds come out once
      obtain ⟨count, _, rfl, inner, once⟩ := laid.cons_inv other
      obtain ⟨shown, later, rfl, kept, sub, same⟩ := relaid_inv outer.2 inner
      refine ⟨List.replicate count c ++ shown, later, ?_, kept, ?_, ?_⟩
      · simp [List.flatMap_replicate, h.blank blank]
      · rw [List.append_subset]
        refine ⟨?_, List.subset_cons_of_subset c sub⟩
        intro x mem
        exact List.eq_of_mem_replicate mem ▸ List.mem_cons_self
      · intro single
        simp only [List.mem_cons, not_or] at single
        rw [once (Ne.symm single.1), same single.2]
        rfl
    | false =>
      have single : '\n' ∉ escape c := fun mem => by cases h.solid blank _ mem
      obtain ⟨_, rfl, inner⟩ := laid.quiet_inv outer.1 single
      obtain ⟨shown, later, rfl, kept, sub, same⟩ := relaid_inv outer.2 inner
      refine ⟨c :: shown, later, by simp, kept, List.cons_subset_cons c sub, ?_⟩
      intro single
      rw [same fun mem => single (List.mem_cons_of_mem _ mem)]

theorem exists_trimLines {back : List Char} : ∀ content : List Char,
    ∃ shown, trimLines (content.flatMap escape ++ back) = shown.flatMap escape ++ trimLines back ∧
      shown ⊆ content
  | [] => ⟨[], rfl, List.Subset.refl _⟩
  | c :: content => by
    obtain ⟨shown, same, sub⟩ := @exists_trimLines back content
    rw [List.flatMap_cons, List.append_assoc]
    cases blank : Text.isBlank c with
    | true =>
      rw [h.blank blank, List.singleton_append, Text.trimLines, same]
      split
      · exact ⟨shown, rfl, List.subset_cons_of_subset c sub⟩
      · exact ⟨c :: shown, by simp [h.blank blank], List.cons_subset_cons c sub⟩
    | false =>
      refine ⟨c :: shown, ?_, List.cons_subset_cons c sub⟩
      rw [Text.trimLines_append_solid _ (h.solid blank), same]
      simp

end Escapes

/-! ## Pieces of a text that has been turned into its final form -/

/-- The second text is the first with its lines trimmed and blank lines set. -/
def Turned (text out : List Char) : Prop :=
  Layout.Relaid 0 false (trimLines text) out

/-- No line ends at the beginning of the text, so blanks in front of it are kept. -/
def GoesOn (text : List Char) : Prop :=
  (trimLines text).head? ≠ some '\n'

theorem goesOn_cons {c : Char} (solid : Text.isBlank c = false) (text : List Char) :
    GoesOn (c :: text) := by
  rw [GoesOn, Text.trimLines_of_not_isBlank solid]
  rintro ⟨⟩
  cases solid

theorem GoesOn.trimLines_append {back : List Char} (h : GoesOn back) {front : List Char}
    (single : '\n' ∉ front) : trimLines (front ++ back) = front ++ trimLines back := by
  rw [Text.trimLines_append h, Text.trimLines_eq_self single]

theorem GoesOn.append {back : List Char} (h : GoesOn back) {front : List Char}
    (single : '\n' ∉ front) : GoesOn (front ++ back) := by
  rw [GoesOn, h.trimLines_append single, List.head?_append]
  cases front with
  | nil => exact h
  | cons c front =>
    intro first
    apply single
    rw [← Option.some.inj first]
    exact List.mem_cons_self

namespace Turned

/-- A content loses blanks, or gets and loses line feeds, only if it has a line feed. -/
theorem escaped_inv {escape : Char → List Char} (escapes : Escapes escape)
    {content back out : List Char} (outer : '<' ∉ content.flatMap escape)
    (h : Turned (content.flatMap escape ++ back) out) :
    ∃ shown later, out = shown.flatMap escape ++ later ∧ Turned back later ∧ shown ⊆ content ∧
      ('\n' ∉ content → GoesOn back → shown = content) := by
  by_cases single : '\n' ∉ content ∧ GoesOn back
  · rw [Turned, single.2.trimLines_append (escapes.feed_not_mem_flatMap single.1)] at h
    obtain ⟨shown, later, same, kept, sub, whole⟩ := escapes.relaid_inv outer h
    exact ⟨shown, later, same, kept, sub, fun single _ => whole single⟩
  · have cut : ∃ shown, trimLines (content.flatMap escape ++ back) =
        shown.flatMap escape ++ trimLines back ∧ shown ⊆ content := escapes.exists_trimLines content
    obtain ⟨trimmed, text, fewer⟩ := cut
    rw [Turned, text] at h
    have outer : '<' ∉ trimmed.flatMap escape := by
      rw [List.mem_flatMap] at outer ⊢
      rintro ⟨c, mem, inside⟩
      exact outer ⟨c, fewer mem, inside⟩
    obtain ⟨shown, later, same, kept, sub, _⟩ := escapes.relaid_inv outer h
    exact ⟨shown, later, same, kept, List.Subset.trans sub fewer,
      fun first second => absurd ⟨first, second⟩ single⟩

theorem quiet_inv {front back out : List Char} (outer : '<' ∉ front) (single : '\n' ∉ front)
    (goesOn : GoesOn back) (h : Turned (front ++ back) out) :
    ∃ later, out = front ++ later ∧ Turned back later := by
  rw [Turned, goesOn.trimLines_append single] at h
  exact h.quiet_inv outer single

theorem solid_inv (front : List Char) {back out : List Char} (outer : '<' ∉ front)
    (solid : front.any Text.isBlank = false) (h : Turned (front ++ back) out) :
    ∃ later, out = front ++ later ∧ Turned back later := by
  have solid := Text.isBlank_eq_false_of_any solid
  rw [Turned, Text.trimLines_append_solid back solid] at h
  have single : '\n' ∉ front := fun mem => by cases solid _ mem
  exact h.quiet_inv outer single

theorem lt_inv {back out : List Char} (h : Turned ('<' :: back) out) :
    ∃ later, out = '<' :: later := by
  rw [Turned, Text.trimLines_of_not_isBlank (by decide)] at h
  cases h with
  | turn => exact ⟨_, rfl⟩
  | keep => exact ⟨_, rfl⟩

theorem nil_inv {out : List Char} (h : Turned [] out) : out = [] := by
  cases h
  rfl

/-- White space in front of a tag is white space after all. -/
theorem white_inv {front back out : List Char} (white : ∀ c ∈ front, c = '\n' ∨ c = ' ')
    (h : Turned (front ++ '<' :: back) out) :
    ∃ shown later, out = shown ++ later ∧ Turned ('<' :: back) later ∧
      ∀ c ∈ shown, c = '\n' ∨ c = ' ' := by
  have outer : '<' ∉ front.flatMap fun c => [c] := by
    rw [List.flatMap_singleton']
    intro mem
    cases white _ mem with
    | inl feed => cases feed
    | inr space => cases space
  rw [← List.flatMap_singleton' front] at h
  obtain ⟨shown, later, rfl, kept, sub, _⟩ := escaped_inv escapes_pure outer h
  exact ⟨shown, later, by rw [List.flatMap_singleton'], kept, fun c mem => white c (sub mem)⟩

theorem tag_inv {c : Char} {front back out : List Char} (other : c ≠ '!')
    (outer : '<' ∉ c :: front) (single : '\n' ∉ c :: front) (goesOn : GoesOn back)
    (h : Turned ('<' :: (c :: front ++ back)) out) :
    ∃ later, out = '<' :: (c :: front ++ later) ∧ Turned back later := by
  rw [Turned, Text.trimLines_of_not_isBlank (by decide), goesOn.trimLines_append single] at h
  obtain ⟨_, rfl, inner⟩ := h.tag_inv other
  obtain ⟨later, rfl, kept⟩ := inner.quiet_inv outer single
  exact ⟨later, rfl, kept⟩

theorem sections_inv {parts : List (List Char)} {content back out : List Char}
    (cut : Parts parts content) (h : Turned (parts.flatMap cdataSection ++ back) out) :
    ∃ later, out = (parts.map trimLines).flatMap cdataSection ++ later ∧ Turned back later := by
  rw [Turned, trimLines_sections] at h
  exact h.sections_inv cut.trimLines.unclosed

end Turned

/-! ## The final text of a document -/

theorem spaced_declaration (lines : List (List Char)) :
    Layout.spaced [] false (declaration :: lines) =
      declaration :: Layout.spaced declaration false lines := by
  have tight : Layout.needsGap [] declaration = false := by decide
  have outside : Layout.endsInside false declaration = false := by decide
  have filled : (Text.trim declaration).isEmpty = false := by decide
  simp [Layout.spaced, tight, outside, filled]

theorem exists_format_toXml (root : Element) : ∃ out,
    Layout.format root.toXml = String.ofList (declaration ++ out) ∧
      Turned ('\n' :: (Element.chars 0 root ++ ['\n'])) out := by
  obtain ⟨first, rest, single, singles, same⟩ := Text.exists_unlines (Element.chars 0 root)
  have all : ∀ line ∈ first :: rest, '\n' ∉ line := List.forall_mem_cons.mpr ⟨single, singles⟩
  let lines := (first :: rest).map Text.trimEnd
  have trimmed : trimLines ('\n' :: (Element.chars 0 root ++ ['\n'])) =
      '\n' :: Text.unlines lines := by
    rw [Text.trimLines_feed, same, Text.trimLines_unlines all]
  have text : trimLines (declaration ++ '\n' :: (Element.chars 0 root ++ ['\n'])) =
      Text.unlines (declaration :: lines) := by
    rw [Text.trimLines_line (by decide), same, Text.trimLines_unlines all, Text.unlines_cons]
    have whole : Text.trimEnd declaration = declaration := by decide
    rw [whole]
  have singleLines : ∀ line ∈ declaration :: lines, '\n' ∉ line := by
    rw [List.forall_mem_cons, List.forall_mem_map]
    exact ⟨by decide, fun line mem inside => all line mem (Text.mem_of_mem_trimEnd inside)⟩
  have noReturn : (declaration :: lines).map Text.withoutReturn = declaration :: lines := by
    have first : Text.withoutReturn declaration = declaration := by decide
    simp [first, lines, Text.withoutReturn_trimEnd]
  refine ⟨'\n' :: Text.unlines (Layout.spaced declaration false lines), ?_, ?_⟩
  · rw [Layout.format, Element.toXml_eq, text, String.toList_ofList, Text.lines_unlines singleLines,
      noReturn, spaced_declaration, ← Text.unlines_eq_intercalate (by simp), Text.unlines_cons]
  · rw [Turned, trimmed, ← Layout.feedLines_append_eq, ← Layout.feedLines_append_eq]
    apply Layout.relaid_spaced
    rw [List.forall_mem_map]
    exact fun line _ => Text.trimEnd_trimEnd line

end Installer.Markup
