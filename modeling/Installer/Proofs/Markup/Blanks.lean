import Installer.Proofs.Markup.Spacing

/-! # Blank lines and CDATA sections

Whether a CDATA section is open behind a text is decided by the marks in it, taken one after the
other (`Leaves`), and the scan of the layout pass finds it out (`leaves_iff`).  No mark reaches over
the end of a line, so the pass may hand the state on from one line to the next (`linesOf_eq`).  A
blank line has no mark: dropped or put in outside sections, it moves no section.  So apart from such
lines nothing changes, and the lines of a section stay together (`keepsLines_format`).
-/

namespace Installer.Markup.Layout

variable {inside after : Bool}

/-! ## The marks in a text -/

/-- Where a text begins inside a CDATA section or not, as the first state says, its end is as the
second one says.  A section begins with the first opening mark and ends with the first closing one
behind it. -/
inductive Leaves : Bool → List Char → Bool → Prop where
  | stay {inside : Bool} {text : List Char} :
    ¬ marker inside <:+: text → Leaves inside text inside
  | turn {inside after : Bool} {front back : List Char} :
    ¬ marker inside <:+: front ++ (marker inside).dropLast → Leaves (!inside) back after →
      Leaves inside (front ++ (marker inside ++ back)) after

theorem endsInside_cons {c : Char} {rest : List Char}
    (missing : (marker inside).isPrefixOf (c :: rest) = false) :
    endsInside inside (c :: rest) = endsInside inside rest := by
  rw [endsInside, endsInsideAfter, missing]
  rfl

theorem endsInsideAfter_length (front back : List Char) :
    endsInsideAfter front.length inside (front ++ back) = endsInside inside back := by
  induction front with
  | nil => rfl
  | cons c front ih => exact ih

theorem endsInside_marker (back : List Char) :
    endsInside inside (marker inside ++ back) = endsInside (!inside) back := by
  obtain ⟨c, front, begins, length, here⟩ := exists_marker_eq inside
  rw [begins, List.cons_append, endsInside, endsInsideAfter, if_pos (here back), length,
    endsInsideAfter_length]

theorem Leaves.endsInside_eq {text : List Char} (leaves : Leaves inside text after) :
    endsInside inside text = after := by
  induction leaves with
  | @stay inside text absent =>
    induction text with
    | nil => rfl
    | cons c rest ih =>
      have missing : (marker inside).isPrefixOf (c :: rest) = false := by
        rw [← Bool.not_eq_true, List.isPrefixOf_iff_prefix]
        exact fun here => absent here.isInfix
      rw [endsInside_cons missing, ih fun later => absent (List.infix_cons later)]
  | @turn inside after front back first _ ih =>
    induction front with
    | nil => rw [List.nil_append, endsInside_marker, ih]
    | cons c front inner =>
      -- a mark at the beginning would end before the first one does
      have missing :
          (marker inside).isPrefixOf (c :: (front ++ (marker inside ++ back))) = false := by
        rw [← Bool.not_eq_true, List.isPrefixOf_iff_prefix]
        intro here
        have shorter : c :: front ++ (marker inside).dropLast <+:
            c :: (front ++ (marker inside ++ back)) := by
          rw [← List.cons_append, List.prefix_append_right_inj]
          exact (List.dropLast_prefix _).trans (List.prefix_append _ _)
        refine first (List.prefix_of_prefix_length_le here shorter ?_).isInfix
        simp only [List.length_append, List.length_cons, List.length_dropLast]
        omega
      rw [List.cons_append, endsInside_cons missing]
      exact inner fun later => first (List.infix_cons later)

/-- A text with a mark in it has a first one. -/
theorem exists_first {mark text : List Char} (nonempty : mark ≠ []) (found : mark <:+: text) :
    ∃ front back, text = front ++ (mark ++ back) ∧ ¬ mark <:+: front ++ mark.dropLast := by
  induction text with
  | nil => exact absurd (List.infix_nil.mp found) nonempty
  | cons c rest ih =>
    by_cases here : mark <+: c :: rest
    · obtain ⟨back, same⟩ := here
      refine ⟨[], back, same.symm, fun inner => ?_⟩
      have length := inner.length_le
      have positive := List.length_pos_iff.mpr nonempty
      rw [List.nil_append, List.length_dropLast] at length
      omega
    · have later := (List.infix_cons_iff.mp found).resolve_left here
      obtain ⟨front, back, rfl, first⟩ := ih later
      refine ⟨c :: front, back, rfl, fun inner => ?_⟩
      rw [List.cons_append, List.infix_cons_iff] at inner
      rcases inner with begins | behind
      · refine here (begins.trans ?_)
        rw [← List.cons_append, ← List.cons_append, List.prefix_append_right_inj]
        exact (List.dropLast_prefix _).trans (List.prefix_append _ _)
      · exact first behind

theorem exists_leaves (inside : Bool) (text : List Char) : ∃ after, Leaves inside text after := by
  induction length : text.length using Nat.strongRecOn generalizing inside text with
  | ind n ih =>
    by_cases found : marker inside <:+: text
    · obtain ⟨front, back, rfl, first⟩ := exists_first (marker_ne_nil inside) found
      have positive := List.length_pos_iff.mpr (marker_ne_nil inside)
      simp only [List.length_append] at length
      obtain ⟨after, later⟩ := ih back.length (by omega) (!inside) back rfl
      exact ⟨after, .turn first later⟩
    · exact ⟨inside, .stay found⟩

theorem leaves_iff {text : List Char} :
    Leaves inside text after ↔ endsInside inside text = after := by
  refine ⟨Leaves.endsInside_eq, fun same => ?_⟩
  obtain ⟨other, leaves⟩ := exists_leaves inside text
  rwa [← same, leaves.endsInside_eq]

/-- A CDATA section is open behind the text. -/
def IsOpenAfter (text : List Char) : Prop :=
  Leaves false text true

instance {text : List Char} : Decidable (IsOpenAfter text) :=
  decidable_of_iff (endsInside false text = true) leaves_iff.symm

/-! ## From line to line -/

/-- A line of a text, and whether a CDATA section is open at its beginning. -/
structure Line where
  inside : Bool
  chars : List Char
deriving DecidableEq

/-- The lines that stand behind the text `before`. -/
def linesBehind (before : List Char) : List (List Char) → List Line
  | [] => []
  | chars :: rest =>
    ⟨decide (IsOpenAfter before), chars⟩ :: linesBehind (before ++ (chars ++ ['\n'])) rest

def linesOf (text : String) : List Line :=
  linesBehind [] (Text.lines text.toList)

/-- Lines whose states are handed on, from that of the first. -/
def handedOn : Bool → List (List Char) → List Line
  | _, [] => []
  | inside, chars :: rest => ⟨inside, chars⟩ :: handedOn (endsInside inside chars) rest

theorem endsInsideAfter_line {back : List Char} : ∀ {line : List Char} {skip : Nat} {inside : Bool},
    skip ≤ line.length → endsInsideAfter skip inside (line ++ '\n' :: back) =
      endsInside (endsInsideAfter skip inside line) back
  | [], 0, inside, _ => endsInside_cons (isPrefixOf_feed inside back)
  | c :: line, skip + 1, inside, enough =>
    show endsInsideAfter skip inside (line ++ '\n' :: back) = _ from
      endsInsideAfter_line (Nat.le_of_succ_le_succ enough)
  | c :: line, 0, inside, _ => by
    have same := Text.isPrefixOf_append_cons (feed_not_mem_marker inside) (c :: line) back
    rw [List.cons_append] at same ⊢
    rw [endsInsideAfter, endsInsideAfter, same]
    split
    next here =>
      -- the mark ends on the line
      have length := (List.isPrefixOf_iff_prefix.mp here).length_le
      rw [List.length_cons] at length
      exact endsInsideAfter_line (by omega)
    next => exact endsInsideAfter_line (Nat.zero_le _)

theorem endsInside_line (inside : Bool) (line back : List Char) :
    endsInside inside (line ++ '\n' :: back) = endsInside (endsInside inside line) back :=
  endsInsideAfter_line (Nat.zero_le _)

theorem endsInside_unlines_append (inside : Bool) (lines : List (List Char)) (back : List Char) :
    endsInside inside (Text.unlines lines ++ back) =
      endsInside (endsInside inside (Text.unlines lines)) back := by
  induction lines generalizing inside with
  | nil => rfl
  | cons line rest ih =>
    rw [Text.unlines_cons, List.append_assoc, List.cons_append, endsInside_line, ih,
      endsInside_line]

theorem linesBehind_unlines (earlier lines : List (List Char)) :
    linesBehind (Text.unlines earlier) lines =
      handedOn (endsInside false (Text.unlines earlier)) lines := by
  induction lines generalizing earlier with
  | nil => rfl
  | cons line rest ih =>
    have longer : Text.unlines earlier ++ (line ++ ['\n']) = Text.unlines (earlier ++ [line]) := by
      simp [Text.unlines]
    have state : endsInside false (Text.unlines (earlier ++ [line])) =
        endsInside (endsInside false (Text.unlines earlier)) line := by
      rw [← longer, endsInside_unlines_append, endsInside_line]
      rfl
    have here : decide (IsOpenAfter (Text.unlines earlier)) =
        endsInside false (Text.unlines earlier) := by
      rw [Bool.eq_iff_iff, decide_eq_true_iff]
      exact leaves_iff
    rw [linesBehind, here, longer, ih, state, handedOn]

/-- The states of the lines are found line by line. -/
theorem linesOf_eq (text : String) : linesOf text = handedOn false (Text.lines text.toList) :=
  linesBehind_unlines [] _

/-! ## Blank lines -/

def Line.isGap (line : Line) : Bool :=
  !line.inside && line.chars.all Text.isBlank

def solidLines (lines : List Line) : List Line :=
  lines.filter fun line => !line.isGap

theorem solidLines_cons_gap {line : Line} (gap : line.isGap = true) (rest : List Line) :
    solidLines (line :: rest) = solidLines rest := by
  simp [solidLines, gap]

theorem solidLines_cons {line : Line} (solid : line.isGap = false) (rest : List Line) :
    solidLines (line :: rest) = line :: solidLines rest := by
  simp [solidLines, solid]

theorem endsInside_of_blank {line : List Char} (blank : ∀ c ∈ line, Text.isBlank c = true) :
    endsInside false line = false := by
  refine leaves_iff.mp (.stay fun found => ?_)
  have mark : '<' ∈ line := found.subset (by decide)
  cases blank _ mark

theorem solidLines_spaced (previous : List Char) (inside : Bool) (lines : List (List Char)) :
    solidLines (handedOn inside (spaced previous inside lines)) =
      solidLines (handedOn inside lines) := by
  have cons : ∀ (line : Line) (rest rest' : List Line), solidLines rest = solidLines rest' →
      solidLines (line :: rest) = solidLines (line :: rest') := by
    intro line rest rest' same
    cases gap : line.isGap with
    | true => rw [solidLines_cons_gap gap, solidLines_cons_gap gap, same]
    | false => rw [solidLines_cons gap, solidLines_cons gap, same]
  fun_induction spaced previous inside lines with
  | case1 => rfl
  | case2 previous line rest ih => exact cons _ _ _ ih
  | case3 previous line rest inside blank ih =>
    simp only [Bool.and_eq_true, List.isEmpty_iff] at blank
    have blank := Text.trim_eq_nil.mp blank.2
    have outside : inside = false := endsInside_of_blank blank
    have gap : Line.isGap ⟨false, line⟩ = true := by simpa [Line.isGap] using blank
    rw [outside] at ih ⊢
    rw [ih, handedOn, endsInside_of_blank blank]
    simp [solidLines, gap]
  | case4 previous line rest inside filled gap ih => exact cons ⟨false, line⟩ _ _ ih
  | case5 previous line rest inside filled tight ih => exact cons _ _ _ ih

/-! ## Sections -/

/-- Lines with no gap among them, each behind the first one inside the section that is open at the
end of the line before. -/
structure IsBlock (block : List Line) : Prop where
  solid : ∀ line ∈ block, line.isGap = false
  inside : ∀ line ∈ block.tail, line.inside = true

theorem inside_of_prefix {line : Line} {block : List Line} {lines : List (List Char)}
    (front : line :: block <+: handedOn inside lines) : line.inside = inside := by
  cases lines with
  | nil => cases List.prefix_nil.mp front
  | cons chars rest =>
    obtain ⟨rfl, -⟩ := List.cons_prefix_cons.mp front
    rfl

/-- Between a line and the next one inside a section there is no gap. -/
theorem prefix_of_prefix_solidLines {block : List Line}
    (within : ∀ line ∈ block, line.inside = true) {inside : Bool} {lines : List (List Char)}
    (front : block <+: solidLines (handedOn inside lines)) :
    block <+: handedOn inside lines := by
  induction lines generalizing block inside with
  | nil => exact front
  | cons chars rest ih =>
    cases block with
    | nil => exact List.nil_prefix
    | cons line block =>
      rw [handedOn] at front ⊢
      cases gap : Line.isGap ⟨inside, chars⟩ with
      | true =>
        -- behind a gap no section is open
        rw [solidLines_cons_gap gap] at front
        simp only [Line.isGap, Bool.and_eq_true, Bool.not_eq_true', List.all_eq_true] at gap
        obtain ⟨rfl, blank⟩ := gap
        rw [endsInside_of_blank blank] at front
        have outside := inside_of_prefix (ih within front)
        rw [within line List.mem_cons_self] at outside
        cases outside
      | false =>
        rw [solidLines_cons gap] at front
        obtain ⟨rfl, later⟩ := List.cons_prefix_cons.mp front
        rw [List.forall_mem_cons] at within
        exact List.cons_prefix_cons.mpr ⟨rfl, ih within.2 later⟩

theorem infix_solidLines_iff {block : List Line} (isBlock : IsBlock block) (inside : Bool)
    (lines : List (List Char)) :
    block <:+: solidLines (handedOn inside lines) ↔ block <:+: handedOn inside lines := by
  constructor
  · intro found
    induction lines generalizing inside with
    | nil => exact found
    | cons chars rest ih =>
      rw [handedOn] at found ⊢
      cases gap : Line.isGap ⟨inside, chars⟩ with
      | true =>
        rw [solidLines_cons_gap gap] at found
        exact List.infix_cons (ih _ found)
      | false =>
        rw [solidLines_cons gap] at found
        cases List.infix_cons_iff.mp found with
        | inr later => exact List.infix_cons (ih _ later)
        | inl front =>
          cases block with
          | nil => exact List.nil_infix
          | cons line block =>
            obtain ⟨rfl, later⟩ := List.cons_prefix_cons.mp front
            -- behind its first line the block is inside a section, where no line is a gap
            have behind := prefix_of_prefix_solidLines isBlock.inside later
            exact (List.cons_prefix_cons.mpr ⟨rfl, behind⟩).isInfix
  · intro found
    have whole : solidLines block = block := by
      rw [solidLines, List.filter_eq_self]
      intro line mem
      simp [isBlock.solid line mem]
    rw [← whole]
    exact found.filter _

/-! ## The layout pass -/

def IsReturnless (text : String) : Prop :=
  ∀ chars ∈ Text.lines text.toList, chars.getLast? ≠ some '\r'

instance {text : String} : Decidable (IsReturnless text) :=
  inferInstanceAs (Decidable (∀ chars ∈ Text.lines text.toList, chars.getLast? ≠ some '\r'))

/-- The second text has the lines of the first one, gaps apart, and the same sections. -/
structure KeepsLines (text out : String) : Prop where
  solid : solidLines (linesOf out) = solidLines (linesOf text)
  /-- Where lines follow each other into a section or inside of it, they still do so. -/
  blocks : ∀ block, IsBlock block → (block <:+: linesOf out ↔ block <:+: linesOf text)

theorem isReturnless_finish (w : Writer) : IsReturnless w.finish := by
  let trimmed := (Text.lines w.text.toList).map Text.trimEnd
  have single : ∀ line ∈ trimmed, '\n' ∉ line := by
    rw [List.forall_mem_map]
    exact fun line mem feed => Text.feed_notMem_of_mem_lines mem (Text.mem_of_mem_trimEnd feed)
  -- between its line feeds a finished text has trimmed lines, or nothing
  have joined : ∀ part ∈ (['\n'].intercalate trimmed).splitOn '\n', part = [] ∨ part ∈ trimmed := by
    intro part mem
    by_cases none : trimmed = []
    · rw [none] at mem
      exact .inl (List.mem_singleton.mp mem)
    · rw [List.splitOn_intercalate '\n' single none] at mem
      exact .inr mem
  have parts : ∀ part ∈ w.finish.toList.splitOn '\n', part = [] ∨ part ∈ trimmed := by
    rw [Writer.finish, String.toList_ofList]
    split
    next => exact joined
    next =>
      rw [List.splitOn_append_cons_self]
      intro part mem
      rcases List.mem_append.mp mem with inside | last
      · exact joined part inside
      · exact .inl (List.mem_singleton.mp last)
  have ends : ∀ part ∈ w.finish.toList.splitOn '\n',
      Text.withoutReturn part = part ∧ part.getLast? ≠ some '\r' := by
    intro part mem
    rcases parts part mem with rfl | among
    · decide
    · obtain ⟨line, -, rfl⟩ := List.mem_map.mp among
      refine ⟨Text.withoutReturn_trimEnd line, fun last => ?_⟩
      cases Text.isBlank_of_getLast?_trimEnd last
  intro chars mem
  obtain ⟨part, inside, rfl | rfl⟩ := Text.exists_part_of_mem_lines mem
  · rw [(ends part inside).1]
    exact (ends part inside).2
  · exact (ends chars inside).2

theorem mem_spaced {previous chars : List Char} {inside : Bool} {lines : List (List Char)}
    (mem : chars ∈ spaced previous inside lines) : chars = [] ∨ chars ∈ lines := by
  fun_induction spaced previous inside lines with
  | case1 => cases mem
  | case2 previous line rest ih =>
    rw [List.mem_cons] at mem ⊢
    rcases mem with rfl | later
    · exact .inr (.inl rfl)
    · exact (ih later).imp_right .inr
  | case3 previous line rest inside blank ih => exact (ih mem).imp_right (List.mem_cons_of_mem _)
  | case4 previous line rest inside filled gap ih =>
    rw [List.mem_cons, List.mem_cons] at mem
    rw [List.mem_cons]
    rcases mem with rfl | rfl | later
    · exact .inl rfl
    · exact .inr (.inl rfl)
    · exact (ih later).imp_right .inr
  | case5 previous line rest inside filled tight ih =>
    rw [List.mem_cons] at mem ⊢
    rcases mem with rfl | later
    · exact .inr (.inl rfl)
    · exact (ih later).imp_right .inr

theorem solidLines_linesOf_format {source : String} (returnless : IsReturnless source) :
    solidLines (linesOf (format source)) = solidLines (linesOf source) := by
  have same := solidLines_spaced [] false (Text.lines source.toList)
  have text : (format source).toList =
      ['\n'].intercalate (spaced [] false (Text.lines source.toList)) ++ ['\n'] := by
    simp [format]
  rw [linesOf_eq, linesOf_eq, ← same, text]
  cases lines : spaced [] false (Text.lines source.toList) with
  | nil => decide
  | cons first rest =>
    rw [← lines]
    have single : ∀ chars ∈ spaced [] false (Text.lines source.toList), '\n' ∉ chars := by
      intro chars mem
      rcases mem_spaced mem with rfl | own
      · exact List.not_mem_nil
      · exact Text.feed_notMem_of_mem_lines own
    have returns : ∀ chars ∈ spaced [] false (Text.lines source.toList),
        Text.withoutReturn chars = chars := by
      intro chars mem
      rw [Text.withoutReturn, if_neg]
      rcases mem_spaced mem with rfl | own
      · decide
      · exact returnless chars own
    rw [← Text.unlines_eq_intercalate (by simp [lines]), Text.lines_unlines single,
      List.map_congr_left returns, List.map_id']

/-- Formatting changes nothing but blank lines outside CDATA sections, in what a writer has finished
and in any other text whose lines do not end with carriage returns. -/
theorem keepsLines_format :
    (∀ w : Writer, IsReturnless w.finish) ∧
      ∀ source, IsReturnless source → KeepsLines source (format source) := by
  refine ⟨isReturnless_finish, fun source returnless => ?_⟩
  have solid := solidLines_linesOf_format returnless
  refine ⟨solid, fun block isBlock => ?_⟩
  rw [linesOf_eq, linesOf_eq] at solid ⊢
  rw [← infix_solidLines_iff isBlock, solid, infix_solidLines_iff isBlock]

/-- A text with blank lines inside of two CDATA sections and around them. -/
def scripted : String :=
  "<A>\n\n \n  <![CDATA[first\n\n\n  <B>]]><![CDATA[last\n\n]]>\n\n\n</A>"

theorem keepsLines_scripted : IsReturnless scripted ∧ KeepsLines scripted (format scripted) :=
  have returnless : IsReturnless scripted := by decide +kernel
  ⟨returnless, keepsLines_format.2 scripted returnless⟩

end Installer.Markup.Layout
