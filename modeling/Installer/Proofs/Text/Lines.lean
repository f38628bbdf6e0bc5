import Installer.Proofs.Text.Replace
import Installer.Text.Blank
import Installer.Text.Search
import Mathlib.Data.List.TakeWhile

/-! # The ends of lines

Trimming every line of a text takes off the blanks that stand right before a line feed
(`trimLines`), so it can be followed through a text character by character, without the lines.
-/

namespace Installer.Text

theorem isBlank_eq_false_of_any {text : List Char} (solid : text.any isBlank = false) :
    ∀ c ∈ text, isBlank c = false := by
  simpa using solid

/-! ## Blanks before line feeds -/

/-- The text without the blanks right before its line feeds. -/
def trimLines : List Char → List Char
  | [] => []
  | c :: rest =>
    if isBlank c = true ∧ c ≠ '\n' ∧ (trimLines rest).head? = some '\n' then trimLines rest
    else c :: trimLines rest

@[simp] theorem trimLines_nil : trimLines [] = [] := rfl

@[simp] theorem trimLines_feed (rest : List Char) :
    trimLines ('\n' :: rest) = '\n' :: trimLines rest := by
  rw [trimLines, if_neg fun drop => drop.2.1 rfl]

theorem trimLines_of_not_isBlank {c : Char} (solid : isBlank c = false) (rest : List Char) :
    trimLines (c :: rest) = c :: trimLines rest := by
  rw [trimLines, if_neg fun drop => by simp [solid] at drop]

theorem trimLines_append_solid (back : List Char) : ∀ {front : List Char},
    (∀ c ∈ front, isBlank c = false) → trimLines (front ++ back) = front ++ trimLines back
  | [], _ => rfl
  | c :: front, solid => by
    rw [List.forall_mem_cons] at solid
    rw [List.cons_append, trimLines_of_not_isBlank solid.1, trimLines_append_solid back solid.2]
    rfl

/-- The text ends where no line ends, so what follows does not change what is taken off. -/
theorem trimLines_append {back : List Char} (goesOn : (trimLines back).head? ≠ some '\n') :
    ∀ front : List Char, trimLines (front ++ back) = trimLines front ++ trimLines back
  | [] => rfl
  | c :: front => by
    have ih := trimLines_append goesOn front
    rw [List.cons_append, trimLines, trimLines, ih, List.head?_append]
    cases first : (trimLines front).head? with
    | some x =>
      rw [Option.some_or]
      split <;> rfl
    | none => simp [goesOn]

theorem trimLines_append_of_not_isBlank {c : Char} (solid : isBlank c = false)
    (front back : List Char) :
    trimLines (front ++ c :: back) = trimLines front ++ c :: trimLines back := by
  have kept := trimLines_of_not_isBlank solid back
  have goesOn : (trimLines (c :: back)).head? ≠ some '\n' := by
    rw [kept]
    rintro ⟨⟩
    cases solid
  rw [trimLines_append goesOn, kept]

theorem mem_of_mem_trimLines {c : Char} : ∀ {text : List Char}, c ∈ trimLines text → c ∈ text
  | x :: rest, mem => by
    rw [trimLines] at mem
    split at mem
    · exact List.mem_cons_of_mem _ (mem_of_mem_trimLines mem)
    · cases List.mem_cons.mp mem with
      | inl here => exact here ▸ List.mem_cons_self
      | inr later => exact List.mem_cons_of_mem _ (mem_of_mem_trimLines later)

/-- A character at the beginning that is no line feed has been there before. -/
theorem trimLines_eq_cons {x : Char} {more : List Char} : ∀ {text : List Char},
    trimLines text = x :: more → x ≠ '\n' → ∃ rest, text = x :: rest ∧ trimLines rest = more
  | c :: rest, same, other => by
    rw [trimLines] at same
    split at same
    case isTrue drop =>
      rw [same] at drop
      exact absurd (Option.some.inj drop.2.2) other
    case isFalse =>
      obtain ⟨rfl, rfl⟩ := List.cons.inj same
      exact ⟨rest, rfl, rfl⟩

theorem trimLines_eq_self : ∀ {text : List Char}, '\n' ∉ text → trimLines text = text
  | [], _ => rfl
  | c :: rest, single => by
    have single : '\n' ∉ rest := fun mem => single (List.mem_cons_of_mem _ mem)
    have goesOn : rest.head? ≠ some '\n' := fun first => single (List.mem_of_head? first)
    rw [trimLines, trimLines_eq_self single, if_neg fun drop => goesOn drop.2.2]

/-! ## Lines one by one -/

theorem trimEnd_cons (c : Char) (rest : List Char) :
    trimEnd (c :: rest) =
      if isBlank c = true ∧ trimEnd rest = [] then [] else c :: trimEnd rest := by
  simp only [trimEnd, List.reverse_cons, List.dropWhile_append, List.isEmpty_iff,
    List.reverse_eq_nil_iff]
  by_cases none : rest.reverse.dropWhile isBlank = []
  · by_cases blank : isBlank c = true <;> simp [none, blank, List.dropWhile]
  · simp [none]

theorem trimEnd_append_of_isBlank {c : Char} (blank : isBlank c = true) (line : List Char) :
    trimEnd (line ++ [c]) = trimEnd line := by
  simp [trimEnd, blank]

theorem trimEnd_withoutReturn (line : List Char) : trimEnd (withoutReturn line) = trimEnd line := by
  rw [withoutReturn]
  split
  case isTrue last =>
    obtain ⟨front, rfl⟩ := List.getLast?_eq_some_iff.mp last
    rw [List.dropLast_concat, trimEnd_append_of_isBlank (by decide)]
  case isFalse => rfl

theorem isBlank_of_getLast?_trimEnd {c : Char} {line : List Char}
    (last : (trimEnd line).getLast? = some c) : isBlank c = false := by
  rw [trimEnd, List.getLast?_reverse, ← List.find?_not_eq_head?_dropWhile] at last
  simpa using List.find?_some last

theorem withoutReturn_trimEnd (line : List Char) :
    withoutReturn (trimEnd line) = trimEnd line := by
  rw [withoutReturn, if_neg]
  intro last
  cases isBlank_of_getLast?_trimEnd last

theorem trimEnd_trimEnd (line : List Char) : trimEnd (trimEnd line) = trimEnd line := by
  cases last : (trimEnd line).getLast? with
  | none =>
    rw [List.getLast?_eq_none_iff] at last
    rw [last]
    rfl
  | some c =>
    have solid := isBlank_of_getLast?_trimEnd last
    obtain ⟨front, same⟩ := List.getLast?_eq_some_iff.mp last
    rw [same]
    simp [trimEnd, solid]

theorem mem_of_mem_trimEnd {c : Char} {line : List Char} (mem : c ∈ trimEnd line) : c ∈ line :=
  List.mem_reverse.mp ((List.dropWhile_sublist _).subset (List.mem_reverse.mp mem))

theorem trimEnd_eq_nil {line : List Char} : trimEnd line = [] ↔ ∀ c ∈ line, isBlank c = true := by
  simp [trimEnd, List.dropWhile_eq_nil_iff]

theorem trim_eq_nil {line : List Char} : trim line = [] ↔ ∀ c ∈ line, isBlank c = true := by
  rw [trim, trimEnd_eq_nil, trimStart]
  constructor
  · intro blank c mem
    rw [← List.takeWhile_append_dropWhile (p := isBlank) (l := line)] at mem
    cases List.mem_append.mp mem with
    | inl front => exact List.mem_takeWhile_imp front
    | inr back => exact blank c back
  · intro blank c mem
    exact blank c ((List.dropWhile_suffix _).subset mem)

/-- A line that ends with a character that is not blank is blank only if it is empty. -/
theorem eq_nil_of_trim_eq_nil {line : List Char} (trimmed : trimEnd line = line)
    (blank : trim line = []) : line = [] := by
  rw [← trimmed, trimEnd_eq_nil]
  exact trim_eq_nil.mp blank

/-- The line is ended where it ends with a character that is not blank. -/
theorem trimLines_line {line : List Char} (single : '\n' ∉ line) (back : List Char) :
    trimLines (line ++ '\n' :: back) = trimEnd line ++ '\n' :: trimLines back := by
  induction line with
  | nil => exact trimLines_feed back
  | cons c rest ih =>
    simp only [List.mem_cons, not_or] at single
    rw [List.cons_append, trimLines, ih single.2, trimEnd_cons]
    have ends : (trimEnd rest ++ '\n' :: trimLines back).head? = some '\n' ↔ trimEnd rest = [] := by
      cases kept : trimEnd rest with
      | nil => simp
      | cons x more =>
        have other : x ≠ '\n' := by
          rintro rfl
          exact single.2 (mem_of_mem_trimEnd (kept ▸ List.mem_cons_self))
        simp [other]
    by_cases drop : isBlank c = true ∧ trimEnd rest = []
    · rw [if_pos drop, if_pos ⟨drop.1, Ne.symm single.1, ends.mpr drop.2⟩, drop.2]
    · rw [if_neg drop, if_neg fun all => drop ⟨all.1, ends.mp all.2.2⟩]
      rfl

def unlines (lines : List (List Char)) : List Char :=
  lines.flatMap (· ++ ['\n'])

theorem unlines_cons (line : List Char) (rest : List (List Char)) :
    unlines (line :: rest) = line ++ '\n' :: unlines rest := by
  simp [unlines]

theorem trimLines_unlines : ∀ {lines : List (List Char)}, (∀ line ∈ lines, '\n' ∉ line) →
    trimLines (unlines lines) = unlines (lines.map trimEnd)
  | [], _ => rfl
  | line :: rest, single => by
    rw [unlines_cons, trimLines_line (single _ List.mem_cons_self), List.map_cons, unlines_cons,
      trimLines_unlines fun other mem => single other (List.mem_cons_of_mem _ mem)]

theorem unlines_eq_intercalate : ∀ {lines : List (List Char)}, lines ≠ [] →
    unlines lines = ['\n'].intercalate lines ++ ['\n']
  | [line], _ => by simp [unlines]
  | line :: next :: rest, _ => by
    rw [unlines_cons, unlines_eq_intercalate (List.cons_ne_nil next rest),
      List.intercalate_cons_cons]
    simp

theorem splitOn_unlines : ∀ {lines : List (List Char)}, (∀ line ∈ lines, '\n' ∉ line) →
    (unlines lines).splitOn '\n' = lines ++ [[]]
  | [], _ => rfl
  | line :: rest, single => by
    rw [unlines_cons, List.splitOn_append_cons_self,
      splitOn_unlines fun other mem => single other (List.mem_cons_of_mem _ mem),
      List.splitOn_eq_singleton (single _ List.mem_cons_self)]
    rfl

theorem lines_unlines {lines : List (List Char)} (single : ∀ line ∈ lines, '\n' ∉ line) :
    Text.lines (unlines lines) = lines.map withoutReturn := by
  rw [Text.lines, splitOn_unlines single]
  simp

/-- Every text that ends with a line feed is one of lines. -/
theorem exists_unlines : ∀ text : List Char, ∃ line rest, '\n' ∉ line ∧
    (∀ other ∈ rest, '\n' ∉ other) ∧ text ++ ['\n'] = unlines (line :: rest)
  | [] => ⟨[], [], List.not_mem_nil, nofun, rfl⟩
  | c :: text => by
    obtain ⟨line, rest, single, singles, same⟩ := exists_unlines text
    by_cases feed : c = '\n'
    · subst feed
      refine ⟨[], line :: rest, List.not_mem_nil, List.forall_mem_cons.mpr ⟨single, singles⟩, ?_⟩
      rw [unlines_cons, ← same]
      rfl
    · refine ⟨c :: line, rest, by simp [single, Ne.symm feed], singles, ?_⟩
      rw [unlines_cons] at same ⊢
      rw [List.cons_append, same]
      rfl

theorem feed_notMem_of_mem_splitOn {text part : List Char} (mem : part ∈ text.splitOn '\n') :
    '\n' ∉ part :=
  fun feed => by simpa using not_isSep_of_mem_splitOnP mem '\n' feed

/-- A line is what stands between two line feeds, up to a carriage return. -/
theorem exists_part_of_mem_lines {text line : List Char} (mem : line ∈ lines text) :
    ∃ part ∈ text.splitOn '\n', line = withoutReturn part ∨ line = part := by
  rw [lines, List.mem_append, List.mem_map] at mem
  rcases mem with ⟨part, inside, rfl⟩ | last
  · exact ⟨part, List.dropLast_subset _ inside, .inl rfl⟩
  · split at last
    next c more final =>
      exact ⟨line, List.mem_of_getLast? (List.mem_singleton.mp last ▸ final), .inr rfl⟩
    next => cases last

theorem feed_notMem_of_mem_lines {text line : List Char} (mem : line ∈ lines text) :
    '\n' ∉ line := by
  obtain ⟨part, inside, rfl | rfl⟩ := exists_part_of_mem_lines mem
  · intro feed
    rw [withoutReturn] at feed
    split at feed
    · exact feed_notMem_of_mem_splitOn inside (List.dropLast_subset _ feed)
    · exact feed_notMem_of_mem_splitOn inside feed
  · exact feed_notMem_of_mem_splitOn inside

end Installer.Text
