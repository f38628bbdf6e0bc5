import Installer.Proofs.Markup.Spacing
import Installer.Proofs.Markup.Xml

/-! # Reading what has been written

What the reader does with each piece of a document: with escaped values and texts, with CDATA
sections, with the tags of an element.  Each lemma is one equation for the run over the piece and
whatever comes behind it.
-/

namespace Installer.Markup.Xml

/-! ## Runs -/

@[simp] theorem run_nil (s : State) : run s [] = some s := rfl

theorem run_cons (s : State) (c : Char) (rest : List Char) :
    run s (c :: rest) = (s.step? c).bind (run · rest) := rfl

theorem run_append (s : State) (front back : List Char) :
    run s (front ++ back) = (run s front).bind (run · back) := by
  rw [run, List.foldlM_append]
  rfl

/-! ## Characters -/

theorem isBlank_of_isWhite {c : Char} (white : isWhite c = true) : Text.isBlank c = true := by
  simp only [isWhite, Bool.or_eq_true, beq_iff_eq] at white
  rcases white with ((rfl | rfl) | rfl) | rfl <;> decide

/-- White space becomes spaces in an attribute value. -/
def spaceOut (c : Char) : Char :=
  if isWhite c then ' ' else c

theorem lineEnds_append_of_not_mem {front : List Char} (noReturn : '\r' ∉ front)
    (back : List Char) : lineEnds (front ++ back) = front ++ lineEnds back := by
  induction front with
  | nil => rfl
  | cons c front ih =>
    simp only [List.mem_cons, not_or] at noReturn
    rw [List.cons_append, lineEnds, if_neg (Ne.symm noReturn.1), ih noReturn.2]
    rfl

theorem lineEnds_eq_self {text : List Char} (noReturn : '\r' ∉ text) : lineEnds text = text := by
  simpa [lineEnds] using lineEnds_append_of_not_mem noReturn []

/-- The character that an escape begins with is a line feed only if it stands for one. -/
theorem head?_flatMap_eq_feed {escape : Char → List Char} (h : Escapes escape)
    (content : List Char) :
    (content.flatMap escape).head? = some '\n' ↔ content.head? = some '\n' := by
  cases content with
  | nil => rfl
  | cons c rest =>
    rw [List.flatMap_cons, List.head?_append_of_ne_nil _ (h.nonempty c), List.head?_cons]
    by_cases feed : c = '\n'
    · subst feed
      rw [h.blank (by decide)]
      rfl
    · constructor
      · intro first
        exact absurd (List.mem_of_head? first) (h.feed_not_mem feed)
      · rintro ⟨⟩
        exact absurd rfl feed

theorem lineEnds_flatMap {escape : Char → List Char} (h : Escapes escape) :
    ∀ content : List Char,
      lineEnds (content.flatMap escape) = (lineEnds content).flatMap escape
  | [] => rfl
  | c :: rest => by
    have ih := lineEnds_flatMap h rest
    have feed := h.blank (c := '\n') (by decide)
    by_cases ret : c = '\r'
    · subst ret
      rw [List.flatMap_cons, h.blank (by decide), List.singleton_append, lineEnds, lineEnds,
        if_pos rfl, if_pos rfl, ih]
      simp only [head?_flatMap_eq_feed h]
      split
      · rfl
      · rw [List.flatMap_cons, feed]
        rfl
    · have noReturn : '\r' ∉ escape c := by
        intro mem
        cases blank : Text.isBlank c with
        | true =>
          rw [h.blank blank, List.mem_singleton] at mem
          exact ret mem.symm
        | false => cases h.solid blank _ mem
      rw [List.flatMap_cons, lineEnds_append_of_not_mem noReturn, ih, lineEnds, if_neg ret,
        List.flatMap_cons]

theorem map_spaceOut_flatMap {escape : Char → List Char} (h : Escapes escape)
    (content : List Char) :
    (content.flatMap escape).map spaceOut = (content.map spaceOut).flatMap escape := by
  rw [List.map_flatMap, List.flatMap_map]
  apply List.flatMap_congr
  intro c _
  cases white : isWhite c with
  | true =>
    have space : spaceOut c = ' ' := if_pos white
    rw [h.blank (isBlank_of_isWhite white), space, h.blank (by decide)]
    simp [space]
  | false =>
    have same : spaceOut c = c := if_neg (by simp [white])
    rw [same]
    refine (List.map_congr_left fun x mem => ?_).trans (List.map_id _)
    apply if_neg
    intro whiteInside
    have blankInside := isBlank_of_isWhite whiteInside
    cases blank : Text.isBlank c with
    | true =>
      rw [h.blank blank, List.mem_singleton] at mem
      cases (mem ▸ white).symm.trans whiteInside
    | false => cases (h.solid blank x mem).symm.trans blankInside

/-! ## References -/

theorem resolve_name (rest : List Char) : ∀ {name : List Char} (seen : List Char), ';' ∉ name →
    resolve? (some seen) (name ++ ';' :: rest) =
      (reference? (seen.reverse ++ name)).bind fun x => (resolve? none rest).map (x :: ·)
  | [], seen, _ => by
    rw [List.nil_append, List.append_nil, resolve?, if_pos rfl]
    simp only [Option.pure_def, Option.bind_eq_bind, Option.map_eq_bind]
    rfl
  | c :: name, seen, plain => by
    simp only [List.mem_cons, not_or] at plain
    rw [List.cons_append, resolve?, if_neg (Ne.symm plain.1), resolve_name rest (c :: seen) plain.2,
      List.reverse_cons, List.append_assoc, List.singleton_append]

theorem resolve_reference (name : List Char) {x : Char} (plain : ';' ∉ name)
    (found : reference? name = some x) (rest : List Char) :
    resolve? none ('&' :: (name ++ ';' :: rest)) = (resolve? none rest).map (x :: ·) := by
  rw [resolve?, if_pos rfl, resolve_name rest [] plain, List.reverse_nil, List.nil_append, found]
  rfl

theorem resolve_cons {c : Char} (other : c ≠ '&') (rest : List Char) :
    resolve? none (c :: rest) = (resolve? none rest).map (c :: ·) := by
  rw [resolve?, if_neg other]

theorem resolve_escapeAttrChar (c : Char) (rest : List Char) :
    resolve? none (escapeAttrChar c ++ rest) = (resolve? none rest).map (c :: ·) := by
  unfold escapeAttrChar
  split
  · exact resolve_reference "amp".toList (by decide) (by decide) rest
  · exact resolve_reference "lt".toList (by decide) (by decide) rest
  · exact resolve_reference "gt".toList (by decide) (by decide) rest
  · exact resolve_reference "quot".toList (by decide) (by decide) rest
  · exact resolve_reference "apos".toList (by decide) (by decide) rest
  next other _ _ _ _ => exact resolve_cons other rest

theorem resolve_escapeTextChar (c : Char) (rest : List Char) :
    resolve? none (escapeTextChar c ++ rest) = (resolve? none rest).map (c :: ·) := by
  unfold escapeTextChar
  split
  · exact resolve_reference "amp".toList (by decide) (by decide) rest
  · exact resolve_reference "lt".toList (by decide) (by decide) rest
  · exact resolve_reference "gt".toList (by decide) (by decide) rest
  next other _ _ => exact resolve_cons other rest

theorem resolve_flatMap {escape : Char → List Char}
    (each : ∀ c rest, resolve? none (escape c ++ rest) = (resolve? none rest).map (c :: ·))
    (content : List Char) : resolve? none (content.flatMap escape) = some content := by
  induction content with
  | nil => rfl
  | cons c rest ih => rw [List.flatMap_cons, each, ih, Option.map_some]

/-! ## Values and texts -/

/-- A text without a character of the pattern does not contain the pattern. -/
theorem contains_eq_false {pattern : List Char} {c : Char} (inside : c ∈ pattern) :
    ∀ {text : List Char}, c ∉ text → Text.contains pattern text = false
  | [], _ => by
    cases pattern with
    | nil => cases inside
    | cons => rfl
  | x :: rest, absent => by
    have missing : pattern.isPrefixOf (x :: rest) = false := by
      rw [← Bool.not_eq_true]
      intro here
      exact absent ((List.isPrefixOf_iff_prefix.mp here).subset inside)
    have later := contains_eq_false inside fun mem => absent (List.mem_cons_of_mem x mem)
    rw [Text.contains] at later ⊢
    rw [Text.cutAt?, missing]
    simpa using later

theorem lt_not_mem_escapeAttrChar (c : Char) : '<' ∉ escapeAttrChar c := by
  unfold escapeAttrChar
  split
  case h_6 other _ _ _ => exact fun mem => other (List.mem_singleton.mp mem).symm
  all_goals decide

theorem quote_not_mem_escapeAttrChar (c : Char) : '"' ∉ escapeAttrChar c := by
  unfold escapeAttrChar
  split
  case h_6 other _ => exact fun mem => other (List.mem_singleton.mp mem).symm
  all_goals decide

theorem lt_not_mem_escapeTextChar (c : Char) : '<' ∉ escapeTextChar c := by
  unfold escapeTextChar
  split
  case h_4 other _ => exact fun mem => other (List.mem_singleton.mp mem).symm
  all_goals decide

theorem gt_not_mem_escapeTextChar (c : Char) : '>' ∉ escapeTextChar c := by
  unfold escapeTextChar
  split
  case h_4 other => exact fun mem => other (List.mem_singleton.mp mem).symm
  all_goals decide

theorem not_mem_flatMap {escape : Char → List Char} {x : Char} (never : ∀ c, x ∉ escape c)
    (content : List Char) : x ∉ content.flatMap escape := by
  rw [List.mem_flatMap]
  rintro ⟨c, _, mem⟩
  exact never c mem

/-- A value as an attribute reports it. -/
def reported (content : List Char) : List Char :=
  (lineEnds content).map spaceOut

theorem valueOf_flatMap (content : List Char) :
    valueOf? (content.flatMap escapeAttrChar) = some (reported content) := by
  rw [valueOf?, if_neg (not_mem_flatMap lt_not_mem_escapeAttrChar content),
    lineEnds_flatMap escapes_escapeAttrChar]
  refine (congrArg _ (map_spaceOut_flatMap escapes_escapeAttrChar _)).trans ?_
  exact resolve_flatMap resolve_escapeAttrChar _

theorem textOf_flatMap (content : List Char) :
    textOf? (content.flatMap escapeTextChar) = some (lineEnds content) := by
  have absent := not_mem_flatMap gt_not_mem_escapeTextChar content
  rw [textOf?, contains_eq_false (by decide) absent, lineEnds_flatMap escapes_escapeTextChar]
  exact resolve_flatMap resolve_escapeTextChar _

/-! ## Names -/

theorem isNameChar_of_mem {name : List Char} (named : isName name = true) {c : Char}
    (mem : c ∈ name) : isNameChar c = true := by
  cases name with
  | nil => cases mem
  | cons first rest =>
    simp only [isName, Bool.and_eq_true, List.all_eq_true] at named
    cases List.mem_cons.mp mem with
    | inl here => simp [isNameChar, here, named.1]
    | inr later => exact named.2 c later

theorem not_mem_name {name : List Char} (named : isName name = true) {c : Char}
    (other : isNameChar c = false) : c ∉ name := by
  intro mem
  rw [isNameChar_of_mem named mem] at other
  cases other

/-! ## Tags -/

namespace State

/-- Adding an element does not look at where the reader is. -/
theorem attach_goTo (s : State) (e : Element) (mode : Mode) :
    (s.attach? e).map (·.goTo mode) = (s.goTo mode).attach? e := by
  obtain ⟨_, parents, root⟩ := s
  cases parents with
  | nil => cases root <;> rfl
  | cons => rfl

end State

variable {parents : List OpenElement} {root : Option Element}

/-- Characters at which the reader stays in a mode are gathered. -/
theorem run_gather (mode : List Char → Mode) (stays : Char → Prop)
    (step : ∀ raw c, stays c → State.step? ⟨mode raw, parents, root⟩ c =
      some ⟨mode (c :: raw), parents, root⟩) (back : List Char) :
    ∀ {front : List Char} (raw : List Char), (∀ c ∈ front, stays c) →
      run ⟨mode raw, parents, root⟩ (front ++ back) =
        run ⟨mode (front.reverse ++ raw), parents, root⟩ back
  | [], raw, _ => rfl
  | c :: front, raw, all => by
    rw [List.forall_mem_cons] at all
    rw [List.cons_append, run_cons, step raw c all.1, Option.bind_some,
      run_gather mode stays step back (c :: raw) all.2, List.reverse_cons, List.append_assoc,
      List.singleton_append]

theorem step_data (raw : List Char) (c : Char) :
    State.step? ⟨.data raw, parents, root⟩ c =
      if c = '<' then
        (textOf? raw.reverse).bind fun content =>
          (State.addText? ⟨.data raw, parents, root⟩ content).map (·.goTo .markup)
      else some ⟨.data (c :: raw), parents, root⟩ := by
  simp only [Option.map_eq_bind]
  rfl

theorem run_data (raw : List Char) {front : List Char} (outer : '<' ∉ front) (back : List Char) :
    run ⟨.data raw, parents, root⟩ (front ++ back) =
      run ⟨.data (front.reverse ++ raw), parents, root⟩ back := by
  apply run_gather .data (· ≠ '<')
  · intro raw c other
    rw [step_data, if_neg other]
  · rintro c mem rfl
    exact outer mem

theorem step_markup {c : Char} (start : isNameStart c = true) :
    State.step? ⟨.markup, parents, root⟩ c = some ⟨.startTag [c], parents, root⟩ := by
  have stroke : c ≠ '/' := by
    rintro rfl
    exact absurd start (by decide)
  have exclamation : c ≠ '!' := by
    rintro rfl
    exact absurd start (by decide)
  have question : c ≠ '?' := by
    rintro rfl
    exact absurd start (by decide)
  simp [State.step?, State.goTo, stroke, exclamation, question, start]

/-- Behind the name of a start tag the reader goes on as behind an attribute. -/
theorem run_startTag {name : List Char} (named : isName name = true) {c : Char}
    (ends : isNameChar c = false) (back : List Char) :
    run ⟨.markup, parents, root⟩ (name ++ c :: back) =
      run ⟨.inTag ⟨String.ofList name, []⟩ false, parents, root⟩ (c :: back) := by
  cases name with
  | nil => cases named
  | cons first rest =>
    simp only [isName, Bool.and_eq_true, List.all_eq_true] at named
    have stays : ∀ raw x, isNameChar x = true →
        State.step? ⟨.startTag raw, parents, root⟩ x = some ⟨.startTag (x :: raw), parents, root⟩ :=
      fun raw x char => if_pos char
    have behind : State.step? ⟨.startTag (rest.reverse ++ [first]), parents, root⟩ c =
        State.step? ⟨.inTag ⟨String.ofList (first :: rest), []⟩ false, parents, root⟩ c := by
      simp [State.step?, ends, State.stepInTag?, State.goTo, State.openTag]
    rw [List.cons_append, run_cons, step_markup named.1, Option.bind_some,
      run_gather .startTag _ stays (c :: back) [first] named.2, run_cons, behind, run_cons]

theorem step_inTag {tag : Tag} {c : Char} (start : isNameStart c = true) :
    State.step? ⟨.inTag tag true, parents, root⟩ c = some ⟨.attrName tag [c], parents, root⟩ := by
  have stroke : c ≠ '/' := by
    rintro rfl
    exact absurd start (by decide)
  have close : c ≠ '>' := by
    rintro rfl
    exact absurd start (by decide)
  have white : isWhite c = false := by
    rw [← Bool.not_eq_true]
    intro white
    simp only [isWhite, Bool.or_eq_true, beq_iff_eq] at white
    rcases white with ((rfl | rfl) | rfl) | rfl <;> exact absurd start (by decide)
  simp [State.step?, State.stepInTag?, State.goTo, stroke, close, white, start]

theorem run_attrName (tag : Tag) {name : List Char} (named : isName name = true)
    (back : List Char) :
    run ⟨.inTag tag false, parents, root⟩ (' ' :: (name ++ '=' :: '"' :: back)) =
      run ⟨.value tag name.reverse '"' [], parents, root⟩ back := by
  cases name with
  | nil => cases named
  | cons first rest =>
    simp only [isName, Bool.and_eq_true, List.all_eq_true] at named
    have stays : ∀ raw x, isNameChar x = true →
        State.step? ⟨.attrName tag raw, parents, root⟩ x =
          some ⟨.attrName tag (x :: raw), parents, root⟩ :=
      fun raw x char => if_pos char
    have space : State.step? ⟨.inTag tag false, parents, root⟩ ' ' =
        some ⟨.inTag tag true, parents, root⟩ := rfl
    rw [run_cons, space, Option.bind_some, List.cons_append, run_cons, step_inTag named.1,
      Option.bind_some, run_gather (.attrName tag) _ stays _ [first] named.2,
      List.reverse_cons]
    rfl

theorem step_value (tag : Tag) (name raw : List Char) {c : Char} (inside : c ≠ '"') :
    State.step? ⟨.value tag name '"' raw, parents, root⟩ c =
      some ⟨.value tag name '"' (c :: raw), parents, root⟩ :=
  if_neg inside

/-- An attribute whose name the tag does not have yet. -/
theorem run_attr {tag : Tag} {name : String} (named : isName name.toList = true)
    (fresh : name ∉ tag.attrs.map Prod.fst) (content back : List Char) :
    run ⟨.inTag tag false, parents, root⟩ (' ' :: (name.toList ++ '=' :: '"' ::
        (content.flatMap escapeAttrChar ++ '"' :: back))) =
      run ⟨.inTag ⟨tag.name, tag.attrs ++ [(name, String.ofList (reported content))]⟩ false,
        parents, root⟩ back := by
  have inside : ∀ c ∈ content.flatMap escapeAttrChar, c ≠ '"' := by
    rintro c mem rfl
    exact not_mem_flatMap quote_not_mem_escapeAttrChar content mem
  have ends : State.step? ⟨.value tag name.toList.reverse '"'
        ((content.flatMap escapeAttrChar).reverse ++ []), parents, root⟩ '"' =
      some ⟨.inTag ⟨tag.name, tag.attrs ++ [(name, String.ofList (reported content))]⟩ false,
        parents, root⟩ := by
    simp only [State.step?, State.addValue?, List.append_nil, List.reverse_reverse,
      valueOf_flatMap, String.ofList_toList, if_neg fresh, if_true]
    rfl
  rw [run_attrName tag named, run_gather (.value tag name.toList.reverse '"') _
    (fun raw c other => step_value tag _ raw other) _ [] inside, run_cons, ends]
  rfl

theorem closeTag_eq (mode : Mode) (name : String) (attrs : List (String × String))
    (nodes : List (Node Element)) :
    State.closeTag? ⟨mode, ⟨name, attrs, nodes⟩ :: parents, root⟩ name =
      State.attach? ⟨mode, parents, root⟩ ⟨name, attrs, settle nodes.reverse⟩ :=
  if_pos rfl

/-- The end of an empty tag. -/
theorem run_endEmptyTag (tag : Tag) (back : List Char) :
    run ⟨.inTag tag false, parents, root⟩ (' ' :: '/' :: '>' :: back) =
      (State.attach? ⟨.data [], parents, root⟩ ⟨tag.name, tag.attrs, []⟩).bind (run · back) := by
  have ends : State.step? ⟨.emptyTag tag, parents, root⟩ '>' =
      State.attach? ⟨.data [], parents, root⟩ ⟨tag.name, tag.attrs, []⟩ := by
    refine Eq.trans ?_ (State.attach_goTo ⟨.emptyTag tag, parents, root⟩ _ (.data []))
    exact congrArg (Option.map _) (closeTag_eq (.emptyTag tag) tag.name tag.attrs [])
  have space : State.step? ⟨.inTag tag false, parents, root⟩ ' ' =
      some ⟨.inTag tag true, parents, root⟩ := rfl
  have stroke : State.step? ⟨.inTag tag true, parents, root⟩ '/' =
      some ⟨.emptyTag tag, parents, root⟩ := rfl
  rw [run_cons, space, Option.bind_some, run_cons, stroke, Option.bind_some, run_cons, ends]

theorem run_closeTag {name : String} (named : isName name.toList = true)
    (attrs : List (String × String)) (nodes : List (Node Element)) (back : List Char) :
    run ⟨.markup, ⟨name, attrs, nodes⟩ :: parents, root⟩ ('/' :: (name.toList ++ '>' :: back)) =
      (State.attach? ⟨.data [], parents, root⟩ ⟨name, attrs, settle nodes.reverse⟩).bind
        (run · back) := by
  have nameChars : ∀ c ∈ name.toList, isNameChar c = true :=
    fun _ mem => isNameChar_of_mem named mem
  have stays : ∀ raw x, isNameChar x = true →
      State.step? ⟨.endTag raw, ⟨name, attrs, nodes⟩ :: parents, root⟩ x =
        some ⟨.endTag (x :: raw), ⟨name, attrs, nodes⟩ :: parents, root⟩ :=
    fun raw x char => if_pos char
  have stroke : State.step? ⟨.markup, ⟨name, attrs, nodes⟩ :: parents, root⟩ '/' =
      some ⟨.endTag [], ⟨name, attrs, nodes⟩ :: parents, root⟩ := rfl
  have ends :
      State.step? ⟨.endTag (name.toList.reverse ++ []), ⟨name, attrs, nodes⟩ :: parents, root⟩ '>' =
      State.attach? ⟨.data [], parents, root⟩ ⟨name, attrs, settle nodes.reverse⟩ := by
    refine Eq.trans ?_ (State.attach_goTo ⟨.endTag (name.toList.reverse ++ []), parents, root⟩ _
      (.data []))
    rw [← closeTag_eq (.endTag (name.toList.reverse ++ [])) name attrs nodes]
    have other : isNameChar '>' = false := by decide
    have white : isWhite '>' = false := by decide
    simp [State.step?, State.stepEndTag?, other, white]
  rw [run_cons, stroke, Option.bind_some, run_gather .endTag _ stays _ [] nameChars, run_cons, ends]

/-! ## CDATA sections -/

theorem run_openSection (parent : OpenElement) (back : List Char) :
    run ⟨.markup, parent :: parents, root⟩ ("![CDATA[".toList ++ back) =
      run ⟨.cdata [], parent :: parents, root⟩ back := by
  rw [run_append]
  rfl

/-- The open element with more characters behind those it has. -/
def OpenElement.say (parent : OpenElement) (content : List Char) : OpenElement :=
  { parent with nodes := addText content parent.nodes }

theorem step_cdata (raw : List Char) (c : Char) (parent : OpenElement) :
    State.step? ⟨.cdata raw, parent :: parents, root⟩ c =
      if c = '>' ∧ [']', ']'].isPrefixOf raw then
        some ⟨.data [], parent.say (lineEnds (raw.drop 2).reverse) :: parents, root⟩
      else some ⟨.cdata (c :: raw), parent :: parents, root⟩ := rfl

/-- A section is read to its end and no further. -/
theorem run_section (parent : OpenElement) (back : List Char) :
    ∀ (front : List Char) {part : List Char}, Unclosed (front ++ part) →
      run ⟨.cdata front.reverse, parent :: parents, root⟩ (part ++ (cdataClose ++ back)) =
        run ⟨.data [], parent.say (lineEnds (front ++ part)) :: parents, root⟩ back
  | front, [], _ => by
    have close : cdataClose = [']', ']', '>'] := by decide
    have first : ∀ raw, State.step? ⟨.cdata raw, parent :: parents, root⟩ ']' =
        some ⟨.cdata (']' :: raw), parent :: parents, root⟩ := by
      intro raw
      rw [step_cdata, if_neg fun both => absurd both.1 (by decide)]
    rw [List.nil_append, List.append_nil, close, List.cons_append, run_cons, first,
      Option.bind_some, List.cons_append, run_cons, first, Option.bind_some, List.cons_append,
      run_cons, step_cdata, if_pos ⟨rfl, by simp [List.isPrefixOf]⟩, Option.bind_some]
    simp
  | front, c :: part, unclosed => by
    have goesOn : ¬ (c = '>' ∧ [']', ']'].isPrefixOf front.reverse = true) := by
      rintro ⟨rfl, closing⟩
      obtain ⟨early, same⟩ := List.isPrefixOf_iff_prefix.mp closing
      have before : front = early.reverse ++ [']', ']'] := by
        rw [← List.reverse_reverse front, ← same]
        simp
      rw [before, List.append_assoc] at unclosed
      exact not_unclosed_cdataClose unclosed.of_append
    rw [List.cons_append, run_cons, step_cdata, if_neg goesOn, Option.bind_some]
    have unclosed : Unclosed ((front ++ [c]) ++ part) := by simpa using unclosed
    simpa using run_section parent back (front ++ [c]) unclosed

/-! ## The content of an element -/

theorem lineEnds_append {back : List Char} (noFeed : back.head? ≠ some '\n') :
    ∀ front : List Char, lineEnds (front ++ back) = lineEnds front ++ lineEnds back
  | [] => rfl
  | c :: front => by
    have ih := lineEnds_append noFeed front
    have same : (front ++ back).head? = some '\n' ↔ front.head? = some '\n' := by
      cases front with
      | nil => simpa using noFeed
      | cons => rfl
    rw [List.cons_append, lineEnds, lineEnds, ih]
    simp only [same]
    split
    · split <;> rfl
    · rfl

theorem addText_addText (front back : List Char) (nodes : List (Node Element)) :
    addText back (addText front nodes) = addText (front ++ back) nodes := by
  cases front with
  | nil => rfl
  | cons c front =>
    cases back with
    | nil =>
      rw [List.append_nil]
      rfl
    | cons d back =>
      have joined : String.ofList (c :: front ++ d :: back) =
          String.ofList (c :: front) ++ String.ofList (d :: back) := String.ofList_append
      cases nodes with
      | nil =>
        simp only [addText, joined]
        rfl
      | cons node rest =>
        cases node with
        | text before =>
          simp only [addText, joined, ← String.append_assoc]
          rfl
        | element child =>
          simp only [addText, joined]
          rfl
        | cdata content =>
          simp only [addText, joined]
          rfl

@[simp] theorem OpenElement.say_nil (parent : OpenElement) : parent.say [] = parent := rfl

theorem OpenElement.say_say (parent : OpenElement) (front back : List Char) :
    (parent.say front).say back = parent.say (front ++ back) := by
  simp [say, addText_addText]

/-- The text that is pending at a tag is said by then. -/
theorem run_lt (pending back : List Char) (parent : OpenElement) :
    run ⟨.data (pending.flatMap escapeTextChar).reverse, parent :: parents, root⟩ ('<' :: back) =
      run ⟨.markup, parent.say (lineEnds pending) :: parents, root⟩ back := by
  rw [run_cons, step_data, if_pos rfl, List.reverse_reverse, textOf_flatMap]
  rfl

theorem run_text (pending : List Char) (content back : List Char) (parent : OpenElement) :
    run ⟨.data (pending.flatMap escapeTextChar).reverse, parent :: parents, root⟩
        (content.flatMap escapeTextChar ++ back) =
      run ⟨.data ((pending ++ content).flatMap escapeTextChar).reverse, parent :: parents, root⟩
        back := by
  rw [run_data _ (not_mem_flatMap lt_not_mem_escapeTextChar content)]
  simp

theorem run_cdataSection (pending : List Char) {part : List Char} (unclosed : Unclosed part)
    (back : List Char) (parent : OpenElement) :
    run ⟨.data (pending.flatMap escapeTextChar).reverse, parent :: parents, root⟩
        (cdataSection part ++ back) =
      run ⟨.data [], parent.say (lineEnds pending ++ lineEnds part) :: parents, root⟩ back := by
  have lead : cdataOpen = '<' :: "![CDATA[".toList := by decide
  have inner : run ⟨.cdata [], parent.say (lineEnds pending) :: parents, root⟩
      (part ++ (cdataClose ++ back)) =
        run ⟨.data [], (parent.say (lineEnds pending)).say (lineEnds part) :: parents, root⟩ back :=
    run_section _ back [] unclosed
  rw [cdataSection, List.append_assoc, lead, List.cons_append, run_lt, run_openSection,
    List.append_assoc, inner, OpenElement.say_say]

/-- The sections of a content say the content. -/
theorem run_sections {parts : List (List Char)} {content : List Char} (cut : Parts parts content)
    (pending back : List Char) (parent : OpenElement) :
    run ⟨.data (pending.flatMap escapeTextChar).reverse, parent :: parents, root⟩
        (parts.flatMap cdataSection ++ back) =
      run ⟨.data [], parent.say (lineEnds pending ++ lineEnds content) :: parents, root⟩ back := by
  induction cut generalizing pending parent with
  | last unclosed =>
    rw [List.flatMap_singleton, run_cdataSection pending unclosed]
  | @cons part more rest unclosed _ ih =>
    have rest := ih [] (parent.say (lineEnds pending ++ lineEnds part))
    rw [List.flatMap_cons, List.append_assoc, run_cdataSection pending unclosed,
      lineEnds_append (by simp) part, ← List.append_assoc]
    rw [OpenElement.say_say] at rest
    exact rest

end Installer.Markup.Xml
