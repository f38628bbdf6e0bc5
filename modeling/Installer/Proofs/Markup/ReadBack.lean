import Installer.Proofs.Markup.Reading
import Installer.Proofs.Markup.Subtree

/-! # Reading a document back

The final text of every well-formed document is read without an error, and what is reported for each
element can be told from the element (`Reported`).  An attribute value is reported as it is if it
has no white space but spaces, and only then; a content is if it stands on one line.
-/

namespace Installer.Markup

open Text (trimLines)

/-! ## Documents -/

/-- Spaces are the only white space in the value. -/
def OnlySpaces (value : String) : Prop :=
  ∀ c ∈ value.toList, Xml.isWhite c = true → c = ' '

def SingleLine (content : String) : Prop :=
  '\n' ∉ content.toList ∧ '\r' ∉ content.toList

/-- The element itself can be written: its names are names of XML, no attribute is there twice, and
it has either elements or characters in it. -/
structure WellFormed (e : Element) : Prop where
  named : Xml.isName e.name.toList = true
  attrsNamed : ∀ pair ∈ e.attrs, Xml.isName pair.1.toList = true
  distinct : (e.attrs.map Prod.fst).Nodup
  unmixed : (∀ node ∈ e.children, node.element?.isSome = true) ∨
    ∀ node ∈ e.children, node.element? = none

/-- Nothing at the ends of the lines is lost. -/
def KeepsLines (content : String) : Prop :=
  '\r' ∉ content.toList ∧ trimLines content.toList = content.toList

structure ReportedAttr (pair shown : String × String) : Prop where
  name : shown.1 = pair.1
  spaces : OnlySpaces shown.2
  value : shown.2 = pair.2 ↔ OnlySpaces pair.2

structure ReportedContent (e shown : Element) : Prop where
  single : SingleLine e.content → shown.content = e.content
  cdata : ∀ content, e.children = [.cdata content] →
    shown.content.toList = Xml.lineEnds (trimLines content.toList) ∧
      (shown.content = content ↔ KeepsLines content)

/-- The second element is what a reader reports for the first. -/
inductive Reported : Element → Element → Prop where
  | mk {e shown : Element} : shown.name = e.name →
    List.Forall₂ ReportedAttr e.attrs shown.attrs → ReportedContent e shown →
    List.Forall₂ Reported e.elements shown.elements → Reported e shown

/-! ## Attributes -/

theorem onlySpaces_reported (content : List Char) :
    ∀ c ∈ Xml.reported content, Xml.isWhite c = true → c = ' ' := by
  intro c mem white
  obtain ⟨x, _, rfl⟩ := List.mem_map.mp mem
  unfold Xml.spaceOut at white ⊢
  split
  case isTrue => rfl
  case isFalse plain =>
    rw [if_neg plain] at white
    exact absurd white plain

theorem reported_eq_self {content : List Char}
    (spaces : ∀ c ∈ content, Xml.isWhite c = true → c = ' ') :
    Xml.reported content = content := by
  have noReturn : '\r' ∉ content := fun mem => by cases spaces _ mem (by decide)
  rw [Xml.reported, Xml.lineEnds_eq_self noReturn]
  refine (List.map_congr_left fun c mem => ?_).trans (List.map_id _)
  unfold Xml.spaceOut
  split
  case isTrue white => exact (spaces c mem white).symm
  case isFalse => rfl

theorem GoesOn.attrs {attrs : List (String × String)} {back : List Char} (h : GoesOn back)
    (named : ∀ pair ∈ attrs, Xml.isName pair.1.toList = true) :
    GoesOn (attrs.flatMap attrChars ++ back) := by
  cases attrs with
  | nil => exact h
  | cons pair rest =>
    have single : '\n' ∉ ' ' :: pair.1.toList := by
      simp [Xml.not_mem_name (named pair List.mem_cons_self)
        (show Xml.isNameChar '\n' = false by decide)]
    have sign := goesOn_cons (show Text.isBlank '=' = false by decide)
      ('"' :: (pair.2.toList.flatMap escapeAttrChar ++ '"' :: (rest.flatMap attrChars ++ back)))
    simpa [attrChars] using sign.append single

theorem OnlySpaces.not_mem {value : String} (spaces : OnlySpaces value) {c : Char}
    (white : Xml.isWhite c = true) (other : c ≠ ' ') : c ∉ value.toList :=
  fun mem => other (spaces c mem white)

theorem Turned.attr_inv {pair : String × String} (named : Xml.isName pair.1.toList = true)
    {back out : List Char} (h : Turned (attrChars pair ++ back) out) :
    ∃ shown later, Turned back later ∧
      out = ' ' :: (pair.1.toList ++ '=' :: '"' :: (shown.flatMap escapeAttrChar ++ '"' :: later)) ∧
      (OnlySpaces pair.2 → shown = pair.2.toList) := by
  have pieces : attrChars pair ++ back = (' ' :: pair.1.toList) ++ (['=', '"'] ++
      (pair.2.toList.flatMap escapeAttrChar ++ (['"'] ++ back))) := by
    simp [attrChars]
  have outer : '<' ∉ ' ' :: pair.1.toList := by
    simp [Xml.not_mem_name named (show Xml.isNameChar '<' = false by decide)]
  have single : '\n' ∉ ' ' :: pair.1.toList := by
    simp [Xml.not_mem_name named (show Xml.isNameChar '\n' = false by decide)]
  have quote : GoesOn (['"'] ++ back) := goesOn_cons (by decide) back
  rw [pieces] at h
  obtain ⟨_, rfl, afterName⟩ := h.quiet_inv outer single (goesOn_cons (by decide) _)
  obtain ⟨_, rfl, afterSign⟩ := afterName.solid_inv ['=', '"'] (by decide) (by decide)
  obtain ⟨shown, _, rfl, afterValue, _, same⟩ := afterSign.escaped_inv escapes_escapeAttrChar
    (Xml.not_mem_flatMap Xml.lt_not_mem_escapeAttrChar _)
  obtain ⟨later, rfl, kept⟩ := afterValue.solid_inv ['"'] (by decide) (by decide)
  refine ⟨shown, later, kept, by simp, fun spaces => same ?_ quote⟩
  exact spaces.not_mem (by decide) (by decide)

theorem reportedAttr {pair : String × String} {shown : List Char}
    (same : OnlySpaces pair.2 → shown = pair.2.toList) :
    ReportedAttr pair (pair.1, String.ofList (Xml.reported shown)) where
  name := rfl
  spaces := by
    rw [OnlySpaces, String.toList_ofList]
    exact onlySpaces_reported shown
  value := by
    constructor
    · intro whole
      rw [OnlySpaces, ← whole, String.toList_ofList]
      exact onlySpaces_reported shown
    · intro spaces
      rw [same spaces, reported_eq_self spaces, String.ofList_toList]

/-- The attributes of a tag are read one by one. -/
theorem Turned.attrs_inv {back : List Char}
    (ends : ∀ {out}, Turned back out → ∃ c more, out = c :: more ∧ Xml.isNameChar c = false) :
    ∀ {attrs : List (String × String)} {out : List Char},
      (∀ pair ∈ attrs, Xml.isName pair.1.toList = true) →
      Turned (attrs.flatMap attrChars ++ back) out →
      ∃ shown later c more, out = c :: more ∧ Xml.isNameChar c = false ∧ Turned back later ∧
        List.Forall₂ ReportedAttr attrs shown ∧
        ∀ parents root (tag : Xml.Tag), (tag.attrs.map Prod.fst ++ attrs.map Prod.fst).Nodup →
          Xml.run ⟨.inTag tag false, parents, root⟩ out =
            Xml.run ⟨.inTag ⟨tag.name, tag.attrs ++ shown⟩ false, parents, root⟩ later
  | [], out, _, h => by
    obtain ⟨c, more, begins, plain⟩ := ends h
    refine ⟨[], out, c, more, begins, plain, h, .nil, fun parents root tag _ => ?_⟩
    rw [List.append_nil]
  | pair :: rest, out, named, h => by
    rw [List.forall_mem_cons] at named
    rw [List.flatMap_cons, List.append_assoc] at h
    obtain ⟨value, behind, kept, rfl, same⟩ := attr_inv named.1 h
    obtain ⟨shown, later, _, _, _, _, turned, each, reads⟩ := attrs_inv ends named.2 kept
    refine ⟨(pair.1, String.ofList (Xml.reported value)) :: shown, later, ' ', _, rfl, by decide,
      turned, .cons (reportedAttr same) each, fun parents root tag distinct => ?_⟩
    have fresh : pair.1 ∉ tag.attrs.map Prod.fst := by
      intro mem
      exact (List.nodup_append.mp distinct).2.2 _ mem _ List.mem_cons_self rfl
    rw [Xml.run_attr named.1 fresh, reads parents root ⟨tag.name, _⟩]
    · simp
    · simpa using distinct

/-- An opening tag up to its end. -/
theorem Turned.openTag_inv {e : Element} (written : WellFormed e) {back out : List Char}
    (goesOn : GoesOn back)
    (ends : ∀ {out}, Turned back out → ∃ c more, out = c :: more ∧ Xml.isNameChar c = false)
    (h : Turned (openChars e.name e.attrs ++ back) out) :
    ∃ shown inner later, out = '<' :: inner ∧ Turned back later ∧
      List.Forall₂ ReportedAttr e.attrs shown ∧
      ∀ parents root, Xml.run ⟨.markup, parents, root⟩ inner =
        Xml.run ⟨.inTag ⟨e.name, shown⟩ false, parents, root⟩ later := by
  have named := written.named
  obtain ⟨first, front, name⟩ : ∃ first front, e.name.toList = first :: front := by
    cases chars : e.name.toList with
    | nil => rw [chars] at named; cases named
    | cons first front => exact ⟨first, front, rfl⟩
  have plain : first ≠ '!' := by
    rintro rfl
    have absent := Xml.not_mem_name named (show Xml.isNameChar '!' = false by decide)
    exact absent (name ▸ List.mem_cons_self)
  have pieces : openChars e.name e.attrs ++ back =
      '<' :: (first :: front ++ (e.attrs.flatMap attrChars ++ back)) := by
    simp [openChars, name]
  rw [pieces] at h
  rw [name] at named
  obtain ⟨_, rfl, afterName⟩ := h.tag_inv plain (Xml.not_mem_name named (by decide))
    (Xml.not_mem_name named (by decide)) (goesOn.attrs written.attrsNamed)
  obtain ⟨shown, later, c, more, rfl, stops, turned, each, reads⟩ :=
    afterName.attrs_inv ends written.attrsNamed
  refine ⟨shown, _, later, rfl, turned, each, fun parents root => ?_⟩
  rw [Xml.run_startTag named stops, reads parents root ⟨_, []⟩ (by simpa using written.distinct),
    ← name, String.ofList_toList]
  rfl

/-! ## Characters -/

def spoken (nodes : List (Node Element)) : List Char :=
  nodes.flatMap fun node => node.content.toList

theorem feed_not_mem_contentChars {node : Node Element} (single : '\n' ∉ node.content.toList) :
    '\n' ∉ contentChars node := by
  cases node with
  | element child => exact List.not_mem_nil
  | text content => exact escapes_escapeTextChar.feed_not_mem_flatMap single
  | cdata content =>
    have outer : '\n' ∉ cdataOpen ∧ '\n' ∉ cdataClose := by decide
    have put : '\n' ∉ "]]]]><![CDATA[>".toList := by decide
    have inner : '\n' ∉ Text.replace cdataClose "]]]]><![CDATA[>".toList content.toList :=
      fun mem => (Text.mem_replaceAfter mem).elim single put
    rw [contentChars, cdataText, String.toList_ofList, List.mem_append, List.mem_append]
    exact not_or.mpr ⟨not_or.mpr ⟨outer.1, inner⟩, outer.2⟩

theorem goesOn_characters {nodes : List (Node Element)} (single : '\n' ∉ spoken nodes)
    (back : List Char) : GoesOn (nodes.flatMap contentChars ++ '<' :: back) := by
  apply (goesOn_cons (by decide) back).append
  rw [List.mem_flatMap]
  rintro ⟨node, mem, inside⟩
  apply feed_not_mem_contentChars _ inside
  intro feed
  exact single (List.mem_flatMap.mpr ⟨node, mem, feed⟩)

/-- What a tag finds told behind `pending` and the characters of the nodes. -/
structure Tells (pending : List Char) (nodes : List (Node Element)) (said : List Char) : Prop where
  whole : '\n' ∉ pending ++ spoken nodes → '\r' ∉ pending ++ spoken nodes →
    said = pending ++ spoken nodes
  cdata : ∀ content, pending = [] → nodes = [.cdata content] →
    said = Xml.lineEnds (trimLines content.toList)

/-- Characters between two tags are read to the second one. -/
theorem Turned.characters_inv {back : List Char} :
    ∀ {nodes : List (Node Element)} {out : List Char}, (∀ node ∈ nodes, node.element? = none) →
      Turned (nodes.flatMap contentChars ++ '<' :: back) out → ∀ pending : List Char,
      ∃ said behind, Turned ('<' :: back) ('<' :: behind) ∧ Tells pending nodes said ∧
        ∀ parents root (parent : Xml.OpenElement),
          Xml.run ⟨.data (pending.flatMap escapeTextChar).reverse, parent :: parents, root⟩ out =
            Xml.run ⟨.markup, parent.say said :: parents, root⟩ behind
  | [], out, _, h, pending => by
    obtain ⟨behind, rfl⟩ := h.lt_inv
    refine ⟨Xml.lineEnds pending, behind, h, ?_, fun parents root parent =>
      Xml.run_lt pending behind parent⟩
    refine ⟨fun _ noReturn => ?_, fun _ _ none => nomatch none⟩
    rw [spoken, List.flatMap_nil, List.append_nil] at noReturn ⊢
    exact Xml.lineEnds_eq_self noReturn
  | node :: rest, out, plain, h, pending => by
    rw [List.forall_mem_cons] at plain
    rw [List.flatMap_cons, List.append_assoc] at h
    cases node with
    | element child => cases plain.1
    | text content =>
      obtain ⟨shown, _, rfl, later, _, same⟩ := h.escaped_inv escapes_escapeTextChar
        (Xml.not_mem_flatMap Xml.lt_not_mem_escapeTextChar _)
      obtain ⟨said, behind, turned, tells, reads⟩ := later.characters_inv plain.2 (pending ++ shown)
      refine ⟨said, behind, turned, ?_, fun parents root parent => ?_⟩
      · -- the text is kept as it is where no line ends in it or right behind it
        refine ⟨fun single noReturn => ?_, fun _ _ other => nomatch other⟩
        have all : spoken (.text content :: rest) = content.toList ++ spoken rest := rfl
        rw [all, ← List.append_assoc] at single noReturn ⊢
        simp only [List.mem_append, not_or] at single
        have kept := same single.1.2 (goesOn_characters single.2 back)
        rw [← kept] at noReturn single ⊢
        exact tells.whole (by simp [single]) noReturn
      · rw [Xml.run_text, reads]
    | cdata content =>
      obtain ⟨parts, cut, sections⟩ := exists_parts_cdataText content
      rw [contentChars, sections] at h
      obtain ⟨_, rfl, later⟩ := h.sections_inv cut
      obtain ⟨said, behind, turned, tells, reads⟩ := later.characters_inv plain.2 []
      refine ⟨Xml.lineEnds pending ++ Xml.lineEnds (trimLines content.toList) ++ said, behind,
        turned, ?_, fun parents root parent => ?_⟩
      · constructor
        · intro single noReturn
          have all : spoken (.cdata content :: rest) = content.toList ++ spoken rest := rfl
          rw [all, ← List.append_assoc] at single noReturn ⊢
          simp only [List.mem_append, not_or] at single noReturn
          rw [Text.trimLines_eq_self single.1.2, Xml.lineEnds_eq_self noReturn.1.1,
            Xml.lineEnds_eq_self noReturn.1.2,
            tells.whole (by exact single.2) (by exact noReturn.2)]
          rfl
        · rintro other rfl same
          obtain ⟨same, rfl⟩ := List.cons.inj same
          cases same
          have none : said = [] := tells.whole List.not_mem_nil List.not_mem_nil
          rw [none, List.append_nil]
          rfl
      · rw [Xml.run_sections cut.trimLines, ← Xml.OpenElement.say_say parent (_ ++ _) said]
        exact reads parents root _

/-! ## Elements -/

namespace Xml

/-- The nodes, the last one first, are these elements with white space between them. -/
def Holds (nodes : List (Node Element)) (elements : List Element) : Prop :=
  (nodes.filter fun node => !isWhiteText node) = (elements.map Node.element).reverse

theorem Holds.text {nodes : List (Node Element)} {elements : List Element} {content : String}
    (white : content.toList.all isWhite = true) :
    Holds (.text content :: nodes) elements ↔ Holds nodes elements := by
  have drop : (!isWhiteText (.text content)) = false := by
    simpa [isWhiteText] using white
  rw [Holds, Holds, List.filter_cons_of_neg (by simp [drop])]

theorem Holds.white {nodes : List (Node Element)} {elements : List Element} {content : String}
    (h : Holds (.text content :: nodes) elements) : content.toList.all isWhite = true := by
  by_cases white : content.toList.all isWhite = true
  · exact white
  · have kept : (!isWhiteText (.text content)) = true := by
      simpa [isWhiteText] using white
    rw [Holds, List.filter_cons_of_pos (p := fun node => !isWhiteText node) kept] at h
    have mem : Node.text content ∈ (elements.map Node.element).reverse := h ▸ List.mem_cons_self
    simp at mem

theorem Holds.addText {nodes : List (Node Element)} {elements : List Element}
    (h : Holds nodes elements) {content : List Char} (white : content.all isWhite = true) :
    Holds (addText content nodes) elements := by
  cases content with
  | nil => exact h
  | cons c content =>
    have alone : Holds (.text (String.ofList (c :: content)) :: nodes) elements :=
      (Holds.text (by rw [String.toList_ofList]; exact white)).mpr h
    cases nodes with
    | nil => exact alone
    | cons node rest =>
      cases node with
      | element child => exact alone
      | cdata content => exact alone
      | text before =>
        have all : (before ++ String.ofList (c :: content)).toList.all isWhite = true := by
          rw [String.toList_append, String.toList_ofList, List.all_append, h.white, white]
          rfl
        exact (Holds.text all).mpr ((Holds.text h.white).mp h)

theorem Holds.element {nodes : List (Node Element)} {elements : List Element}
    (h : Holds nodes elements) (child : Element) :
    Holds (.element child :: nodes) (elements ++ [child]) := by
  rw [Holds, List.filter_cons_of_pos (by rfl), h]
  simp

theorem Holds.settle {nodes : List (Node Element)} {elements : List Element}
    (h : Holds nodes elements) (some : elements ≠ []) :
    settle nodes.reverse = elements.map Node.element := by
  have kept : nodes.reverse.filter (fun node => !isWhiteText node) = elements.map .element := by
    rw [List.filter_reverse, h, List.reverse_reverse]
  have found : nodes.reverse.any (fun node => node.element?.isSome) = true := by
    obtain ⟨first, rest, rfl⟩ := List.exists_cons_of_ne_nil some
    rw [List.any_eq_true]
    have mem : Node.element first ∈ nodes.reverse.filter fun node => !isWhiteText node :=
      kept ▸ List.mem_cons_self
    exact ⟨.element first, List.mem_of_mem_filter mem, rfl⟩
  rw [Xml.settle, if_pos found, kept]

theorem textOf_white {raw : List Char} (white : ∀ c ∈ raw, c = '\n' ∨ c = ' ') :
    textOf? raw = some raw := by
  have absent : ∀ c, c ≠ '\n' → c ≠ ' ' → c ∉ raw := fun c feed space mem =>
    (white c mem).elim feed space
  have plain : raw.flatMap escapeTextChar = raw := by
    refine (List.flatMap_congr fun c mem => ?_).trans (List.flatMap_singleton' raw)
    rcases white c mem with rfl | rfl <;> rfl
  have said := textOf_flatMap raw
  rwa [plain, lineEnds_eq_self (absent _ (by decide) (by decide))] at said

theorem all_isWhite {raw : List Char} (white : ∀ c ∈ raw, c = '\n' ∨ c = ' ') :
    raw.all isWhite = true := by
  rw [List.all_eq_true]
  intro c mem
  rcases white c mem with rfl | rfl <;> rfl

/-- White space before a tag. -/
theorem run_white {white : List Char} (all : ∀ c ∈ white, c = '\n' ∨ c = ' ')
    (parents : List OpenElement) (root : Option Element) (back : List Char) :
    run ⟨.data [], parents, root⟩ (white ++ '<' :: back) =
      ((State.addText? ⟨.data [], parents, root⟩ white).map (·.goTo .markup)).bind
        (run · back) := by
  have outer : '<' ∉ white := fun mem => (all _ mem).elim (by decide) (by decide)
  have same : State.addText? ⟨.data white.reverse, parents, root⟩ white =
      (State.addText? ⟨.data [], parents, root⟩ white).map (·.goTo (.data white.reverse)) := by
    cases parents with
    | nil => simp [State.addText?, all_isWhite all, State.goTo]
    | cons => rfl
  rw [run_data [] outer, List.append_nil, run_cons, step_data, if_pos rfl, List.reverse_reverse,
    textOf_white all, Option.bind_some, same, Option.map_map]
  rfl

end Xml

/-- The final text begins with the element, which is read to its end and attached. -/
def ReadsAs (e : Element) (back out : List Char) : Prop :=
  ∃ shown inner later, out = '<' :: inner ∧ Turned back later ∧ Reported e shown ∧
    ∀ parents root, Xml.run ⟨.markup, parents, root⟩ inner =
      (Xml.State.attach? ⟨.data [], parents, root⟩ shown).bind (Xml.run · later)

def ReadsBack (e : Element) : Prop :=
  ∀ {depth : Nat} {back out : List Char}, Turned (Element.chars depth e ++ back) out →
    ReadsAs e back out

theorem Turned.close_inv {name : String} (named : Xml.isName name.toList = true)
    {back behind : List Char} (h : Turned (closeChars name ++ back) ('<' :: behind)) :
    ∃ later, Turned back later ∧ ∀ parents root attrs nodes,
      Xml.run ⟨.markup, ⟨name, attrs, nodes⟩ :: parents, root⟩ behind =
        (Xml.State.attach? ⟨.data [], parents, root⟩
          ⟨name, attrs, Xml.settle nodes.reverse⟩).bind (Xml.run · later) := by
  have pieces : closeChars name ++ back = '<' :: ('/' :: name.toList ++ (['>'] ++ back)) := by
    simp [closeChars]
  have outer : '<' ∉ '/' :: name.toList := by
    simp [Xml.not_mem_name named (show Xml.isNameChar '<' = false by decide)]
  have single : '\n' ∉ '/' :: name.toList := by
    simp [Xml.not_mem_name named (show Xml.isNameChar '\n' = false by decide)]
  rw [pieces] at h
  obtain ⟨_, same, afterName⟩ := h.tag_inv (by decide) outer single (goesOn_cons (by decide) back)
  obtain ⟨later, rfl, turned⟩ := afterName.solid_inv ['>'] (by decide) (by decide)
  cases same
  exact ⟨later, turned, fun parents root attrs nodes => Xml.run_closeTag named attrs nodes later⟩

theorem Element.exists_chars_eq_lt (depth : Nat) (e : Element) :
    ∃ tail, chars depth e = '<' :: tail := by
  obtain ⟨name, attrs, children⟩ := e
  rw [chars]
  split
  · exact ⟨_, rfl⟩
  · split <;> exact ⟨_, rfl⟩

theorem white_line (depth : Nat) : ∀ c ∈ '\n' :: indentChars depth, c = '\n' ∨ c = ' ' := by
  rw [List.forall_mem_cons]
  exact ⟨.inl rfl, fun c mem => .inr (List.eq_of_mem_replicate mem)⟩

/-- Elements on lines of their own are read to the tag behind them. -/
theorem Turned.lines_inv {depth outer : Nat} {back : List Char} :
    ∀ {nodes : List (Node Element)} {out : List Char},
      (∀ node ∈ nodes, node.element?.isSome = true) →
      (∀ child ∈ nodes.filterMap Node.element?, ReadsBack child) →
      Turned (Element.linesOf depth nodes ++ '\n' :: (indentChars outer ++ '<' :: back)) out →
      ∃ shown behind, Turned ('<' :: back) ('<' :: behind) ∧
        List.Forall₂ Reported (nodes.filterMap Node.element?) shown ∧
        ∀ parents root name attrs held elements, Xml.Holds held elements →
          ∃ more, Xml.Holds more (elements ++ shown) ∧
            Xml.run ⟨.data [], ⟨name, attrs, held⟩ :: parents, root⟩ out =
              Xml.run ⟨.markup, ⟨name, attrs, more⟩ :: parents, root⟩ behind
  | [], out, _, _, h => by
    obtain ⟨white, _, rfl, later, all⟩ := h.white_inv (white_line outer)
    obtain ⟨behind, rfl⟩ := later.lt_inv
    refine ⟨[], behind, later, .nil, fun parents root name attrs held elements holds => ?_⟩
    refine ⟨Xml.addText white held, ?_, ?_⟩
    · rw [List.append_nil]
      exact holds.addText (Xml.all_isWhite all)
    · rw [Xml.run_white all]
      rfl
  | .text _ :: _, _, elements, _, _ => by cases elements _ List.mem_cons_self
  | .cdata _ :: _, _, elements, _, _ => by cases elements _ List.mem_cons_self
  | .element child :: rest, out, elements, reads, h => by
    have kept : (Node.element child :: rest).filterMap Node.element? =
        child :: rest.filterMap Node.element? := rfl
    rw [List.forall_mem_cons] at elements
    rw [kept, List.forall_mem_cons] at reads
    obtain ⟨tail, begins⟩ := Element.exists_chars_eq_lt depth child
    have pieces : Element.linesOf depth (.element child :: rest) ++
        '\n' :: (indentChars outer ++ '<' :: back) = ('\n' :: indentChars depth) ++ '<' :: (tail ++
          (Element.linesOf depth rest ++ '\n' :: (indentChars outer ++ '<' :: back))) := by
      simp [Element.linesOf, begins]
    rw [pieces] at h
    obtain ⟨white, _, rfl, inside, all⟩ := h.white_inv (white_line depth)
    rw [← List.cons_append, ← begins] at inside
    obtain ⟨first, inner, _, rfl, after, reported, readsFirst⟩ := reads.1 inside
    obtain ⟨shown, behind, turned, each, readsRest⟩ := after.lines_inv elements.2 reads.2
    refine ⟨first :: shown, behind, turned, .cons reported each, ?_⟩
    intro parents root name attrs held before holds
    obtain ⟨more, holdsAll, run⟩ := readsRest parents root name attrs _ (before ++ [first])
      ((holds.addText (Xml.all_isWhite all)).element first)
    refine ⟨more, by simpa using holdsAll, ?_⟩
    rw [Xml.run_white all]
    exact (readsFirst _ _).trans run

theorem toList_content (e : Element) : e.content.toList = spoken e.children := by
  simp [Element.content, spoken, String.toList_join, List.flatMap_map]

theorem spoken_elements {nodes : List (Node Element)}
    (elements : ∀ node ∈ nodes, node.element?.isSome = true) : spoken nodes = [] := by
  rw [spoken, List.flatMap_eq_nil_iff]
  intro node mem
  cases node with
  | element child => rfl
  | text content => cases elements _ mem
  | cdata content => cases elements _ mem

theorem spoken_addText (said : List Char) :
    spoken (Xml.settle (Xml.addText said []).reverse) = said := by
  cases said with
  | nil => rfl
  | cons c said => simp [Xml.settle, Xml.addText, spoken, Node.element?, Node.content]

theorem elements_addText (name : String) (attrs : List (String × String)) (said : List Char) :
    Element.elements ⟨name, attrs, Xml.settle (Xml.addText said []).reverse⟩ = [] := by
  cases said <;> rfl

theorem not_mem_lineEnds : ∀ text : List Char, '\r' ∉ Xml.lineEnds text
  | [] => List.not_mem_nil
  | c :: rest => by
    have ih := not_mem_lineEnds rest
    rw [Xml.lineEnds]
    split
    · split
      · exact ih
      · simp [ih]
    case isFalse other => simp [ih, Ne.symm other]

theorem lineEnds_trimLines_eq_self_iff {content : String} :
    Xml.lineEnds (trimLines content.toList) = content.toList ↔ KeepsLines content := by
  constructor
  · intro same
    have noReturn : '\r' ∉ content.toList := same ▸ not_mem_lineEnds _
    refine ⟨noReturn, ?_⟩
    rwa [Xml.lineEnds_eq_self fun mem => noReturn (Text.mem_of_mem_trimLines mem)] at same
  · rintro ⟨noReturn, trimmed⟩
    rw [trimmed, Xml.lineEnds_eq_self noReturn]

section

variable {name : String} {attrs : List (String × String)} {children : List (Node Element)}
  {back out : List Char}

theorem readsAs_empty (written : WellFormed ⟨name, attrs, []⟩)
    (h : Turned (openChars name attrs ++ ([' '] ++ ('/' :: '>' :: back))) out) :
    ReadsAs ⟨name, attrs, []⟩ back out := by
  have stroke : GoesOn ('/' :: '>' :: back) := goesOn_cons (by decide) _
  have space : ∀ {out}, Turned ([' '] ++ ('/' :: '>' :: back)) out →
      ∃ later, out = [' '] ++ later ∧ Turned ('/' :: '>' :: back) later :=
    fun h => h.quiet_inv (by decide) (by decide) stroke
  obtain ⟨shown, inner, _, rfl, afterAttrs, each, reads⟩ := Turned.openTag_inv written
    (stroke.append (by decide))
    (fun h => by
      obtain ⟨later, rfl, _⟩ := space h
      exact ⟨' ', later, rfl, by decide⟩) h
  obtain ⟨_, rfl, afterSpace⟩ := space afterAttrs
  obtain ⟨later, rfl, turned⟩ := afterSpace.solid_inv ['/', '>'] (by decide) (by decide)
  refine ⟨⟨name, shown, []⟩, inner, later, rfl, turned,
    .mk rfl each ⟨fun _ => rfl, nofun⟩ .nil, fun parents root => ?_⟩
  rw [reads]
  exact Xml.run_endEmptyTag ⟨name, shown⟩ later

/-- The start tag of an element that is not empty. -/
theorem WellFormed.startTag_inv {e : Element} (written : WellFormed e)
    (h : Turned (openChars e.name e.attrs ++ '>' :: back) out) :
    ∃ shown inner later, out = '<' :: inner ∧ Turned back later ∧
      List.Forall₂ ReportedAttr e.attrs shown ∧
      ∀ parents root, Xml.run ⟨.markup, parents, root⟩ inner =
        Xml.run ⟨.data [], ⟨e.name, shown, []⟩ :: parents, root⟩ later := by
  have close : ∀ {out}, Turned (['>'] ++ back) out →
      ∃ later, out = '>' :: later ∧ Turned back later :=
    fun h => h.solid_inv ['>'] (by decide) (by decide)
  obtain ⟨shown, inner, _, rfl, afterAttrs, each, reads⟩ := Turned.openTag_inv written
    (goesOn_cons (by decide) back)
    (fun h => by
      obtain ⟨later, rfl, _⟩ := close h
      exact ⟨'>', later, rfl, by decide⟩) h
  obtain ⟨later, rfl, turned⟩ := close afterAttrs
  exact ⟨shown, inner, later, rfl, turned, each, reads⟩

theorem readsAs_characters (written : WellFormed ⟨name, attrs, children⟩)
    (plain : ∀ node ∈ children, node.element? = none)
    (h : Turned (openChars name attrs ++ '>' :: (children.flatMap contentChars ++
      (closeChars name ++ back))) out) :
    ReadsAs ⟨name, attrs, children⟩ back out := by
  obtain ⟨shown, inner, _, rfl, afterTag, each, readsTag⟩ := written.startTag_inv h
  obtain ⟨said, behind, beforeEnd, tells, readsText⟩ := afterTag.characters_inv plain []
  obtain ⟨later, turned, readsEnd⟩ := Turned.close_inv written.named beforeEnd
  refine ⟨⟨name, shown, Xml.settle (Xml.addText said []).reverse⟩, inner, later, rfl, turned,
    .mk rfl each ⟨?_, ?_⟩ ?_, fun parents root => ?_⟩
  · intro single
    rw [SingleLine, toList_content] at single
    rw [← String.toList_inj, toList_content, toList_content, spoken_addText]
    exact tells.whole single.1 single.2
  · intro content same
    rw [← String.toList_inj, toList_content, spoken_addText, tells.cdata content rfl same]
    exact ⟨rfl, lineEnds_trimLines_eq_self_iff⟩
  · have none : Element.elements ⟨name, attrs, children⟩ = [] :=
      List.filterMap_eq_nil_iff.mpr plain
    rw [none, elements_addText]
    exact .nil
  · rw [readsTag]
    exact (readsText _ _ _).trans (readsEnd _ _ _ _)

theorem readsAs_nested {depth outer : Nat} (written : WellFormed ⟨name, attrs, children⟩)
    (some : children ≠ []) (elements : ∀ node ∈ children, node.element?.isSome = true)
    (below : ∀ child ∈ children.filterMap Node.element?, ReadsBack child)
    (h : Turned (openChars name attrs ++ '>' :: (Element.linesOf depth children ++
      '\n' :: (indentChars outer ++ (closeChars name ++ back)))) out) :
    ReadsAs ⟨name, attrs, children⟩ back out := by
  obtain ⟨shown, inner, _, rfl, afterTag, each, readsTag⟩ := written.startTag_inv h
  obtain ⟨nodes, behind, beforeEnd, reported, readsLines⟩ := afterTag.lines_inv elements below
  obtain ⟨later, turned, readsEnd⟩ := Turned.close_inv written.named beforeEnd
  refine ⟨⟨name, shown, nodes.map .element⟩, inner, later, rfl, turned,
    .mk rfl each ⟨?_, ?_⟩ ?_, fun parents root => ?_⟩
  · intro _
    rw [← String.toList_inj, toList_content, toList_content, spoken_elements elements,
      spoken_elements (by simp [Node.element?])]
  · rintro content rfl
    cases elements _ List.mem_cons_self
  · have kept : Element.elements ⟨name, shown, nodes.map .element⟩ = nodes := by
      simp [Element.elements, List.filterMap_map, Function.comp_def, Node.element?]
    rw [kept]
    exact reported
  · obtain ⟨more, holds, run⟩ := readsLines parents root name shown [] [] rfl
    rw [readsTag, run, readsEnd, holds.settle]
    · rfl
    · rintro rfl
      cases children with
      | nil => exact some rfl
      | cons node rest =>
        obtain ⟨child, rfl⟩ : ∃ child, node = .element child := by
          cases node with
          | element child => exact ⟨child, rfl⟩
          | text content => cases elements _ List.mem_cons_self
          | cdata content => cases elements _ List.mem_cons_self
        cases reported

end

theorem WellFormed.readsBack {e : Element} (written : WellFormed e)
    (below : ∀ child ∈ e.elements, ReadsBack child) : ReadsBack e := by
  intro depth back out h
  obtain ⟨name, attrs, children⟩ := e
  rw [Element.chars] at h
  split at h
  case isTrue none =>
    cases List.isEmpty_iff.mp none
    exact readsAs_empty written (by simpa using h)
  case isFalse some =>
    split at h
    case isTrue plain =>
      apply readsAs_characters written _ (by simpa using h)
      simpa using plain
    case isFalse nested =>
      have elements : ∀ node ∈ children, node.element?.isSome = true := by
        cases written.unmixed with
        | inl elements => exact elements
        | inr plain =>
          exact absurd (List.all_eq_true.mpr fun node mem => by simp [plain node mem]) nested
      exact readsAs_nested written (by simpa using some) elements below (by simpa using h)

theorem readsBack_of_everywhere {root : Element} (written : Element.Everywhere WellFormed root) :
    ReadsBack root := by
  refine root.induct (motive := fun e => Element.Everywhere WellFormed e → ReadsBack e)
    (fun e ih all => ?_) written
  exact all.here.readsBack fun child mem => ih child mem (all.child mem)

/-! ## The whole text -/

theorem run_declaration (back : List Char) :
    Xml.run ⟨.data [], [], none⟩ (declaration ++ back) = Xml.run ⟨.data [], [], none⟩ back := by
  rw [Xml.run_append]
  rfl

theorem Turned.feed_inv {out : List Char} (h : Turned ['\n'] out) :
    ∀ c ∈ out, c = '\n' ∨ c = ' ' := by
  have pieces : ['\n'] = ['\n'].flatMap (fun c => [c]) ++ [] := by simp
  rw [pieces] at h
  obtain ⟨white, _, rfl, behind, sub, _⟩ := h.escaped_inv escapes_pure (by simp)
  rw [behind.nil_inv, List.append_nil, List.flatMap_singleton']
  exact fun c mem => .inl (List.mem_singleton.mp (sub mem))

/-- Behind the root there is white space. -/
theorem finish_white {white : List Char} (all : ∀ c ∈ white, c = '\n' ∨ c = ' ')
    (shown : Element) :
    (Xml.run ⟨.data [], [], some shown⟩ white).bind Xml.State.finish? = some shown := by
  have outer : '<' ∉ white := fun mem => (all _ mem).elim (by decide) (by decide)
  have spaces : white.reverse.all Xml.isWhite = true := by
    rw [List.all_reverse]
    exact Xml.all_isWhite all
  have read : Xml.run ⟨.data [], [], some shown⟩ (white ++ []) =
      some ⟨.data (white.reverse ++ []), [], some shown⟩ := Xml.run_data [] outer []
  rw [List.append_nil, List.append_nil] at read
  rw [read]
  exact if_pos spaces

theorem exists_read_format {root : Element} (written : Element.Everywhere WellFormed root) :
    ∃ shown, Xml.read? (Layout.format root.toXml) = some shown ∧ Reported root shown := by
  obtain ⟨out, text, turned⟩ := exists_format_toXml root
  obtain ⟨tail, begins⟩ := Element.exists_chars_eq_lt 0 root
  have pieces : '\n' :: (Element.chars 0 root ++ ['\n']) = ['\n'] ++ '<' :: (tail ++ ['\n']) := by
    simp [begins]
  rw [pieces] at turned
  obtain ⟨white, _, rfl, inside, all⟩ := turned.white_inv (by simp)
  rw [← List.cons_append, ← begins] at inside
  obtain ⟨shown, inner, later, rfl, behind, reported, reads⟩ :=
    readsBack_of_everywhere written inside
  have before : Xml.State.addText? ⟨.data [], [], none⟩ white = some ⟨.data [], [], none⟩ :=
    if_pos (Xml.all_isWhite all)
  refine ⟨shown, ?_, reported⟩
  rw [text, Xml.read?, String.toList_ofList, run_declaration, Xml.run_white all, before]
  have read : Xml.run ⟨.markup, [], none⟩ inner = Xml.run ⟨.data [], [], some shown⟩ later :=
    reads [] none
  exact (congrArg (Option.bind · Xml.State.finish?) read).trans
    (finish_white behind.feed_inv shown)

end Installer.Markup
