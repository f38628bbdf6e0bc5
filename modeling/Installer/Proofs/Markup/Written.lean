import Installer.Markup.Document
import Installer.Proofs.Text.Lines

/-! # The characters of a document

What a writer is given for an element, as one list of characters that follows the tree
(`Element.chars`), and the text of a document before and after its lines are trimmed.
-/

namespace Installer.Markup

/-! ## Writers -/

namespace Writer

/-- What follows the text of a writer. -/
def put (w : Writer) (chars : List Char) : Writer :=
  w.raw (String.ofList chars)

theorem raw_eq_put (w : Writer) (s : String) : w.raw s = w.put s.toList := by
  rw [put, String.ofList_toList]

@[simp] theorem put_nil (w : Writer) : w.put [] = w := by
  simp [put, raw]

@[simp] theorem put_put (w : Writer) (front back : List Char) :
    (w.put front).put back = w.put (front ++ back) := by
  simp [put, raw, String.append_assoc]

@[simp] theorem step_put (w : Writer) (chars : List Char) : (w.put chars).step = w.step := rfl

@[simp] theorem depth_put (w : Writer) (chars : List Char) : (w.put chars).depth = w.depth := rfl

theorem indent_put (w : Writer) (chars : List Char) :
    (w.put chars).indent = w.indent.put chars := rfl

theorem dedent_indent_put (w : Writer) (chars : List Char) :
    (w.indent.put chars).dedent = w.put chars := rfl

end Writer

/-! ## Characters -/

def attrChars (pair : String × String) : List Char :=
  ' ' :: (pair.1.toList ++ '=' :: '"' :: (pair.2.toList.flatMap escapeAttrChar ++ ['"']))

def openChars (name : String) (attrs : List (String × String)) : List Char :=
  '<' :: (name.toList ++ attrs.flatMap attrChars)

def closeChars (name : String) : List Char :=
  '<' :: '/' :: (name.toList ++ ['>'])

def contentChars : Node Element → List Char
  | .element _ => []
  | .text content => content.toList.flatMap escapeTextChar
  | .cdata content => (cdataText content).toList

def indentChars (depth : Nat) : List Char :=
  List.replicate (2 * depth) ' '

mutual

/-- The characters of an element without its indentation and the line feed behind it. -/
def Element.chars (depth : Nat) : Element → List Char
  | ⟨name, attrs, children⟩ =>
    if children.isEmpty then openChars name attrs ++ " />".toList
    else if children.all (fun node => node.element?.isNone) then
      openChars name attrs ++ '>' :: (children.flatMap contentChars ++ closeChars name)
    else
      openChars name attrs ++ '>' :: (Element.linesOf (depth + 1) children ++
        '\n' :: (indentChars depth ++ closeChars name))
termination_by structural e => e

def Element.linesOf (depth : Nat) : List (Node Element) → List Char
  | [] => []
  | .element child :: rest =>
    '\n' :: (indentChars depth ++ (Element.chars depth child ++ Element.linesOf depth rest))
  | .text content :: rest =>
    '\n' :: (indentChars depth ++ (contentChars (.text content) ++ Element.linesOf depth rest))
  | .cdata content :: rest =>
    '\n' :: (indentChars depth ++ (contentChars (.cdata content) ++ Element.linesOf depth rest))
termination_by structural nodes => nodes

end

namespace Element

/-! ## Writing -/

theorem openTag_eq (name : String) (attrs : List (String × String)) (w : Writer) :
    openTag w name attrs = w.put (openChars name attrs) := by
  have each : ∀ (attrs : List (String × String)) (w : Writer),
      attrs.foldl (fun w pair => w.attr pair.1 pair.2) w = w.put (attrs.flatMap attrChars) := by
    intro attrs
    induction attrs with
    | nil => intro w; simp
    | cons pair rest ih =>
      intro w
      rw [List.foldl_cons, ih, Writer.attr, Writer.raw_eq_put, Writer.put_put]
      simp [attrChars, escapeAttr]
  rw [openTag, each, Writer.startTag, Writer.raw_eq_put, Writer.put_put]
  simp [openChars]

theorem writeCharacters_eq (nodes : List (Node Element)) (w : Writer) :
    nodes.foldl writeCharacters w = w.put (nodes.flatMap contentChars) := by
  induction nodes generalizing w with
  | nil => simp
  | cons node rest ih =>
    rw [List.foldl_cons, ih]
    cases node <;>
      simp [writeCharacters, contentChars, Writer.characters, Writer.cdata, escapeText,
        Writer.raw_eq_put]

theorem writeIndent_eq {w : Writer} (twoSpaces : w.step = 2) :
    w.writeIndent = w.put (indentChars w.depth) := by
  rw [Writer.writeIndent, twoSpaces, indentChars, Writer.put]

theorem writeNested_eq {children : List (Node Element)} {w : Writer} (twoSpaces : w.step = 2)
    (same : writeAll (w.indent.put ['\n']) children =
      w.indent.put (linesOf w.indent.depth children ++ ['\n'])) :
    (writeAll (w.put ['\n']).indent children).dedent.writeIndent =
      w.put (linesOf (w.depth + 1) children ++ '\n' :: indentChars w.depth) := by
  rw [Writer.indent_put, same, Writer.dedent_indent_put, writeIndent_eq (by exact twoSpaces)]
  simp [Writer.indent]

mutual

theorem write_eq : ∀ (e : Element) {w : Writer}, w.step = 2 →
    write w e = w.put (indentChars w.depth ++ (chars w.depth e ++ ['\n']))
  | ⟨name, attrs, children⟩, w, twoSpaces => by
    simp only [write, chars, writeIndent_eq twoSpaces, openTag_eq, Writer.endEmptyTag,
      Writer.endTag, Writer.closeTag, Writer.newline, Writer.raw_eq_put, Writer.put_put,
      writeCharacters_eq]
    split
    · simp
    · split
      · simp [closeChars]
      · -- the line feed before each child is the one behind what comes before it
        have nested := writeNested_eq (w := w.put
          (indentChars w.depth ++ openChars name attrs ++ ">".toList)) twoSpaces
          (writeAll_eq children (by exact twoSpaces))
        rw [Writer.put_put] at nested
        refine (congrArg (fun w => Writer.put w _) nested).trans ?_
        simp [closeChars]
termination_by structural e => e

theorem writeAll_eq : ∀ (nodes : List (Node Element)) {w : Writer}, w.step = 2 →
    writeAll (w.put ['\n']) nodes = w.put (linesOf w.depth nodes ++ ['\n'])
  | [], w, twoSpaces => rfl
  | .element child :: rest, w, twoSpaces => by
    have same := writeAll_eq rest (w := w.put
      ('\n' :: (indentChars w.depth ++ chars w.depth child))) twoSpaces
    rw [writeAll, linesOf, write_eq child (w := w.put ['\n']) twoSpaces]
    simpa using same
  | .text content :: rest, w, twoSpaces => by
    have same := writeAll_eq rest (w := w.put
      ('\n' :: (indentChars w.depth ++ contentChars (.text content)))) twoSpaces
    rw [writeAll, linesOf, writeIndent_eq (w := w.put ['\n']) twoSpaces]
    simpa [Writer.characters, Writer.newline, Writer.raw_eq_put, escapeText, contentChars]
      using same
  | .cdata content :: rest, w, twoSpaces => by
    have same := writeAll_eq rest (w := w.put
      ('\n' :: (indentChars w.depth ++ contentChars (.cdata content)))) twoSpaces
    rw [writeAll, linesOf, writeIndent_eq (w := w.put ['\n']) twoSpaces]
    simpa [Writer.cdata, Writer.newline, Writer.raw_eq_put, contentChars] using same
termination_by structural nodes => nodes

end

/-! ## Whole texts -/

theorem exists_chars_eq (depth : Nat) (e : Element) :
    ∃ front, chars depth e = front ++ ['>'] := by
  obtain ⟨name, attrs, children⟩ := e
  rw [chars]
  split
  · exact ⟨openChars name attrs ++ [' ', '/'], by simp⟩
  · split
    · exact ⟨openChars name attrs ++ '>' :: (children.flatMap contentChars ++ '<' :: '/' ::
        name.toList), by simp [closeChars]⟩
    · exact ⟨openChars name attrs ++ '>' :: (linesOf (depth + 1) children ++
        '\n' :: (indentChars depth ++ '<' :: '/' :: name.toList)), by simp [closeChars]⟩

end Element

def declaration : List Char :=
  "<?xml version=\"1.0\" encoding=\"utf-8\"?>".toList

/-- A text with a line feed at its very end has its lines trimmed and nothing else changed. -/
theorem Writer.finish_eq {w : Writer} {front : List Char} {c : Char}
    (solid : Text.isBlank c = false) (text : w.text.toList = front ++ [c] ++ ['\n']) :
    w.finish = String.ofList (Text.trimLines w.text.toList) := by
  obtain ⟨line, rest, single, singles, same⟩ := Text.exists_unlines (front ++ [c])
  have all : ∀ other ∈ line :: rest, '\n' ∉ other := List.forall_mem_cons.mpr ⟨single, singles⟩
  have trimmed : (Text.lines w.text.toList).map Text.trimEnd = (line :: rest).map Text.trimEnd := by
    rw [text, same, Text.lines_unlines all, List.map_map]
    exact List.map_congr_left fun other _ => Text.trimEnd_withoutReturn other
  have joined : Text.trimLines w.text.toList =
      ['\n'].intercalate ((line :: rest).map Text.trimEnd) ++ ['\n'] := by
    rw [text, same, Text.trimLines_unlines all, Text.unlines_eq_intercalate (by simp)]
  have last : (['\n'].intercalate ((line :: rest).map Text.trimEnd)).getLast? = some c := by
    rw [text, List.append_assoc, List.singleton_append,
      Text.trimLines_append_of_not_isBlank solid, Text.trimLines_feed, Text.trimLines_nil,
      ← List.singleton_append, ← List.append_assoc] at joined
    rw [← List.append_cancel_right joined, List.getLast?_concat]
  have other : c ≠ '\n' := by
    rintro rfl
    cases solid
  rw [Writer.finish, trimmed, last, if_neg (by simpa using other), joined]

theorem Element.toXml_eq (root : Element) : root.toXml =
    String.ofList (Text.trimLines (declaration ++ '\n' :: (chars 0 root ++ ['\n']))) := by
  obtain ⟨front, last⟩ := exists_chars_eq 0 root
  have head : (({ step := 2 : Writer }).declaration "1.0" (some "utf-8")).newline =
      ({ step := 2 : Writer }).put (declaration ++ ['\n']) := by
    rfl
  rw [toXml, head, write_eq root rfl, Writer.put_put]
  have text : (({ step := 2 : Writer }).put (declaration ++ ['\n'] ++ (indentChars 0 ++
      (chars 0 root ++ ['\n'])))).text.toList =
        declaration ++ '\n' :: (chars 0 root ++ ['\n']) := by
    simp [Writer.put, Writer.raw, indentChars]
  have ended : (({ step := 2 : Writer }).put (declaration ++ ['\n'] ++ (indentChars 0 ++
      (chars 0 root ++ ['\n'])))).text.toList =
        (declaration ++ '\n' :: front) ++ ['>'] ++ ['\n'] := by
    rw [text, last]
    simp
  exact (Writer.finish_eq (show Text.isBlank '>' = false by decide) ended).trans
    (congrArg (fun line => String.ofList (Text.trimLines line)) text)

end Installer.Markup
