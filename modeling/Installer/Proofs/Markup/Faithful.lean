import Installer.Proofs.Markup.ReadBack

/-! # Documents that read back as they were

A document whose values and contents stand on one line each is reported as it is: the same names,
the same attributes, the same nesting and the same content of every element.
-/

namespace Installer.Markup

/-- The two trees have the same elements, with the same attributes and the same content. -/
inductive Alike : Element → Element → Prop where
  | mk {e shown : Element} : shown.name = e.name → shown.attrs = e.attrs →
    shown.content = e.content → List.Forall₂ Alike e.elements shown.elements → Alike e shown

/-- Neither a line nor a tab is in the values of the element, nor in the characters in it. -/
structure Flat (e : Element) : Prop where
  attrs : ∀ pair ∈ e.attrs, ∀ c ∈ ['\n', '\r', '\t'], c ∉ pair.2.toList
  children : ∀ node ∈ e.children, ∀ c ∈ ['\n', '\r', '\t'], c ∉ node.content.toList

theorem onlySpaces_of_flat {value : String} (flat : ∀ c ∈ ['\n', '\r', '\t'], c ∉ value.toList) :
    OnlySpaces value := by
  intro c mem white
  simp only [Xml.isWhite, Bool.or_eq_true, beq_iff_eq] at white
  rcases white with ((rfl | rfl) | rfl) | rfl
  · rfl
  all_goals exact absurd mem (flat _ (by decide))

theorem Flat.singleLine {e : Element} (flat : Flat e) : SingleLine e.content := by
  have absent : ∀ c ∈ ['\n', '\r', '\t'], c ∉ e.content.toList := by
    intro c special mem
    rw [toList_content, spoken, List.mem_flatMap] at mem
    obtain ⟨node, inside, here⟩ := mem
    exact flat.children node inside c special here
  exact ⟨absent _ (by decide), absent _ (by decide)⟩

theorem ReportedAttr.eq_of_onlySpaces {pair shown : String × String} (h : ReportedAttr pair shown)
    (spaces : OnlySpaces pair.2) : shown = pair :=
  Prod.ext h.name (h.value.mpr spaces)

theorem eq_of_forall₂_reportedAttr {attrs shown : List (String × String)}
    (each : List.Forall₂ ReportedAttr attrs shown) (spaces : ∀ pair ∈ attrs, OnlySpaces pair.2) :
    shown = attrs := by
  induction each with
  | nil => rfl
  | cons first _ ih =>
    rw [List.forall_mem_cons] at spaces
    rw [first.eq_of_onlySpaces spaces.1, ih spaces.2]

theorem Reported.alike {e : Element} : ∀ {shown : Element}, Reported e shown →
    Element.Everywhere Flat e → Alike e shown := by
  refine e.induct (motive := fun e => ∀ {shown : Element}, Reported e shown →
    Element.Everywhere Flat e → Alike e shown) ?_
  intro e ih shown reported flat
  cases reported with
  | mk name attrs content elements =>
    refine .mk name ?_ (content.single flat.here.singleLine) ?_
    · exact eq_of_forall₂_reportedAttr attrs fun pair mem =>
        onlySpaces_of_flat (flat.here.attrs pair mem)
    · have below : ∀ child ∈ e.elements, Element.Everywhere Flat child :=
        fun child mem => flat.child mem
      generalize e.elements = children, shown.elements = others at elements ih below
      induction elements with
      | nil => exact .nil
      | cons first _ rest =>
        rw [List.forall_mem_cons] at ih below
        exact .cons (ih.1 first below.1) (rest ih.2 below.2)

/-! ## Characters that a document may hold -/

def Legal (text : List Char) : Prop :=
  ∀ c ∈ text, Xml.isChar c = true

theorem legal_of_all {text : List Char} (all : text.all Xml.isChar = true) : Legal text :=
  List.all_eq_true.mp all

@[simp] theorem legal_nil : Legal [] :=
  fun _ mem => nomatch mem

@[simp] theorem legal_cons {c : Char} {text : List Char} :
    Legal (c :: text) ↔ Xml.isChar c = true ∧ Legal text :=
  List.forall_mem_cons

@[simp] theorem legal_append {front back : List Char} :
    Legal (front ++ back) ↔ Legal front ∧ Legal back :=
  List.forall_mem_append

theorem legal_flatMap {α : Type} {xs : List α} {f : α → List Char} (each : ∀ x ∈ xs, Legal (f x)) :
    Legal (xs.flatMap f) := by
  intro c mem
  obtain ⟨x, inside, here⟩ := List.mem_flatMap.mp mem
  exact each x inside c here

structure LegalValues (e : Element) : Prop where
  attrs : ∀ pair ∈ e.attrs, Legal pair.2.toList
  children : ∀ node ∈ e.children, Legal node.content.toList

theorem toNat_of_isAlphanum {c : Char} (h : c.isAlphanum = true) :
    48 ≤ c.toNat ∧ c.toNat ≤ 122 := by
  have ranges : ((decide (c.val ≥ 'A'.val ∧ c.val ≤ 'Z'.val) ||
      (c.val ≥ 'a'.val && c.val ≤ 'z'.val)) || (c.val ≥ '0'.val && c.val ≤ '9'.val)) = true := h
  simp only [Bool.or_eq_true, Bool.and_eq_true, decide_eq_true_eq, ge_iff_le,
    UInt32.le_iff_toNat_le] at ranges
  have same : c.toNat = c.val.toNat := rfl
  rw [same]
  simp at ranges
  omega

theorem isChar_iff {c : Char} : Xml.isChar c = true ↔
    c.toNat = 9 ∨ c.toNat = 10 ∨ c.toNat = 13 ∨ (32 ≤ c.toNat ∧ c.toNat ≤ 0xD7FF) ∨
      (0xE000 ≤ c.toNat ∧ c.toNat ≤ 0xFFFD) ∨ (0x10000 ≤ c.toNat ∧ c.toNat ≤ 0x10FFFF) := by
  simp only [Xml.isChar, Xml.isIn, List.any_cons, List.any_nil, Bool.or_false, Bool.or_eq_true,
    Bool.and_eq_true, decide_eq_true_eq]
  omega

theorem isChar_of_isNameChar {c : Char} (name : Xml.isNameChar c = true) :
    Xml.isChar c = true := by
  have letter : c.isAlpha = true ∨ c.isDigit = true → Xml.isChar c = true := by
    intro either
    have bounds := toNat_of_isAlphanum (c := c) (by simpa [Char.isAlphanum] using either)
    rw [isChar_iff]
    omega
  simp only [Xml.isNameChar, Xml.isNameStart, Xml.isIn, List.any_cons, List.any_nil, Bool.or_false,
    Bool.or_eq_true, Bool.and_eq_true, decide_eq_true_eq, beq_iff_eq] at name
  rcases name with ((((((colon | line) | alpha) | start) | hyphen) | stop) | digit) | more
  · exact colon ▸ by decide
  · exact line ▸ by decide
  · exact letter (.inl alpha)
  · rw [isChar_iff]
    omega
  · exact hyphen ▸ by decide
  · exact stop ▸ by decide
  · exact letter (.inr digit)
  · rw [isChar_iff]
    omega

theorem legal_name {name : List Char} (named : Xml.isName name = true) : Legal name :=
  fun _ mem => isChar_of_isNameChar (Xml.isNameChar_of_mem named mem)

theorem legal_escapeAttrChar {c : Char} (legal : Xml.isChar c = true) :
    Legal (escapeAttrChar c) := by
  unfold escapeAttrChar
  split
  case h_6 => simpa using legal
  all_goals exact legal_of_all (by decide)

theorem legal_escapeTextChar {c : Char} (legal : Xml.isChar c = true) :
    Legal (escapeTextChar c) := by
  unfold escapeTextChar
  split
  case h_4 => simpa using legal
  all_goals exact legal_of_all (by decide)

theorem legal_attrChars {pair : String × String} (named : Xml.isName pair.1.toList = true)
    (legal : Legal pair.2.toList) : Legal (attrChars pair) := by
  have fixed : Xml.isChar ' ' = true ∧ Xml.isChar '=' = true ∧ Xml.isChar '"' = true := by decide
  have value : Legal (pair.2.toList.flatMap escapeAttrChar) :=
    legal_flatMap fun c mem => legal_escapeAttrChar (legal c mem)
  simp [attrChars, fixed, legal_name named, value]

theorem legal_contentChars {node : Node Element} (legal : Legal node.content.toList) :
    Legal (contentChars node) := by
  cases node with
  | element child => exact legal_nil
  | text content => exact legal_flatMap fun c mem => legal_escapeTextChar (legal c mem)
  | cdata content =>
    have opening : Legal cdataOpen := legal_of_all (by decide)
    have closing : Legal cdataClose := legal_of_all (by decide)
    have put : Legal "]]]]><![CDATA[>".toList := legal_of_all (by decide)
    have inner : Legal (Text.replace cdataClose "]]]]><![CDATA[>".toList content.toList) :=
      fun c mem => (Text.mem_replaceAfter mem).elim (legal c) (put c)
    rw [contentChars, cdataText, String.toList_ofList, legal_append, legal_append]
    exact ⟨⟨opening, inner⟩, closing⟩

theorem legal_indentChars (depth : Nat) : Legal (indentChars depth) := by
  intro c mem
  rw [List.eq_of_mem_replicate mem]
  decide

theorem legal_linesOf {depth : Nat} : ∀ {nodes : List (Node Element)},
    (∀ node ∈ nodes, Legal node.content.toList) →
    (∀ child ∈ nodes.filterMap Node.element?, Legal (Element.chars depth child)) →
    Legal (Element.linesOf depth nodes)
  | [], _, _ => legal_nil
  | node :: rest, characters, below => by
    have feed : Xml.isChar '\n' = true := by decide
    rw [List.forall_mem_cons] at characters
    have own := legal_contentChars characters.1
    cases node with
    | element child =>
      have below : ∀ x ∈ child :: rest.filterMap Node.element?, Legal (Element.chars depth x) :=
        below
      rw [List.forall_mem_cons] at below
      simp [Element.linesOf, feed, legal_indentChars, below.1,
        legal_linesOf characters.2 below.2]
    | text content =>
      simp [Element.linesOf, feed, legal_indentChars, own, legal_linesOf characters.2 below]
    | cdata content =>
      simp [Element.linesOf, feed, legal_indentChars, own, legal_linesOf characters.2 below]

section

variable {e : Element} (written : WellFormed e) (legal : LegalValues e)
include written

theorem legal_closeChars : Legal (closeChars e.name) := by
  have fixed : Xml.isChar '<' = true ∧ Xml.isChar '/' = true ∧ Xml.isChar '>' = true := by decide
  simp [closeChars, fixed, legal_name written.named]

include legal

theorem legal_openChars : Legal (openChars e.name e.attrs) := by
  have fixed : Xml.isChar '<' = true := by decide
  have attrs : Legal (e.attrs.flatMap attrChars) :=
    legal_flatMap fun pair mem =>
      legal_attrChars (written.attrsNamed pair mem) (legal.attrs pair mem)
  simp [openChars, fixed, legal_name written.named, attrs]

/-- The characters of an element are legal if those of its children are. -/
theorem legal_chars_of_children {depth : Nat}
    (below : ∀ child ∈ e.elements, Legal (Element.chars (depth + 1) child)) :
    Legal (Element.chars depth e) := by
  have fixed : Xml.isChar '\n' = true ∧ Xml.isChar ' ' = true ∧ Xml.isChar '/' = true ∧
    Xml.isChar '>' = true := by decide
  have opening := legal_openChars written legal
  have closing := legal_closeChars written
  have children := legal.children
  obtain ⟨name, attrs, nodes⟩ := e
  have characters : Legal (nodes.flatMap contentChars) :=
    legal_flatMap fun node mem => legal_contentChars (children node mem)
  have lines : Legal (Element.linesOf (depth + 1) nodes) := legal_linesOf children below
  rw [Element.chars]
  split
  · simp [opening, fixed]
  · split <;> simp [opening, closing, characters, lines, fixed, legal_indentChars]

end

theorem legal_chars {e : Element} (written : Element.Everywhere WellFormed e)
    (legal : Element.Everywhere LegalValues e) : ∀ depth, Legal (Element.chars depth e) := by
  refine e.induct (motive := fun e => Element.Everywhere WellFormed e →
    Element.Everywhere LegalValues e → ∀ depth, Legal (Element.chars depth e)) ?_ written legal
  intro e ih written legal depth
  exact legal_chars_of_children written.here legal.here fun child mem =>
    ih child mem (written.child mem) (legal.child mem) (depth + 1)

theorem Layout.Relaid.mem_or_feed {skip : Nat} {inside : Bool} {text out : List Char}
    (h : Relaid skip inside text out) : ∀ c ∈ out, c ∈ text ∨ c = '\n' := by
  induction h with
  | nil => exact fun c mem => .inl mem
  | pass _ ih | turn _ _ ih | keep _ _ ih =>
    rw [List.forall_mem_cons]
    exact ⟨.inl List.mem_cons_self, fun c mem => (ih c mem).imp_left (List.mem_cons_of_mem _)⟩
  | feeds count _ ih =>
    rw [List.forall_mem_append]
    exact ⟨fun c mem => .inr (List.eq_of_mem_replicate mem),
      fun c mem => (ih c mem).imp_left (List.mem_cons_of_mem _)⟩

theorem Turned.legal {text out : List Char} (h : Turned text out) (all : Legal text) :
    Legal out := by
  intro c mem
  cases h.mem_or_feed c mem with
  | inl kept => exact all c (Text.mem_of_mem_trimLines kept)
  | inr feed => exact feed ▸ by decide

/-- The text of a document holds no other characters than XML allows if its values do not. -/
theorem legal_format {root : Element} (written : Element.Everywhere WellFormed root)
    (legal : Element.Everywhere LegalValues root) :
    Legal (Layout.format root.toXml).toList := by
  obtain ⟨out, text, turned⟩ := exists_format_toXml root
  have feed : Xml.isChar '\n' = true := by decide
  have head : Legal declaration := legal_of_all (by decide)
  have body : Legal out := turned.legal (by simp [feed, legal_chars written legal])
  rw [text, String.toList_ofList, legal_append]
  exact ⟨head, body⟩

/-! ## Reading back -/

/-- A well-formed document without line ends and tabs in it is read back from its final text, which
holds only characters of XML if the document does. -/
theorem exists_alike_read_format (root : Element) (written : Element.Everywhere WellFormed root)
    (flat : Element.Everywhere Flat root) :
    (∃ shown, Xml.read? (Layout.format root.toXml) = some shown ∧ Alike root shown) ∧
      (Element.Everywhere LegalValues root → Legal (Layout.format root.toXml).toList) := by
  obtain ⟨shown, read, reported⟩ := exists_read_format written
  exact ⟨⟨shown, read, reported.alike flat⟩, legal_format written⟩

/-- A document with marks and spaces where they could be taken for markup or lost. -/
def markedUp : Element where
  name := "Wix"
  children :=
    [.element { name := "Condition", attrs := [("Message", " a < b & \"c\" "), ("Level", "")],
                children := [.cdata "x ]]> y ", .text " <![CDATA[", .cdata "]]"] },
     .element { name := "Media" }]

theorem exists_alike_read_format_markedUp : Element.Everywhere WellFormed markedUp ∧
    Element.Everywhere Flat markedUp ∧
    ∃ shown, Xml.read? (Layout.format markedUp.toXml) = some shown ∧ Alike markedUp shown := by
  have written : Element.Everywhere WellFormed markedUp := by
    simp only [Element.Everywhere, Element.subtree, markedUp, Element.descendants,
      Element.descendantsIn, List.nil_append, List.append_nil, List.forall_mem_cons]
    refine ⟨⟨by decide, by decide, by decide, .inl (by decide)⟩,
      ⟨by decide, by decide, by decide, .inr (by simp [Node.element?])⟩,
      ⟨by decide, by decide, by decide, .inl (by decide)⟩, List.forall_mem_nil _⟩
  have flat : Element.Everywhere Flat markedUp := by
    simp only [Element.Everywhere, Element.subtree, markedUp, Element.descendants,
      Element.descendantsIn, List.nil_append, List.append_nil, List.forall_mem_cons]
    refine ⟨⟨?_, ?_⟩, ⟨?_, ?_⟩, ⟨?_, ?_⟩, List.forall_mem_nil _⟩ <;> simp [Node.content]
  exact ⟨written, flat, (exists_alike_read_format markedUp written flat).1⟩

end Installer.Markup
