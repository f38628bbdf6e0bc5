import Installer.Yaml.Token

/-! # Nodes

The tree that a document writes. A text has one if its tokens are those of one document: a node in
blocks or in brackets, which may stand between marks.
-/

namespace Installer.Yaml

inductive Node where
  | scalar (s : Scalar)
  | sequence (items : List Node)
  | mapping (entries : List (Node × Node))

instance : Inhabited Node := ⟨.scalar .empty⟩

namespace Node

def empty : Node :=
  .scalar .empty

/-- A token ends what stands before it: it is one of the given ones, or there is none. -/
def endsBefore (ends : List Token) (tokens : List Token) : Bool :=
  match tokens with
  | [] => true
  | token :: _ => ends.contains token

/-- The tokens that can follow an entry of a mapping in a block. -/
def blockEnds : List Token :=
  [.key, .value, .blockEnd]

/-! ## Nodes from tokens

A dash may stand at the column of the key whose value it is in, and then no token says where the
sequence begins; `unindented` tells where this can be. -/

mutual

/-- A node in a block, or inside brackets. -/
def ofTokens? (inBlock unindented : Bool) : Nat → List Token → Option (Node × List Token)
  | 0, _ => none
  | fuel + 1, tokens =>
    match tokens with
    | .scalar s :: rest => some (.scalar s, rest)
    | .openBracket :: rest =>
      (flowItems? true fuel rest).map fun (items, rest) => (.sequence items, rest)
    | .openBrace :: rest =>
      (flowEntries? true fuel rest).map fun (entries, rest) => (.mapping entries, rest)
    | .sequenceStart :: rest =>
      if inBlock then (blockItems? fuel rest).map fun (items, rest) => (.sequence items, rest)
      else none
    | .mappingStart :: rest =>
      if inBlock then (blockEntries? fuel rest).map fun (entries, rest) => (.mapping entries, rest)
      else none
    | .item :: _ =>
      if unindented then
        (unindentedItems? fuel tokens).map fun (items, rest) => (.sequence items, rest)
      else none
    | _ => none

/-- A node that may be missing, in front of one of the given tokens. -/
def orEmpty? (inBlock unindented : Bool) (ends : List Token) :
    Nat → List Token → Option (Node × List Token)
  | 0, _ => none
  | fuel + 1, tokens =>
    if endsBefore ends tokens then some (empty, tokens)
    else ofTokens? inBlock unindented fuel tokens

/-- The items of a sequence in a block, up to its end. -/
def blockItems? : Nat → List Token → Option (List Node × List Token)
  | 0, _ => none
  | fuel + 1, tokens =>
    match tokens with
    | .item :: rest =>
      match orEmpty? true false [.item, .blockEnd] fuel rest with
      | some (item, rest) =>
        (blockItems? fuel rest).map fun (items, rest) => (item :: items, rest)
      | none => none
    | .blockEnd :: rest => some ([], rest)
    | _ => none

/-- The items of a sequence at the column of its key, as far as there are any. -/
def unindentedItems? : Nat → List Token → Option (List Node × List Token)
  | 0, _ => none
  | fuel + 1, tokens =>
    match tokens with
    | .item :: rest =>
      match orEmpty? true false (.item :: blockEnds) fuel rest with
      | some (item, rest) =>
        (unindentedItems? fuel rest).map fun (items, rest) => (item :: items, rest)
      | none => none
    | _ => some ([], tokens)

/-- The entries of a mapping in a block, up to its end. -/
def blockEntries? : Nat → List Token → Option (List (Node × Node) × List Token)
  | 0, _ => none
  | fuel + 1, tokens =>
    match tokens with
    | .key :: rest =>
      match orEmpty? true true blockEnds fuel rest with
      | some (key, rest) =>
        match entryValue? true true blockEnds fuel rest with
        | some (v, rest) =>
          (blockEntries? fuel rest).map fun (entries, rest) => ((key, v) :: entries, rest)
        | none => none
      | none => none
    | .blockEnd :: rest => some ([], rest)
    | _ => none

/-- The value of a key, which may be missing with its colon or behind it. -/
def entryValue? (inBlock unindented : Bool) (ends : List Token) :
    Nat → List Token → Option (Node × List Token)
  | 0, _ => none
  | fuel + 1, tokens =>
    match tokens with
    | .value :: rest => orEmpty? inBlock unindented ends fuel rest
    | _ => some (empty, tokens)

/-- The items of a sequence in brackets, up to the closing one, from the first item or from what
follows an item. An item with a colon is a mapping with one entry. -/
def flowItems? (isFirst : Bool) : Nat → List Token → Option (List Node × List Token)
  | 0, _ => none
  | fuel + 1, tokens =>
    match isFirst, tokens with
    | _, .closeBracket :: rest => some ([], rest)
    | false, .comma :: rest => flowItems? true fuel rest
    | false, _ => none
    | true, .key :: rest =>
      match pair? fuel rest with
      | some (entry, rest) =>
        (flowItems? false fuel rest).map fun (items, rest) => (.mapping [entry] :: items, rest)
      | none => none
    | true, tokens =>
      match ofTokens? false false fuel tokens with
      | some (item, rest) =>
        (flowItems? false fuel rest).map fun (items, rest) => (item :: items, rest)
      | none => none

/-- The entry of a mapping with one entry in brackets. Where the key is missing, the token in its
place is passed over. -/
def pair? : Nat → List Token → Option ((Node × Node) × List Token)
  | 0, _ => none
  | fuel + 1, tokens =>
    let ends := [.comma, .closeBracket]
    let read :=
      if endsBefore (.value :: ends) tokens then some (empty, tokens.tail)
      else ofTokens? false false fuel tokens
    match read with
    | some (key, rest) =>
      (entryValue? false false ends fuel rest).map fun (v, rest) => ((key, v), rest)
    | none => none

/-- The entries of a mapping in braces, up to the closing one, from the first entry or from what
follows an entry. -/
def flowEntries? (isFirst : Bool) : Nat → List Token → Option (List (Node × Node) × List Token)
  | 0, _ => none
  | fuel + 1, tokens =>
    match isFirst, tokens with
    | _, .closeBrace :: rest => some ([], rest)
    | false, .comma :: rest => flowEntries? true fuel rest
    | false, _ => none
    | true, .key :: rest =>
      let ends := [.comma, .closeBrace]
      match orEmpty? false false (.value :: ends) fuel rest with
      | some (key, rest) =>
        match entryValue? false false ends fuel rest with
        | some (v, rest) =>
          (flowEntries? false fuel rest).map fun (entries, rest) => ((key, v) :: entries, rest)
        | none => none
      | none => none
    | true, tokens =>
      match ofTokens? false false fuel tokens with
      | some (key, rest) =>
        (flowEntries? false fuel rest).map fun (entries, rest) => ((key, empty) :: entries, rest)
      | none => none

end

/-- The node of the document that begins with the tokens, and what follows it. -/
def document? (tokens : List Token) : Option (Node × List Token) :=
  let fuel := 3 * tokens.length + 3
  match tokens with
  | .documentStart :: rest => orEmpty? true false [.documentStart, .documentEnd] fuel rest
  | tokens => ofTokens? true false fuel tokens

def ofDocument? (tokens : List Token) : Option Node :=
  match document? tokens with
  | some (node, rest) => if rest.all (· == .documentEnd) then some node else none
  | none => none

/-! ## Nodes from texts -/

/-- The character may stand in a text. -/
def isAllowed (c : Char) : Bool :=
  let n := c.toNat
  n == 9 || n == 10 || n == 13 || (0x20 ≤ n && n ≤ 0x7E) || n == 0x85 ||
    (0xA0 ≤ n && n != 0xFFFE && n != 0xFFFF)

/-- The text with one character at the end of every line. Separators of lines and paragraphs stay.
-/
def unifyLineEnds : List Char → List Char
  | '\r' :: '\n' :: rest => '\n' :: unifyLineEnds rest
  | '\r' :: rest | '\u0085' :: rest => '\n' :: unifyLineEnds rest
  | c :: rest => c :: unifyLineEnds rest
  | [] => []

/-- The node of the document that a text writes, if it writes one and nothing else. -/
def ofText? (text : String) : Option Node :=
  let s := text.toList
  if s.all isAllowed then (Token.ofText? (unifyLineEnds s)).bind ofDocument? else none

end Node

end Installer.Yaml
