import Installer.Yaml.Text

/-! # Tokens

A text is cut into tokens: scalars, the marks that structure brackets, and for blocks tokens that
say where a sequence or a mapping begins and ends, which the columns of the text tell. A key is
known as one only at its colon, so its tokens are put in front of it there. Anchors, aliases, tags
and directives are not read; a text with one of these has no tokens.
-/

namespace Installer.Yaml

/-- A piece of a text. -/
inductive Token where
  /-- A document begins. -/
  | documentStart
  /-- A document ends. -/
  | documentEnd
  /-- A sequence in a block begins. -/
  | sequenceStart
  /-- A mapping in a block begins. -/
  | mappingStart
  /-- The sequence or mapping in a block ends. -/
  | blockEnd
  | openBracket
  | closeBracket
  | openBrace
  | closeBrace
  /-- An item of a sequence in a block follows. -/
  | item
  | comma
  /-- A key follows. -/
  | key
  /-- The value of a key follows. -/
  | value
  | scalar (s : Scalar)
deriving DecidableEq, Repr

/-- A token that is a key if a colon follows it soon enough. -/
structure PossibleKey where
  place : Cursor
  /-- The number of tokens before it. -/
  before : Nat
  /-- Nothing else than a key can be there. -/
  required : Bool

/-- How many bytes a key and what stands between it and its colon may have. -/
def PossibleKey.maxLength : Nat :=
  1024

/-- A colon at the place can make the key one: both stand on one line and close to one another. -/
def PossibleKey.reaches (key : PossibleKey) (cur : Cursor) : Bool :=
  key.place.line == cur.line && cur.index ≤ key.place.index + maxLength

/-- The state between two tokens. -/
structure Lexer where
  place : Cursor
  /-- The columns of the blocks around the place, from inside to outside. -/
  columns : List Nat := []
  /-- A key may begin at the place. -/
  keyAllowed : Bool := true
  /-- The possible key that waits for a colon. -/
  key : Option PossibleKey := none
  /-- For each bracket or brace around the place the possible key that waited before it. -/
  outerKeys : List (Option PossibleKey) := []
  /-- The tokens so far, the last one first. -/
  tokens : List Token := []

namespace Lexer

/-- The place is inside brackets or braces. -/
def inFlow (lexer : Lexer) : Bool :=
  !lexer.outerKeys.isEmpty

/-- The column before which a line does not belong to the block around the place. -/
def margin (lexer : Lexer) : Nat :=
  match lexer.columns with
  | [] => 0
  | column :: _ => column + 1

def emit (lexer : Lexer) (token : Token) : Lexer :=
  { lexer with tokens := token :: lexer.tokens }

/-- The state with one more token in front of the last tokens, so that `before` are before it. -/
def insert (lexer : Lexer) (before : Nat) (token : Token) : Lexer :=
  { lexer with tokens := lexer.tokens.insertIdx (lexer.tokens.length - before) token }

/-- The state behind so many characters of the line, with a token for them. -/
def take (lexer : Lexer) (n : Nat) (token : Token) : Lexer :=
  { lexer with place := lexer.place.skip n, tokens := token :: lexer.tokens }

/-! ## Blocks -/

/-- Opens a block at a column, unless the innermost one begins there or behind it. -/
def openBlock (lexer : Lexer) (column before : Nat) (token : Token) : Lexer :=
  if !lexer.inFlow && lexer.margin ≤ column then
    { lexer with columns := column :: lexer.columns }.insert before token
  else lexer

def openHere (lexer : Lexer) (token : Token) : Lexer :=
  lexer.openBlock lexer.place.column lexer.tokens.length token

/-- Closes the blocks that a line at a column is not in: those that begin behind it. -/
def closeBlocks (inside : Nat → Bool) (lexer : Lexer) : Lexer :=
  let closed := lexer.columns.takeWhile fun column => !inside column
  { lexer with
    columns := lexer.columns.drop closed.length
    tokens := List.replicate closed.length .blockEnd ++ lexer.tokens }

/-- Closes the blocks that the place is not in. -/
def closeBehind (lexer : Lexer) : Lexer :=
  if lexer.inFlow then lexer else lexer.closeBlocks (· ≤ lexer.place.column)

def closeAll (lexer : Lexer) : Lexer :=
  if lexer.inFlow then lexer else lexer.closeBlocks fun _ => false

/-! ## Keys -/

/-- Gives up the possible key, `none` where it had to become one. -/
def dropKey? (lexer : Lexer) : Option Lexer :=
  if lexer.key.any PossibleKey.required then none else some { lexer with key := none }

/-- Takes what begins at the place for a possible key, where one may begin. It has to be one at the
column of the block around it. -/
def markKey? (lexer : Lexer) : Option Lexer :=
  if lexer.keyAllowed then
    lexer.dropKey?.map fun lexer =>
      { lexer with
        key := some
          { place := lexer.place
            before := lexer.tokens.length
            required := !lexer.inFlow && lexer.columns.head? == some lexer.place.column } }
  else some lexer

/-! ## The next token -/

/-- A mark between documents. -/
def document? (lexer : Lexer) (token : Token) : Option Lexer :=
  lexer.closeAll.dropKey?.map fun lexer => { lexer with keyAllowed := false }.take 3 token

def openFlow? (lexer : Lexer) (token : Token) : Option Lexer :=
  lexer.markKey?.map fun lexer =>
    { lexer with
      keyAllowed := true
      key := none
      outerKeys := lexer.key :: lexer.outerKeys }.take 1 token

def closeFlow? (lexer : Lexer) (token : Token) : Option Lexer :=
  lexer.dropKey?.map fun lexer =>
    { lexer with
      keyAllowed := false
      key := lexer.outerKeys.head?.getD none
      outerKeys := lexer.outerKeys.tail }.take 1 token

def comma? (lexer : Lexer) : Option Lexer :=
  lexer.dropKey?.map fun lexer => { lexer with keyAllowed := true }.take 1 .comma

/-- A dash in front of an item. Outside brackets it stands where a key may begin. -/
def item? (lexer : Lexer) : Option Lexer :=
  if lexer.inFlow || lexer.keyAllowed then
    (lexer.openHere .sequenceStart).dropKey?.map fun lexer =>
      { lexer with keyAllowed := true }.take 1 .item
  else none

/-- A question mark in front of a key. Outside brackets it stands where a key may begin. -/
def key? (lexer : Lexer) : Option Lexer :=
  if lexer.inFlow || lexer.keyAllowed then
    (lexer.openHere .mappingStart).dropKey?.map fun lexer =>
      { lexer with keyAllowed := !lexer.inFlow }.take 1 .key
  else none

/-- A colon without a key before it stands where a key may begin, or inside brackets. -/
def bareValue? (lexer : Lexer) : Option Lexer :=
  if lexer.inFlow || lexer.keyAllowed then
    let lexer := lexer.openHere .mappingStart
    some ({ lexer with key := none, keyAllowed := !lexer.inFlow }.take 1 .value)
  else none

/-- A colon in front of a value. It makes the possible key one, and opens a mapping there. -/
def value? (lexer : Lexer) : Option Lexer :=
  match lexer.key with
  | some key =>
    if key.reaches lexer.place then
      let lexer :=
        (lexer.insert key.before .key).openBlock key.place.column key.before .mappingStart
      some ({ lexer with key := none, keyAllowed := false }.take 1 .value)
    else if key.required then none
    else lexer.bareValue?
  | none => lexer.bareValue?

def block? (lexer : Lexer) : Option Lexer := do
  let lexer ← lexer.dropKey?
  let (s, place) ← Scalar.block? lexer.margin lexer.place
  return { lexer with place, keyAllowed := true }.emit (.scalar s)

def quoted? (lexer : Lexer) : Option Lexer := do
  let lexer ← lexer.markKey?
  let (s, place) ← Scalar.quoted? lexer.place
  return { lexer with place, keyAllowed := false }.emit (.scalar s)

/-- A plain scalar. Behind one that ends before a line end a key may begin. -/
def plain? (lexer : Lexer) : Option Lexer := do
  let lexer ← lexer.markKey?
  let (s, place, atLineEnd) ← Scalar.plain? lexer.inFlow lexer.margin lexer.place
  return { lexer with place, keyAllowed := atLineEnd }.emit (.scalar s)

/-- The state behind the token that begins with the character at the place. -/
def step? (lexer : Lexer) (c : Char) (rest : List Char) : Option Lexer :=
  if lexer.place.atMark '-' then lexer.document? .documentStart
  else if lexer.place.atMark '.' then lexer.document? .documentEnd
  else if lexer.place.column == 0 && c == '%' then none
  else if c == '[' then lexer.openFlow? .openBracket
  else if c == '{' then lexer.openFlow? .openBrace
  else if c == ']' then lexer.closeFlow? .closeBracket
  else if c == '}' then lexer.closeFlow? .closeBrace
  else if c == ',' then lexer.comma?
  else if c == '-' && Cursor.atGap rest then lexer.item?
  else if c == '?' && (lexer.inFlow || Cursor.atGap rest) then lexer.key?
  else if c == ':' && (lexer.inFlow || Cursor.atGap rest) then lexer.value?
  else if (c == '|' || c == '>') && !lexer.inFlow then lexer.block?
  else if c == '\'' || c == '"' then lexer.quoted?
  else if Scalar.startsPlain lexer.inFlow (c :: rest) then lexer.plain?
  else none

def tokens? : Nat → Lexer → Option (List Token)
  | 0, _ => none
  | fuel + 1, lexer =>
    let (keyAllowed, place) := lexer.place.token lexer.inFlow lexer.keyAllowed
    let lexer := { lexer with place, keyAllowed }.closeBehind
    match lexer.place.rest with
    | [] => lexer.closeAll.dropKey?.map fun lexer => lexer.tokens.reverse
    | c :: rest => (lexer.step? c rest).bind (tokens? fuel)

end Lexer

/-- The tokens of a text, `none` where it cannot be cut into tokens. -/
def Token.ofText? (text : List Char) : Option (List Token) :=
  Lexer.tokens? (text.length + 1) { place := { rest := text } }

end Installer.Yaml
