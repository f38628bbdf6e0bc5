import Installer.LogicalPath

/-! # Special folders

A special folder of the target machine has a fixed id, such as `ProgramFilesFolder`. A project may
name it by a token in per cent signs, long (`%ProgramFilesFolder%`) or short (`%ProgramFiles%`), by
the bare id, or by the id in brackets. The module recognises these spellings, replaces tokens inside
longer texts, and makes identifiers of arbitrary names.
-/

namespace Installer.Folder

/-! ## The folders -/

/-- Every token with the id of its folder. The long tokens come first. -/
def tokens : List (String × String) :=
  [("%AdminToolsFolder%", "AdminToolsFolder"),
   ("%AppDataFolder%", "AppDataFolder"),
   ("%CommonAppDataFolder%", "CommonAppDataFolder"),
   ("%CommonFiles64Folder%", "CommonFiles64Folder"),
   ("%CommonFilesFolder%", "CommonFilesFolder"),
   ("%DesktopFolder%", "DesktopFolder"),
   ("%FavoritesFolder%", "FavoritesFolder"),
   ("%FontsFolder%", "FontsFolder"),
   ("%LocalAppDataFolder%", "LocalAppDataFolder"),
   ("%MyPicturesFolder%", "MyPicturesFolder"),
   ("%PersonalFolder%", "PersonalFolder"),
   ("%ProgramFiles64Folder%", "ProgramFiles64Folder"),
   ("%ProgramFilesFolder%", "ProgramFilesFolder"),
   ("%ProgramMenuFolder%", "ProgramMenuFolder"),
   ("%SendToFolder%", "SendToFolder"),
   ("%StartMenuFolder%", "StartMenuFolder"),
   ("%StartupFolder%", "StartupFolder"),
   ("%System16Folder%", "System16Folder"),
   ("%System64Folder%", "System64Folder"),
   ("%SystemFolder%", "SystemFolder"),
   ("%TempFolder%", "TempFolder"),
   ("%TemplateFolder%", "TemplateFolder"),
   ("%WindowsFolder%", "WindowsFolder"),
   ("%WindowsVolume%", "WindowsVolume"),
   ("%AdminTools%", "AdminToolsFolder"),
   ("%AppData%", "AppDataFolder"),
   ("%CommonAppData%", "CommonAppDataFolder"),
   ("%CommonFiles64%", "CommonFiles64Folder"),
   ("%CommonFiles%", "CommonFilesFolder"),
   ("%Desktop%", "DesktopFolder"),
   ("%Favorites%", "FavoritesFolder"),
   ("%Fonts%", "FontsFolder"),
   ("%LocalAppData%", "LocalAppDataFolder"),
   ("%MyPictures%", "MyPicturesFolder"),
   ("%Personal%", "PersonalFolder"),
   ("%ProgramFiles64%", "ProgramFiles64Folder"),
   ("%ProgramFiles%", "ProgramFilesFolder"),
   ("%ProgramMenu%", "ProgramMenuFolder"),
   ("%SendTo%", "SendToFolder"),
   ("%StartMenu%", "StartMenuFolder"),
   ("%Startup%", "StartupFolder"),
   ("%System16%", "System16Folder"),
   ("%System64%", "System64Folder"),
   ("%System%", "SystemFolder"),
   ("%Temp%", "TempFolder"),
   ("%Template%", "TemplateFolder"),
   ("%Windows%", "WindowsFolder")]

/-- The spellings of 32-bit folders inside longer texts, each with its 64-bit counterpart. -/
def wideSpellings : List (String × String) :=
  [("%ProgramFilesFolder%", "%ProgramFiles64Folder%"),
   ("%ProgramFiles%", "%ProgramFiles64%"),
   ("%CommonFilesFolder%", "%CommonFiles64Folder%"),
   ("%SystemFolder%", "%System64Folder%"),
   ("%CommonFiles%", "%CommonFiles64%"),
   ("%System%", "%System64%"),
   ("[ProgramFilesFolder]", "[ProgramFiles64Folder]"),
   ("[CommonFilesFolder]", "[CommonFiles64Folder]"),
   ("[SystemFolder]", "[System64Folder]")]

/-- The ids of the 32-bit folders, each with its 64-bit counterpart. -/
def wideIds : List (String × String) :=
  [("ProgramFilesFolder", "ProgramFiles64Folder"),
   ("CommonFilesFolder", "CommonFiles64Folder"),
   ("SystemFolder", "System64Folder")]

/-! ## Recognising a folder -/

/-- The text without the brackets around it, however many there are. -/
def unbracketed (text : List Char) : List Char :=
  ((text.dropWhile (· == '[')).reverse.dropWhile (· == ']')).reverse

/-- The id of the special folder that `name` spells, if it spells one. -/
def specialId? (name : String) : Option String :=
  match tokens.lookup name with
  | some id => some id
  | none =>
    let bare := String.ofList (unbracketed name.toList)
    if tokens.any fun entry => entry.2 == bare then some bare else none

def isSpecial (name : String) : Bool :=
  (specialId? name).isSome

/-! ## Replacing spellings inside a text -/

/-- Makes each replacement of the list in turn, all over the text. -/
def replaceEach (replacements : List (String × String)) (text : String) : String :=
  String.ofList <| replacements.foldl
    (fun chars entry => Text.replace entry.1.toList entry.2.toList chars) text.toList

/-- The text with the id of its folder in place of every token. -/
def expandTokens (text : String) : String :=
  replaceEach tokens text

/-- The text with a reference to the folder property, such as `[DesktopFolder]`, in place of every
token. Command lines and registry values are written so. -/
def commandText (text : String) : String :=
  replaceEach (tokens.map fun entry => (entry.1, "[" ++ entry.2 ++ "]")) text

def widen (text : String) : String :=
  match wideIds.lookup text with
  | some wide => wide
  | none => replaceEach wideSpellings text

/-! ## Identifiers -/

def isIdChar (c : Char) : Bool :=
  c.isAlphanum || c == '_' || c == '.'

/-- The text with an underscore in place of every character that no identifier has. -/
def sanitize (text : String) : String :=
  String.ofList (text.toList.map fun c => if isIdChar c then c else '_')

/-- An identifier is not empty and does not begin with a digit; an underscore in front mends both.
-/
def withLegalStart (id : String) : String :=
  match id.toList with
  | [] => "_"
  | c :: _ => if c.isDigit then "_" ++ id else id

/-- The identifier of a name or a logical path: `%ProgramMenu%\My Company` gives
`ProgramMenuFolder.My_Company`. -/
def identifier (name : String) : String :=
  match specialId? name with
  | some id => id
  | none =>
    let parts := LogicalPath.components (expandTokens name)
    withLegalStart (".".intercalate (parts.map fun part => sanitize ((specialId? part).getD part)))

end Installer.Folder
