/-! # Extensions

Some elements of a source document, and the dialog sets, come from extensions of the toolchain.
-/

namespace Installer

/-- The extensions that a source document may need. -/
inductive Extension where
  /-- Users and permissions. -/
  | util
  /-- Databases. -/
  | sql
  /-- Certificates. -/
  | iis
  /-- Dialog sets. -/
  | ui
deriving DecidableEq, Repr

namespace Extension

/-- Every extension, in the order in which they are listed everywhere. -/
def all : List Extension :=
  [.util, .sql, .iis, .ui]

/-- The prefix of the extension's elements, for an extension that has elements. -/
def elementPrefix? : Extension → Option String
  | .util => some "util"
  | .sql => some "sql"
  | .iis => some "iis"
  | .ui => none

/-- The name space that the prefix stands for. -/
def nameSpace? : Extension → Option String
  | .util => some "http://schemas.microsoft.com/wix/UtilExtension"
  | .sql => some "http://schemas.microsoft.com/wix/SqlExtension"
  | .iis => some "http://schemas.microsoft.com/wix/IIsExtension"
  | .ui => none

/-- The library that the toolchain loads for the extension. -/
def library : Extension → String
  | .util => "WixUtilExtension.dll"
  | .sql => "WixSqlExtension.dll"
  | .iis => "WixIIsExtension.dll"
  | .ui => "WixUIExtension.dll"

/-- The extensions in `used`, each once and in the usual order. -/
def ordered (used : List Extension) : List Extension :=
  all.filter fun extension => used.contains extension

end Extension

end Installer
