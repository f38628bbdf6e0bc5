/-! # Choices

A choice is a type of finitely many values, each with a name by which a manifest gives it and by
which it is written out.
-/

namespace Installer

/-- A type of finitely many named values. -/
class Choice (α : Type) where
  /-- Every value of the type. -/
  all : List α
  /-- The name of a value. -/
  name : α → String

def Choice.ofName? {α : Type} [Choice α] (name : String) : Option α :=
  Choice.all.find? fun value => Choice.name value == name

end Installer
