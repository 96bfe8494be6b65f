/-!
Outlines: the one-line text of structured values, made of records, applied constructors, lists and
braced collections whose parts are already texts.
-/
namespace QueryOptimizer.Text

def commaSeparated (items : List String) : String :=
  ", ".intercalate items

def listOutline (items : List String) : String :=
  "[" ++ commaSeparated items ++ "]"

/-- The outline of a set, or of a map whose items are `entryOutline`s. -/
def setOutline (items : List String) : String :=
  "\x7b" ++ commaSeparated items ++ "\x7d"

def entryOutline (key value : String) : String :=
  key ++ ": " ++ value

def recordOutline (name : String) (fields : List (String × String)) : String :=
  name ++ " \x7b " ++ commaSeparated (fields.map fun field => entryOutline field.1 field.2) ++ " \x7d"

def applicationOutline (name : String) (arguments : List String) : String :=
  name ++ "(" ++ commaSeparated arguments ++ ")"

def optionOutline : Option String → String
  | none => "None"
  | some text => applicationOutline "Some" [text]

end QueryOptimizer.Text
