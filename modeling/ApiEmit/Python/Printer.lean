/-
ApiEmit.Python.Printer — the source text of a module.

The imports and the declarations are set apart by two blank lines. A body without
statements holds `pass`, and a documentation text is a statement.
-/
import ApiEmit.Python.Docstring
import ApiEmit.Python.Quoted
import ApiEmit.Python.Syntax

namespace ApiEmit.Python

/-- Texts with a separator between them. -/
def commaList (items : List String) : String := String.intercalate ", " items

/-- The name of a type hint without parts. -/
def Primitive.text : Primitive → String
  | .str => "str"
  | .bool => "bool"
  | .int => "int"
  | .float => "float"
  | .bytes => "bytes"
  | .datetime => "datetime"
  | .timedelta => "timedelta"
  | .any => "Any"

namespace TypeHint

mutual

/-- The text of a type hint. -/
def text : TypeHint → String
  | .primitive p => p.text
  | .list item => "List[" ++ item.text ++ "]"
  | .dict value => "Dict[str, " ++ value.text ++ "]"
  | .union items => "Union[" ++ commaList (texts items) ++ "]"
  | .optional item => "Optional[" ++ item.text ++ "]"
  | .forward name => "\"" ++ name ++ "\""
  | .none => "None"

/-- The texts of some type hints. -/
def texts : List TypeHint → List String
  | [] => []
  | a :: rest => a.text :: texts rest

end

end TypeHint

/-- The text of a literal. -/
def Literal.text : Literal → String
  | .str s => quote s
  | .number n => n.text
  | .bool true => "True"
  | .bool false => "False"
  | .none => "None"

/-- The text of a keyword argument. -/
def Argument.text (a : Argument) : String := a.keyword ++ "=" ++ a.value.text

/-- The indentation of a body. -/
def bodyIndent : String := "    "

/-- The line of a field. -/
def Field.text (f : Field) : String :=
  let head := bodyIndent ++ f.name ++ ": " ++ f.hint.text
  match f.value with
  | .required => head
  | .default value => head ++ " = " ++ value.text
  | .call args => head ++ " = Field(" ++ commaList (args.map Argument.text) ++ ")"

/-- The line of a member of an enum class. -/
def MemberDef.text (m : MemberDef) : String := bodyIndent ++ m.name ++ " = " ++ m.value.text

/-- A class from its head and the statements of its body. -/
def classText (name base : String) (doc : Option String) (body : List String) : String :=
  let statements := (doc.map (docstring · bodyIndent)).toList ++ body
  String.intercalate "\n" <|
    ("class " ++ name ++ "(" ++ base ++ "):") ::
      if statements.isEmpty then [bodyIndent ++ "pass"] else statements

/-- The text of a model class. -/
def ClassDef.text (c : ClassDef) : String :=
  classText c.name c.base c.doc (c.fields.map Field.text)

/-- The text of an enum class. -/
def EnumDef.text (e : EnumDef) : String :=
  classText e.name e.base.name e.doc (e.members.map MemberDef.text)

/-- The text of an alias; its documentation stands behind it. -/
def AliasDef.text (a : AliasDef) : String :=
  let definition := a.name ++ " = " ++ a.value.text
  match a.doc with
  | some doc => definition ++ "\n" ++ docstring doc ""
  | none => definition

/-- The text of a declaration. -/
def Statement.text : Statement → String
  | .enum e => e.text
  | .alias a => a.text
  | .model c => c.text

/-- The line of an import. -/
def Import.text (i : Import) : String :=
  "from " ++ i.source ++ " import " ++ commaList i.names

/-- The text of a module. -/
def Module.text (m : Module) : String :=
  let imports := String.intercalate "\n" (m.imports.map Import.text)
  let sections := (if m.imports.isEmpty then [] else [imports]) ++ m.statements.map Statement.text
  String.intercalate "\n\n\n" sections ++ "\n"

end ApiEmit.Python
