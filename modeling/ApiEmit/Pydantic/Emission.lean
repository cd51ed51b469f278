/-
ApiEmit.Pydantic.Emission — the modules of a program.

Every declaration that can be written out goes to one of three modules: what is
only taken, what is only given, and all the rest. A module without declarations is
not written, and neither is anything of a program with errors.
-/
import ApiEmit.Keyed
import ApiEmit.Pydantic.Module
import ApiEmit.Pydantic.Options
import ApiEmit.Python.Printer
import ApiEmit.Usage.Classify

namespace ApiEmit.Pydantic

/-- The declarations of a program that can be written out. -/
structure Declared where
  models : List DeclId
  enums : List DeclId
  unions : List DeclId

/-- Models, then enums, then unions. -/
def Declared.all (d : Declared) : List DeclId := d.models ++ d.enums ++ d.unions

/-- The declarations of one kind that can be written out, in the order of their namespaces. -/
def declaredOf (g : Graph) (names : Namespace → List String) : List DeclId :=
  (g.openNamespaces.flatMap fun ns => (names ns).map (⟨ns.id, ·⟩)).filter g.isDeclarable

/-- The declarations of a program that can be written out, outside the reserved part of the tree. -/
def declared (g : Graph) : Declared :=
  { models := declaredOf g (·.models), enums := declaredOf g (·.enums),
    unions := declaredOf g (·.unions) }

/-- The module that takes the declarations of a usage. -/
def Options.moduleFor (o : Options) : Usage → String
  | .input => o.inputModule
  | .output => o.outputModule
  | .roundtrip => o.roundtripModule

/-- The file of a module. -/
def fileName (moduleName : String) : String := moduleName ++ ".py"

/-- The declarations that are to be written. -/
def selected (g : Graph) (o : Options) : List DeclId :=
  let usage := g.classify
  (declared g).all.filter fun id => !o.constrainToUsed || usage.contains id

/-- The declarations that are to be written to the module of a usage. -/
def bucket (g : Graph) (o : Options) (u : Usage) : List DeclId :=
  let usage := g.classify
  (selected g o).filter fun id => usage.usageOf id == u

/-- The names of all declarations of a program that can be written out. -/
def nameTable (g : Graph) : NameTable := NameTable.ofDecls (declared g).all

/-- The module for a usage with its name, unless it would be empty. -/
def moduleFor? (g : Graph) (o : Options) (usage : Usage) : Option (String × Python.Module) :=
  match bucket g o usage with
  | [] => none
  | decls => some (o.moduleFor usage, moduleOf g (nameTable g) decls)

/-- The modules of a program with their names. -/
def modules (g : Graph) (o : Options) : List (String × Python.Module) :=
  if g.hasErrors then [] else [Usage.input, .output, .roundtrip].filterMap (moduleFor? g o)

/-- The files of the modules of a program. Of two modules with one file name the later is kept, in
the place of the earlier. -/
def files (g : Graph) (o : Options) : List (String × String) :=
  Keyed.ofList (·.1) ((modules g o).map fun (name, m) => (fileName name, m.text))

end ApiEmit.Pydantic
