import ModuleGraph.Path.Basic

set_option autoImplicit false

/-! # Why a specifier leads nowhere

`ResolveError.message` is the one place that words these errors. A module that is built into
the host counts as an error here, because no file is found for it.
-/

namespace ModuleGraph

inductive ResolveError where
  /-- There is nothing to look for. -/
  | emptySpecifier (specifier : String)
  | notFound (specifier : String)
  /-- None of the targets of an alias is found. -/
  | aliasNotFound (specifier key : String)
  /-- Aliases lead from one to the other without end. -/
  | recursion
  /-- The module is built into the host. -/
  | builtin
  /-- A package does not export what is asked for. -/
  | notExported (subpath : String) (package : Path) (conditions : List String)
  /-- A target lies outside of its package. -/
  | invalidTarget (target key : String) (package : Path)
  /-- The exports of a package mix subpaths and conditions. -/
  | mixedExports (package : Path)
  /-- A directory is exported as something that is none. -/
  | notFolderMapping (package : Path)
  /-- A package does not define a private specifier. -/
  | importNotDefined (specifier : String) (description : Path)
  /-- A private specifier has no name. -/
  | invalidSubpath (specifier : String) (description : Path)
  /-- The description of a package cannot be read. -/
  | malformedPackage (description : Path)
deriving DecidableEq, Repr, Inhabited

/-- The name of the file that describes a package. -/
def descriptionName : String := "package.json"

def descriptionOf (package : Path) : Path := package.join ⟨descriptionName⟩

def conditionsMessage : List String → String
  | [] => "no conditions"
  | [name] => "the condition \"" ++ name ++ "\""
  | names =>
    "the conditions [" ++ ", ".intercalate (names.map fun name => "\"" ++ name ++ "\"") ++ "]"

def ResolveError.message : ResolveError → String
  | emptySpecifier specifier =>
    "The specifiers must be a non-empty string. Received \"" ++ specifier ++ "\""
  | notFound specifier => "Cannot find module '" ++ specifier ++ "'"
  | aliasNotFound specifier key =>
    "Cannot find module '" ++ specifier ++ "' for matched aliased key '" ++ key ++ "'"
  | recursion => "Recursion in resolving"
  | builtin => "Builtin module"
  | notExported subpath package conditions =>
    "\"" ++ subpath ++ "\" is not exported under " ++ conditionsMessage conditions ++
      " from package " ++ package.text ++ " (see exports field in " ++
      (descriptionOf package).text ++ ")"
  | invalidTarget target key package =>
    "Invalid \"exports\" target \"" ++ target ++ "\" defined for '" ++ key ++
      "' in the package config " ++ (descriptionOf package).text
  | mixedExports package =>
    "Invalid package config \"" ++ (descriptionOf package).text ++
      "\", \"exports\" cannot contain some keys starting with '.' and some not. " ++
      "The exports object must either be an object of package subpath keys or an object of " ++
      "main entry condition name keys only."
  | notFolderMapping package =>
    "Expecting folder to folder mapping. \"" ++ (descriptionOf package).text ++
      "\" should end with \"/\""
  | importNotDefined specifier description =>
    "Package import specifier \"" ++ specifier ++ "\" is not defined in package " ++
      description.text
  | invalidSubpath specifier description =>
    "Invalid module \"" ++ specifier ++ "\" specifier is not a valid subpath for the " ++
      "\"exports\" resolution of " ++ description.text
  | malformedPackage description => "Malformed package config " ++ description.text

end ModuleGraph
