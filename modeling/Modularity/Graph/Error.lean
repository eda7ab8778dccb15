import Modularity.Codebase.Error

namespace Modularity

inductive LayoutError where
  | noRoots
  | unknownRoot (root : String)
  | overlappingRoots (outer inner : String)
  | duplicateModule (name first second : String)
  | nestedModules (outer inner : String)
  /-- A module is declared where direct detection finds none. -/
  | conflictingDetection (space : String)
  | blankDisplayName (space : String)
  | unknownSharedModule (name : String)
  | input (error : InputError)
deriving DecidableEq, Inhabited

def LayoutError.message : LayoutError → String
  | .noRoots => "No root namespace configured"
  | .unknownRoot root => "Root namespace '" ++ root ++ "' does not exist in the symbol universe"
  | .overlappingRoots outer inner =>
    "Root namespaces '" ++ outer ++ "' and '" ++ inner ++ "' overlap"
  | .duplicateModule name first second =>
    "Duplicate module name '" ++ name ++ "' for namespaces '" ++ first ++ "' and '" ++ second ++ "'"
  | .nestedModules outer inner =>
    "Module '" ++ inner ++ "' is nested inside module '" ++ outer ++ "'"
  | .conflictingDetection space =>
    "Namespace '" ++ space ++ "' declares a module but is not a direct sub-namespace of a root; " ++
      "use explicit module detection instead"
  | .blankDisplayName space => "Module for namespace '" ++ space ++ "' has a blank display name"
  | .unknownSharedModule name => "Shared module '" ++ name ++ "' does not exist"
  | .input error => error.message

end Modularity
