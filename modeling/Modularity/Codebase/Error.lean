import Modularity.Glob.IgnoreList

namespace Modularity

inductive InputError where
  | invalidPattern (flaw : IgnoreList.Flaw)
  | duplicateSymbol (name : String)
  /-- A symbol's name does not start with the namespace that it declares and a dot. -/
  | outsideNamespace (symbol space : String)
  /-- There is no snapshot to read. -/
  | unreadableSnapshot
  /-- The text of a snapshot is not JSON, or not of the right shape. -/
  | malformedSnapshot
deriving DecidableEq, Inhabited

def InputError.message : InputError → String
  | .invalidPattern flaw => "Invalid ignore pattern '" ++ flaw.subject ++ "': " ++ flaw.message
  | .duplicateSymbol name => "Duplicate symbol: " ++ name
  | .outsideNamespace symbol space =>
    "Symbol '" ++ symbol ++ "' declares namespace '" ++ space ++ "' but its name is not inside it"
  | .unreadableSnapshot => "Failed to read snapshot"
  | .malformedSnapshot => "Failed to parse snapshot"

end Modularity
