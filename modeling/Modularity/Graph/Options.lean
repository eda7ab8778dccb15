import Modularity.Config
import Modularity.Graph.Error

namespace Modularity

structure GraphOptions where
  roots : List String := []
  ignore : IgnoreList := .none
  detection : Detection := .directSubspaces
  naming : Naming := .relative
  shared : List String := []
  stereotypes : Stereotypes := .usual
  /-- Tells instances of stereotypes apart. Options with one number have one instance. -/
  instanceNumber : Nat := 0
  platform : Platform := .usual
deriving Inhabited

namespace GraphOptions

def ofConfig (c : Config) : Except LayoutError GraphOptions :=
  match c.ignoreList with
  | .error e => .error (.input e)
  | .ok ignore => .ok {
      roots := c.roots
      ignore
      detection := c.detection
      naming := c.naming
      shared := c.sharedModules
      stereotypes := c.stereotypes
      platform := c.platform }

end GraphOptions

end Modularity
