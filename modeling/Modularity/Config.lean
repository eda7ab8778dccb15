import Modularity.Codebase.Error
import Modularity.Glob.IgnoreList
import Modularity.Json.Reader
import Modularity.Stereotypes
import Modularity.TypeExpr.Platform

namespace Modularity

inductive Detection where
  /-- Every namespace directly below a root is a module. -/
  | directSubspaces
  /-- Only namespaces that declare a module are modules. -/
  | declaredSpaces
deriving DecidableEq, Inhabited

namespace Detection

def all : List Detection := [.directSubspaces, .declaredSpaces]

def name : Detection → String
  | .directSubspaces => "direct_sub_namespaces"
  | .declaredSpaces => "explicitly_annotated"

end Detection

inductive Naming where
  /-- By the part of the namespace that follows the root. -/
  | relative
  /-- By the whole namespace. -/
  | qualified
deriving DecidableEq, Inhabited

namespace Naming

def all : List Naming := [.relative, .qualified]

def name : Naming → String
  | .relative => "local"
  | .qualified => "fully_qualified"

end Naming

/-- The configuration of an analysis. What its file leaves out takes its usual value, and so does everything
when the file cannot be read. -/
structure Config where
  roots : List String := []
  ignorePatterns : List String := []
  detection : Detection := .directSubspaces
  naming : Naming := .relative
  /-- Modules that every other module may depend on. -/
  sharedModules : List String := []
  platformStarts : List String := Platform.usualStarts
  vocabulary : Vocabulary := {}
  repositorySupertypes : List String := []
  entitySupertypes : List String := []
deriving DecidableEq, Inhabited

namespace Config

def fieldNames : List String :=
  ["roots", "ignore_patterns", "detection", "naming", "shared_modules", "standard_prefixes",
    "vocabulary", "repository_supertypes", "entity_supertypes"]

def toJson (c : Config) : Json := .obj [
  ("roots", .strs c.roots),
  ("ignore_patterns", .strs c.ignorePatterns),
  ("detection", .str c.detection.name),
  ("naming", .str c.naming.name),
  ("shared_modules", .strs c.sharedModules),
  ("standard_prefixes", .strs c.platformStarts),
  ("vocabulary", c.vocabulary.toJson),
  ("repository_supertypes", .strs c.repositorySupertypes),
  ("entity_supertypes", .strs c.entitySupertypes)]

def ofJson? (j : Json) : Option Config := do
  let r ← j.record? fieldNames
  return {
    roots := ← r.withDefault "roots" Json.strs? []
    ignorePatterns := ← r.withDefault "ignore_patterns" Json.strs? []
    detection :=
      ← r.withDefault "detection" (Json.oneOf? Detection.all Detection.name) .directSubspaces
    naming := ← r.withDefault "naming" (Json.oneOf? Naming.all Naming.name) .relative
    sharedModules := ← r.withDefault "shared_modules" Json.strs? []
    platformStarts := ← r.withDefault "standard_prefixes" Json.strs? Platform.usualStarts
    vocabulary := ← r.withDefault "vocabulary" Vocabulary.ofJson? {}
    repositorySupertypes := ← r.withDefault "repository_supertypes" Json.strs? []
    entitySupertypes := ← r.withDefault "entity_supertypes" Json.strs? [] }

def ofFile (contents : Option String) : Config :=
  ((contents.bind Json.ofString?).bind ofJson?).getD {}

def ignoreList (c : Config) : Except InputError IgnoreList :=
  (IgnoreList.ofPatterns c.ignorePatterns).mapError .invalidPattern

def platform (c : Config) : Platform := ⟨c.platformStarts⟩

/-- The stereotypes: by tags, and by supertypes if any are configured. -/
def stereotypes (c : Config) : Stereotypes :=
  let byTags := Stereotypes.ofTags c.vocabulary
  if c.repositorySupertypes.isEmpty && c.entitySupertypes.isEmpty then .anyOf [byTags]
  else
    .anyOf [byTags,
      .ofSupertypes (.ofList c.repositorySupertypes) (.ofList c.entitySupertypes)]

end Config

end Modularity
