import Modularity.Symbol.Basic
import Modularity.TypeExpr.Names

namespace Modularity

/-- The questions that the model asks about symbols and members. -/
structure Stereotypes where
  name : String
  /-- The symbol is managed by the container and can be injected. -/
  isComponent : Symbol → Bool
  /-- The symbol is a persistent entity. -/
  isEntity : Symbol → Bool
  /-- The symbol gives access to stored data. -/
  isRepository : Symbol → Bool
  /-- The symbol declares factory methods. -/
  isConfiguration : Symbol → Bool
  /-- The method's product is managed by the container. -/
  isFactory : Member → Bool
  /-- The container injects into the member. -/
  isInjectionPoint : Member → Bool
  /-- The member handles events. -/
  isEventHandler : Member → Bool
deriving Inhabited

structure Vocabulary where
  component : OrderedSet String :=
    .ofList ["component", "service", "controller", "repository", "configuration"]
  entity : OrderedSet String := .ofList ["entity"]
  repository : OrderedSet String := .ofList ["repository"]
  configuration : OrderedSet String := .ofList ["configuration"]
  factory : OrderedSet String := .ofList ["bean"]
  injection : OrderedSet String := .ofList ["autowired", "inject"]
  eventHandler : OrderedSet String := .ofList ["event_listener", "transactional_event_listener"]
deriving DecidableEq, Inhabited

namespace Vocabulary

def fieldNames : List String :=
  ["component", "entity", "repository", "configuration", "factory", "injection", "event_handler"]

def toJson (v : Vocabulary) : Json := .obj [
  ("component", .strSet v.component),
  ("entity", .strSet v.entity),
  ("repository", .strSet v.repository),
  ("configuration", .strSet v.configuration),
  ("factory", .strSet v.factory),
  ("injection", .strSet v.injection),
  ("event_handler", .strSet v.eventHandler)]

def ofJson? (j : Json) : Option Vocabulary := do
  let r ← j.record? fieldNames
  let usual : Vocabulary := {}
  return {
    component := ← r.withDefault "component" Json.strSet? usual.component
    entity := ← r.withDefault "entity" Json.strSet? usual.entity
    repository := ← r.withDefault "repository" Json.strSet? usual.repository
    configuration := ← r.withDefault "configuration" Json.strSet? usual.configuration
    factory := ← r.withDefault "factory" Json.strSet? usual.factory
    injection := ← r.withDefault "injection" Json.strSet? usual.injection
    eventHandler := ← r.withDefault "event_handler" Json.strSet? usual.eventHandler }

end Vocabulary

namespace Stereotypes

def share (present wanted : OrderedSet String) : Bool := present.toList.any wanted.contains

/-- Stereotypes told by tags. Only methods are factories and event handlers. -/
def ofTags (v : Vocabulary) : Stereotypes where
  name := "tags"
  isComponent s := share s.tags v.component
  isEntity s := share s.tags v.entity
  isRepository s := share s.tags v.repository
  isConfiguration s := share s.tags v.configuration
  isFactory m := m.kind = .method && share m.tags v.factory
  isInjectionPoint m := share m.tags v.injection
  isEventHandler m := m.kind = .method && share m.tags v.eventHandler

def headName (supertype : String) : String := ((TypeExpr.names supertype).head?).getD supertype

def extendsAny (s : Symbol) (types : OrderedSet String) : Bool :=
  s.supertypes.any fun t ↦ types.contains (headName t)

/-- Stereotypes told by supertypes: repositories, which are components too, and entities. -/
def ofSupertypes (repositories entities : OrderedSet String) : Stereotypes where
  name := "supertypes"
  isComponent s := extendsAny s repositories
  isEntity s := extendsAny s entities
  isRepository s := extendsAny s repositories
  isConfiguration _ := false
  isFactory _ := false
  isInjectionPoint _ := false
  isEventHandler _ := false

def anyOf (parts : List Stereotypes) : Stereotypes where
  name := "chain"
  isComponent s := parts.any (·.isComponent s)
  isEntity s := parts.any (·.isEntity s)
  isRepository s := parts.any (·.isRepository s)
  isConfiguration s := parts.any (·.isConfiguration s)
  isFactory m := parts.any (·.isFactory m)
  isInjectionPoint m := parts.any (·.isInjectionPoint m)
  isEventHandler m := parts.any (·.isEventHandler m)

def usual : Stereotypes := anyOf [ofTags {}]

end Stereotypes

end Modularity
