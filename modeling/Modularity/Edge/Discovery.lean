import Modularity.Edge.Basic
import Modularity.Namespace.Basic
import Modularity.TypeExpr.Platform

namespace Modularity

structure Mention where
  name : String
  site : Edge.Site
  member : Option Member := none
  line : Option UInt32 := none
deriving DecidableEq, Inhabited

namespace Mention

def ofType (site : Edge.Site) (member : Option Member) (line : Option UInt32) (expr : String) :
    List Mention :=
  (TypeExpr.names expr).map fun name ↦ ⟨name, site, member, line⟩

def ofParameters (site : Edge.Site) (m : Member) : List Mention :=
  m.parameterTypes.flatMap (ofType site (some m) none)

def ofValue (site : Edge.Site) (m : Member) : List Mention :=
  m.valueType.toList.flatMap (ofType site (some m) none)

/-- Whether a member is a constructor that the container calls: one marked for injection, or the only
constructor if none is marked. -/
def isInjectionConstructor (st : Stereotypes) (s : Symbol) (m : Member) : Bool :=
  m.kind = .constructor &&
    (st.isInjectionPoint m ||
      (!s.constructors.any st.isInjectionPoint && s.constructors.length = 1))

def inConstructors (st : Stereotypes) (s : Symbol) : List Mention :=
  (s.members.filter (isInjectionConstructor st s)).flatMap (ofParameters .injectionConstructor)

def injected (st : Stereotypes) (m : Member) : List Mention :=
  if st.isInjectionPoint m then
    match m.kind with
    | .field => ofValue .injectedField m
    | .method => ofParameters .injectionMethod m
    | .constructor => []
  else []

def inSignature (st : Stereotypes) (s : Symbol) (m : Member) : List Mention :=
  if isInjectionConstructor st s m || (st.isInjectionPoint m && m.kind ≠ .method) then []
  else
    (if st.isInjectionPoint m then [] else ofParameters .memberSignature m) ++
      ofValue .memberSignature m

def inMembers (st : Stereotypes) (s : Symbol) : List Mention :=
  inConstructors st s ++ s.members.flatMap (injected st) ++ s.members.flatMap (inSignature st s)

def elsewhere (s : Symbol) : List Mention :=
  s.references.flatMap (fun r ↦
      ofType .staticReference (r.member.bind s.member?) r.line r.target) ++
    s.supertypes.flatMap (ofType .supertype none none)

end Mention

/-- What the search for edges needs to know: the codebase, the stereotypes, the platform, and the name
of the namespace that no edge leads into. -/
structure Discovery where
  codebase : Codebase
  stereotypes : Stereotypes
  platform : Platform
  owner : String
deriving Inhabited

namespace Discovery

/-- Whether a mention is passed over: a type of the platform in a plain signature. -/
def isExcluded (d : Discovery) (m : Mention) : Bool :=
  m.site = .memberSignature && d.platform.excludes m.name

/-- The member that a mention in a symbol leads to, if it lies outside the owner. -/
def target? (d : Discovery) (origin : Symbol.Id) (m : Mention) : Option Symbol.Id :=
  if d.isExcluded m then none
  else
    (d.codebase.find? m.name).filter fun id ↦
      id ≠ origin && !Namespace.isWithin d.owner (d.codebase.symbol id).space

def edge? (d : Discovery) (origin : Symbol.Id) (m : Mention) : Option Edge :=
  (d.target? origin m).map fun target ↦ {
    origin, target
    kind := .classify d.stereotypes m.member (d.codebase.symbol target) m.site
    site := m.site
    member := m.member.map (·.name)
    line := m.line.or (m.member.bind (·.line)) }

/-- The edges of a symbol. What is found in signatures comes first; uses in bodies and supertypes only add
targets that no signature has shown. -/
def edges (d : Discovery) (origin : Symbol.Id) : List Edge :=
  let s := d.codebase.symbol origin
  let shown := (Mention.inMembers d.stereotypes s).filterMap (d.edge? origin)
  let others := (Mention.elsewhere s).filterMap (d.edge? origin)
  shown ++ others.filter fun e ↦ !(shown.map (·.target)).contains e.target

end Discovery

end Modularity
