import Modularity.Module.Basic

namespace Modularity

/-- One entry of an allow-list. Without an interface it admits a whole module, and with the interface
`*` whatever some interface of the module has. -/
structure Permission where
  module : String
  interface : Option String
deriving DecidableEq, Inhabited

namespace Permission

/-- Reads an entry such as `inventory`, `inventory::api` or `inventory::*`. White space around the parts
does not count. -/
def ofEntry (entry : String) : Permission :=
  match Text.cutAtColons entry.toList with
  | some (module, interface) =>
    ⟨String.ofList (Text.trimBlank module), some (String.ofList (Text.trimBlank interface))⟩
  | none => ⟨Text.trim entry, none⟩

def admits (p : Permission) (target : Module) (id : Symbol.Id) : Bool :=
  p.module = target.name &&
    match p.interface with
    | none => true
    | some name =>
      if name = "*" then target.interfaces.contains id
      else (target.interfaces.get? name).any (·.contains id)

def text (p : Permission) : String :=
  match p.interface with
  | some interface => p.module ++ "::" ++ interface
  | none => p.module

end Permission

/-- The permissions of a module. Without any the module is unrestricted. -/
structure AllowList where
  permissions : List Permission
deriving DecidableEq, Inhabited

namespace AllowList

def unrestricted : AllowList := ⟨[]⟩

def isUnrestricted (l : AllowList) : Bool := l.permissions.isEmpty

def modules (l : AllowList) : List String := (l.permissions.map (·.module)).eraseDups

def admits (l : AllowList) (target : Module) (id : Symbol.Id) : Bool :=
  l.isUnrestricted || l.permissions.any fun p ↦ p.admits target id

def text (l : AllowList) : String := String.intercalate ", " (l.permissions.map Permission.text)

def allow (l : AllowList) (module : String) : AllowList :=
  let p : Permission := ⟨module, none⟩
  if p ∈ l.permissions then l else ⟨l.permissions ++ [p]⟩

end AllowList

/-- The allow-list of a module. A declared list also admits the shared modules other than itself; shared
modules do not restrict a module that declares nothing. -/
def Module.allowList (m : Module) (shared : List String) : AllowList :=
  if m.declaration.allowed.isEmpty then .unrestricted
  else
    (shared.filter (· ≠ m.name)).foldl AllowList.allow
      ⟨m.declaration.allowed.map Permission.ofEntry⟩

end Modularity
