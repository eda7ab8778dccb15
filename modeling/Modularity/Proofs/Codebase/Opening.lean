import Modularity.Proofs.Codebase.Reachable
import Modularity.Proofs.Ordered.Canonical
import Modularity.Proofs.Ordered.Image

namespace Modularity

def Descriptor.opening (d : Descriptor) (space : String) : Descriptor :=
  { d with module := d.module.map fun declaration ↦
      { declaration with isOpen := declaration.isOpen || d.name = space } }

theorem Descriptor.opening_of_ne {d : Descriptor} {space : String} (h : d.name ≠ space) :
    d.opening space = d := by
  cases d
  simp_all [opening]

namespace Codebase

def opening (c : Codebase) (space : String) : Codebase :=
  { c with descriptors := c.descriptors.mapValues (·.opening space) }

/-- Two codebases are equal but for the module that a namespace declares: it is closed in the first and
open in the second. -/
structure Opens (u : Codebase) (space : String) (v : Codebase) : Prop where
  arena : v.arena = u.arena
  visible : v.visible = u.visible
  declared : ∃ d declaration, u.descriptor? space = some d ∧ d.module = some declaration ∧
    declaration.isOpen = false ∧
    v.descriptor? space = some { d with module := some { declaration with isOpen := true } }
  others : ∀ other, other ≠ space → v.descriptor? other = u.descriptor? other

variable {c u v : Codebase} {space : String}

theorem index_opening (arena : Array Symbol) (visible : Array Bool)
    (ds : OrderedMap String Descriptor) :
    index arena visible (ds.mapValues (·.opening space)) = (index arena visible ds).opening space := by
  simp only [index, opening, OrderedMap.keys_mapValues]

theorem restrict_opening (roots : List String) (ignore : IgnoreList) :
    (c.opening space).restrict roots ignore = (c.restrict roots ignore).opening space := by
  rw [restrict, restrict, ← index_opening, ← OrderedMap.filter_mapValues]
  rfl

theorem descriptor?_opening (other : String) :
    (c.opening space).descriptor? other = (c.descriptor? other).map (·.opening space) :=
  OrderedMap.get?_mapValues ..

theorem Coherent.descriptor?_opening_of_ne (hc : c.Coherent) {other : String} (hother : other ≠ space) :
    (c.opening space).descriptor? other = c.descriptor? other := by
  rw [descriptor?_opening]
  cases hd : c.descriptor? other with
  | none => rfl
  | some d =>
    have hname : d.name = other := hc.keyed hd
    rw [Option.map_some, d.opening_of_ne (hname ▸ hother)]

theorem Coherent.descriptor?_opening_self (hc : c.Coherent) {d : Descriptor} {declaration : Declaration}
    (hd : c.descriptor? space = some d) (hmodule : d.module = some declaration) :
    (c.opening space).descriptor? space =
      some { d with module := some { declaration with isOpen := true } } := by
  have hname : d.name = space := hc.keyed hd
  rw [descriptor?_opening, hd, Option.map_some, Descriptor.opening, hmodule, hname]
  simp

theorem Opens.eq_opening (h : u.Opens space v) (hu : u.Coherent) (hv : v.Coherent) :
    v = u.opening space := by
  have hdescriptors : v.descriptors = u.descriptors.mapValues (·.opening space) := by
    apply OrderedMap.ext_get?
    intro other
    show v.descriptor? other = (u.opening space).descriptor? other
    by_cases hother : other = space
    · obtain ⟨d, declaration, hd, hmodule, -, hopened⟩ := h.declared
      rw [hother, hopened, hu.descriptor?_opening_self hd hmodule]
    · rw [h.others other hother, hu.descriptor?_opening_of_ne hother]
  have hindexed := hv.indexed
  rw [h.arena, h.visible, hdescriptors, index_opening, ← hu.indexed] at hindexed
  exact hindexed

theorem Coherent.opens_opening (hu : u.Coherent) {d : Descriptor} {declaration : Declaration}
    (hd : u.descriptor? space = some d) (hmodule : d.module = some declaration)
    (hclosed : declaration.isOpen = false) : u.Opens space (u.opening space) :=
  ⟨rfl, rfl, ⟨d, declaration, hd, hmodule, hclosed, hu.descriptor?_opening_self hd hmodule⟩,
    fun _ ↦ hu.descriptor?_opening_of_ne⟩

end Codebase

end Modularity
