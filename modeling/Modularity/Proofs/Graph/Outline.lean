import Modularity.Proofs.Codebase.Content
import Modularity.Proofs.Verification.Relocation

namespace Modularity

structure Interface.Outline where
  name : String
  scopes : Option (OrderedSet String)
  symbols : List String
deriving DecidableEq

structure Dependency.Outline where
  source : String
  target : String
  origin : String
  referred : String
  kind : Edge.Kind
  site : Edge.Site
  member : Option String
  line : Option UInt32
deriving DecidableEq

structure Module.Outline where
  name : String
  displayName : String
  space : String
  root : String
  qualifying : List String
  interfaces : List Interface.Outline
  dependencies : List Dependency.Outline
deriving DecidableEq

structure ModuleGraph.Outline where
  modules : List Module.Outline
  shared : List Module.Outline
  violations : Violations
deriving DecidableEq

def Interface.outline (c : Codebase) (i : Interface) : Interface.Outline where
  name := i.name
  scopes := i.scopes
  symbols := i.symbols.toList.map fun id ↦ (c.symbol id).name

def Dependency.outline (c : Codebase) (x : Dependency) : Dependency.Outline where
  source := x.source
  target := x.target
  origin := (c.symbol x.edge.origin).name
  referred := (c.symbol x.edge.target).name
  kind := x.edge.kind
  site := x.edge.site
  member := x.edge.member
  line := x.edge.line

namespace ModuleGraph

def moduleOutline (g : ModuleGraph) (m : Module) : Module.Outline where
  name := m.name
  displayName := m.displayName
  space := m.space.name
  root := m.root
  qualifying := m.qualifying.toList.map fun id ↦ (g.codebase.symbol id).name
  interfaces := m.interfaces.toList.map (·.outline g.codebase)
  dependencies := (g.dependencies m).map (·.outline g.codebase)

def outline (g : ModuleGraph) : Outline where
  modules := g.modules.map g.moduleOutline
  shared := g.shared.map g.moduleOutline
  violations := g.violations

end ModuleGraph

variable {c d : Codebase} {e : Symbol.Id → Symbol.Id} {o p : GraphOptions} {pick : Nat}

theorem Interface.outline_relocate (h : c.Relocates e d) (i : Interface) :
    (i.relocate e).outline d = i.outline c := by
  have hsymbols : (i.relocate e).symbols.toList = i.symbols.toList.map e :=
    OrderedSet.toList_image h.ascending i.symbols
  rw [outline, outline, hsymbols, List.map_map]
  refine congrArg (Outline.mk i.name i.scopes) (List.map_congr_left fun id _ ↦ ?_)
  rw [Function.comp_apply, h.symbol]

theorem Dependency.outline_relocate (h : c.Relocates e d) (x : Dependency) :
    (x.relocate e).outline d = x.outline c := by
  simp only [outline, relocate, Edge.relocate, h.symbol]

namespace ModuleGraph

variable {g k : ModuleGraph} {m : Module}

theorem Relocates.moduleOutline (r : Relocates e g k) (hm : m ∈ g.modules) :
    k.moduleOutline (m.relocate k.codebase) = g.moduleOutline m := by
  have hm' := r.module_codebase hm
  have hqualifying : (m.relocate k.codebase).qualifying.toList.map
      (fun id ↦ (k.codebase.symbol id).name) =
      m.qualifying.toList.map fun id ↦ (g.codebase.symbol id).name := by
    rw [m.qualifying_relocate hm', OrderedSet.toList_image hm'.ascending, List.map_map]
    apply List.map_congr_left
    intro id _
    rw [Function.comp_apply, r.codebase.symbol]
  have hinterfaces : (m.relocate k.codebase).interfaces.toList.map (·.outline k.codebase) =
      m.interfaces.toList.map (·.outline g.codebase) := by
    rw [m.interfaces_relocate hm', InterfaceFamily.toList_relocate, List.map_map]
    exact List.map_congr_left fun i _ ↦ i.outline_relocate r.codebase
  have hdependencies : (k.dependencies (m.relocate k.codebase)).map (·.outline k.codebase) =
      (g.dependencies m).map (·.outline g.codebase) := by
    rw [r.dependencies hm, List.map_map]
    exact List.map_congr_left fun x _ ↦ x.outline_relocate r.codebase
  rw [ModuleGraph.moduleOutline, ModuleGraph.moduleOutline, hqualifying, hinterfaces, hdependencies]
  rfl

theorem Relocates.outline (r : Relocates e g k) : k.outline = g.outline := by
  have houtlines : ∀ ms : List Module, (∀ m ∈ ms, m ∈ g.modules) →
      (ms.map (·.relocate k.codebase)).map k.moduleOutline = ms.map g.moduleOutline :=
    fun ms hms ↦ by
      rw [List.map_map]
      exact List.map_congr_left fun m hm ↦ r.moduleOutline (hms m hm)
  rw [ModuleGraph.outline, ModuleGraph.outline, r.violations, r.modules, r.shared,
    houtlines _ fun m hm ↦ hm, houtlines _ r.chosen]

theorem build_outline (h : c.Relocates e d) (ho : o.Alike p) :
    (build d p pick).map outline = (build c o pick).map outline := by
  rw [build_relocate h ho]
  cases hb : build c o pick with
  | error err => rfl
  | ok g => exact congrArg Except.ok ((build_eq_ok.1 hb).relocates h ho).outline

/-- What a build gives is determined by the bytes under the fingerprint of the codebase. -/
theorem build_outline_of_bytes (hc : c.Coherent) (hd : d.Coherent)
    (hbytes : Fingerprint.bytes c.content = Fingerprint.bytes d.content) (ho : o.Alike p) (pick : Nat) :
    (build d p pick).map outline = (build c o pick).map outline := by
  rw [build_outline (hc.compacted_relocates_of_bytes hd hbytes) ho,
    build_outline hc.compacted_relocates (.refl o)]

end ModuleGraph

end Modularity
