import Modularity.Proofs.Module.Unseen
import Modularity.Proofs.Verification.Relocation
import Modularity.Report.Basic

namespace Modularity

theorem DependencySummary.ofDependencies_relocate (e : Symbol.Id → Symbol.Id) (xs : List Dependency) :
    ofDependencies (xs.map (Dependency.relocate e)) = ofDependencies xs := by
  rw [ofDependencies, ofDependencies, List.foldl_map]
  rfl

namespace ModuleGraph

open Layout Namespace

variable {c d u v : Codebase} {e : Symbol.Id → Symbol.Id} {o : GraphOptions} {g k : ModuleGraph}
  {id : Symbol.Id} {x : Symbol} {pick : Nat}

theorem Mirrors.summary (r : Mirrors e g k) {m : Module} (hm : m ∈ g.modules) :
    ModuleSummary.ofModule k (m.relocate k.codebase) = ModuleSummary.ofModule g m := by
  simp only [ModuleSummary.ofModule, r.managed m hm, r.names m hm, r.allowList, r.dependencies hm,
    DependencySummary.ofDependencies_relocate]
  rfl

theorem Mirrors.report (r : Mirrors e g k) (hroots : k.roots = g.roots) :
    Report.ofGraph k = Report.ofGraph g := by
  have hmodules : k.modules.map (ModuleSummary.ofModule k) =
      g.modules.map (ModuleSummary.ofModule g) := by
    rw [r.modules, List.map_map]
    exact List.map_congr_left fun m hm ↦ r.summary hm
  funext vs
  simp only [Report.ofGraph, hroots, hmodules]

def shown (g : ModuleGraph) : Violations × (Violations → Report) := (g.violations, Report.ofGraph g)

theorem Mirrors.shown (r : Mirrors e g k) (hroots : k.roots = g.roots) : k.shown = g.shown :=
  Prod.ext r.violations (r.report hroots)

theorem shown_of_relocates (h : c.Relocates e d) (o : GraphOptions) :
    (build d o pick).map shown = (build c o pick).map shown := by
  rw [build_relocate h (.refl o)]
  cases hb : build c o pick with
  | error err => rfl
  | ok g =>
    have hbuilt := build_eq_ok.1 hb
    have hroots : o.roots = g.roots := (congrArg GraphOptions.roots hbuilt.options).symm
    exact congrArg Except.ok ((hbuilt.relocates h (.refl o)).mirrors.shown hroots)

theorem Built.contains_of_isTarget (hb : Built c o g) (hc : c.Coherent) {i : Symbol.Id}
    (hi : g.IsTarget i) : g.codebase.contains i := by
  obtain ⟨m, hm, x, hx, rfl⟩ := hi
  obtain ⟨origin, -, hx⟩ := List.mem_flatMap.1 hx
  obtain ⟨-, y, -, -, htarget⟩ := Discovery.exists_mention_of_mem_edges hx
  obtain ⟨-, hfind, -⟩ := Discovery.target?_eq_some_iff.1 htarget
  rw [← hb.module_codebase hm]
  have hcoherent : m.codebase.Coherent := hb.module_codebase hm ▸ hb.coherent hc
  exact (hcoherent.find?_eq_some_iff.1 hfind).1

theorem Built.mirrors_of_hides (hb : Built c o g) (hc : c.Coherent) (hd : d.Coherent)
    (hk : Built d o (g.relocate (d.restrict (trimmedRoots o.roots) o.ignore) o))
    (h : g.codebase.Hides o.stereotypes id (d.restrict (trimmedRoots o.roots) o.ignore)) :
    Mirrors (fun i ↦ i) g (g.relocate (d.restrict (trimmedRoots o.roots) o.ignore) o) := by
  have hinside : ∀ m ∈ g.modules, m.codebase.Hides m.stereotypes id
      (d.restrict (trimmedRoots o.roots) o.ignore) := fun m hm ↦ by
    rw [hb.module_codebase hm, hb.module_stereotypes hm]
    exact h
  have hmember : ∀ m ∈ g.modules, ∀ i, g.IsTarget i → m.codebase.contains i := fun m hm i hi ↦ by
    rw [hb.module_codebase hm]
    exact hb.contains_of_isTarget hc hi
  exact {
    injective := fun _ _ heq ↦ heq
    symbol := h.symbol
    modules := rfl
    shared := rfl
    managed := fun m hm ↦ congrArg OrderedSet.size (m.qualifying_unseen (hinside m hm))
    names := fun m hm ↦ congrArg InterfaceFamily.names (m.interfaces_unseen (hinside m hm))
    edges := fun m hm ↦ (m.edges_unseen (hinside m hm)).trans (List.map_id' _).symm
    owner := fun i hi ↦ hb.owner?_map hk rfl hc hd fun m hm ↦
      m.contains_unseen (hinside m hm) (hmember m hm i hi)
    admits := fun m hm i _ l ↦ l.admits_unseen (hinside m hm) i
    exposes := fun m hm i hi ↦ m.exposes_unseen (hinside m hm) (hmember m hm i hi)
    roots := congrArg (fun o ↦ trimmedRoots o.roots) hb.options.symm
    stereotypes := congrArg GraphOptions.stereotypes hb.options.symm }

theorem build_shown_of_hides (hc : c.Coherent) (hd : d.Coherent) (hspaces : c.SameSpaces d)
    (h : (c.restrict (trimmedRoots o.roots) o.ignore).Hides o.stereotypes id
      (d.restrict (trimmedRoots o.roots) o.ignore)) :
    (build d o pick).map shown = (build c o pick).map shown := by
  have hbuild := build_of_sameSpaces hspaces h.spaces (.refl o) pick
  rw [hbuild]
  cases hb : build c o pick with
  | error err => rfl
  | ok g =>
    have hbuilt := build_eq_ok.1 hb
    have hk : build d o pick = .ok (g.relocate (d.restrict (trimmedRoots o.roots) o.ignore) o) := by
      rw [hbuild, hb]
      rfl
    have hmirrors := hbuilt.mirrors_of_hides hc hd (build_eq_ok.1 hk) (hbuilt.codebase ▸ h)
    exact congrArg Except.ok (hmirrors.shown (congrArg GraphOptions.roots hbuilt.options.symm))

/-- A symbol that nobody sees when it is added to a codebase and the codebase is analysed. Its name is new,
and it lies in its namespace; the namespace holds a member that is analysed, at least if the symbol is; no
member names the symbol; and no module has a use for it. -/
structure Unseen (u : Codebase) (o : GraphOptions) (x : Symbol) : Prop where
  new : u.find? x.name = none
  placed : ¬ Codebase.isMisplaced x
  room : ∃ s ∈ u.members.map (·.1), isWithin x.space s.space ∧
    (Codebase.keeps (trimmedRoots o.roots, o.ignore) x →
      Codebase.keeps (trimmedRoots o.roots, o.ignore) s)
  unnamed : ∀ s ∈ u.members.map (·.1), x.name ∉ s.typeNames
  inert : x.IsInert o.stereotypes

/-- A codebase with the members that the symbol was added to hides it, before the analysis looks at its
part and after. -/
theorem Unseen.hides (h : Unseen u o x) (hw : Codebase.Extends id c v) (hsymbol : c.symbol id = x)
    (hmembers : c.members.map (·.1) = u.members.map (·.1)) :
    c.SameSpaces v ∧ (c.restrict (trimmedRoots o.roots) o.ignore).Hides o.stereotypes id
      (v.restrict (trimmedRoots o.roots) o.ignore) := by
  have hrestrict := hw.restrict (trimmedRoots o.roots) o.ignore
  obtain ⟨s, hs, hwithin, hkeeps⟩ := h.room
  rw [← hmembers, hw.source.mem_symbols] at hs
  obtain ⟨i, hi, rfl⟩ := hs
  rw [← hsymbol] at hwithin
  refine ⟨hw.sameSpaces fun _ ↦ ⟨i, hi, hwithin⟩, { hrestrict with
    spaces := hrestrict.sameSpaces fun hkept ↦ ?_
    inert := hsymbol.symm ▸ h.inert
    unnamed := fun j hj ↦ ?_ }⟩
  · rw [hw.target.contains_restrict_iff, hw.symbol, hsymbol] at hkept
    exact ⟨i, hw.source.contains_restrict_iff.2 ⟨hi, hkeeps hkept.2⟩, hwithin⟩
  · have hs := hw.source.mem_symbols.2 ⟨j, hw.source.contains_of_restrict hj, rfl⟩
    rw [hmembers] at hs
    exact hsymbol.symm ▸ h.unnamed _ hs

theorem Unseen.build_shown (h : Unseen u o x) (hu : u.Coherent) (hv : v.Coherent) (hadds : u.Adds x v)
    (pick : Nat) : (build v o pick).map shown = (build u o pick).map shown := by
  -- with the symbol hidden again, the codebase is a relocation of the one that the symbol was added to
  obtain ⟨id, -, hx, hmembers⟩ := hadds.exists_members_without hu hv
  have hw := hv.without_extends id
  obtain ⟨hspaces, hhides⟩ := h.hides hw ((hw.symbol id).symm.trans hx) hmembers
  have hcompact : (v.without id).compacted = u.compacted := by
    have hdescriptors : (v.without id).descriptors = u.descriptors := hadds.descriptors
    rw [Codebase.compacted, Codebase.compacted, hmembers, hdescriptors]
  rw [build_shown_of_hides hw.source hv hspaces hhides,
    shown_of_relocates hw.source.compacted_relocates, hcompact, shown_of_relocates hu.compacted_relocates]

/-- The symbol can be added. Whatever codebase comes from adding it, the build from there may fail with the
same errors, it succeeds exactly if the other one does, and the graph shows the same as the graph without
the symbol. -/
theorem unseen_addition (hu : u.Reachable) (h : Unseen u o x) :
    (∃ v, Codebase.assemble (x :: u.members.map (·.1)) u.descriptors.values = .ok v ∧ u.Adds x v) ∧
      ∀ v, v.Reachable → u.Adds x v →
        (∀ err, MayFail v o err ↔ MayFail u o err) ∧
        (∀ pick pick', (∃ k, build v o pick = .ok k) ↔ ∃ g, build u o pick' = .ok g) ∧
        ∀ pick pick' g k, build u o pick = .ok g → build v o pick' = .ok k →
          k.violations = g.violations ∧ Report.ofGraph k = Report.ofGraph g := by
  have hc := hu.coherent
  refine ⟨hc.exists_adds h.new h.placed, fun v hv hadds ↦ ?_⟩
  have hshown := h.build_shown hc hv.coherent hadds
  refine ⟨fun err ↦ mayFail_congr hshown, fun pick pick' ↦ ?_, fun pick pick' g k hg hk ↦ ?_⟩
  · have hsucceeds := exists_ok_congr (hshown pick)
    simp only [build_eq_ok] at hsucceeds ⊢
    exact hsucceeds
  · have hsame := hshown pick
    rw [hg, build_ok_any hk] at hsame
    exact Prod.mk.inj (Except.ok.inj hsame)

/-- An audit of the orders. Its name comes before that of the order, so it takes the position of the order. -/
def audit : Symbol where
  name := "shop.orders.Audit"
  space := "shop.orders"
  supertypes := ["shop.stock.Item"]
  members := [(Member.newField "item" "shop.stock.Item").tagged "inject"]
  references := [{ target := "shop.Main" }, { target := "shop.orders.Order" }]

theorem unseen_addition_shop :
    ∃ v g, Codebase.shop.Reachable ∧ Unseen .shop { roots := ["shop"] } audit ∧
      Codebase.assemble (audit :: Codebase.shop.members.map (·.1)) Codebase.shop.descriptors.values =
        .ok v ∧
      build .shop { roots := ["shop"] } = .ok g ∧ ¬ g.violations.isEmpty ∧
      ∃ k, build v { roots := ["shop"] } = .ok k ∧ k.violations = g.violations ∧
        Report.ofGraph k = Report.ofGraph g := by
  have hunseen : Unseen .shop { roots := ["shop"] } audit := {
    new := by decide +kernel
    placed := by decide +kernel
    room := ⟨Codebase.shop.symbol 1, by decide +kernel, by decide +kernel, fun _ ↦ by decide +kernel⟩
    unnamed := by decide +kernel
    inert := ⟨by decide +kernel, by decide +kernel, by decide +kernel, by decide +kernel, by decide,
      rfl⟩ }
  have hempty : (build .shop { roots := ["shop"] }).toOption.map (·.violations.isEmpty) =
      some false := by decide +kernel
  obtain ⟨g, hg, hviolations⟩ := Option.map_eq_some_iff.1 hempty
  have hbuild := ok_of_toOption hg
  obtain ⟨⟨v, hv, hadds⟩, hsame⟩ := unseen_addition Codebase.shop_reachable hunseen
  obtain ⟨-, hsucceeds, hshown⟩ := hsame v (.assembled hv) hadds
  obtain ⟨k, hk⟩ := (hsucceeds 0 0).2 ⟨g, hbuild⟩
  exact ⟨v, g, Codebase.shop_reachable, hunseen, hv, hbuild, by simp [hviolations], k, hk,
    hshown 0 0 g k hbuild hk⟩

end ModuleGraph

end Modularity
