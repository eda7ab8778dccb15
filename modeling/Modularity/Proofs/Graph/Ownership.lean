import Modularity.Proofs.Graph.Build
import Modularity.Proofs.Ordered.Canonical

namespace Modularity

open Namespace

theorem Module.contains_iff {m : Module} {id : Symbol.Id} :
    m.contains id ↔
      m.codebase.contains id ∧ isWithin m.space.name (m.codebase.symbol id).space := by
  rw [Module.contains, Codebase.get?]
  by_cases hid : m.codebase.contains id <;> simp [hid, holds]

namespace ModuleGraph

open Layout

variable {c : Codebase} {o : GraphOptions} {g : ModuleGraph} {m n : Module} {id : Symbol.Id}

theorem getElem?_setAll (ids : List Symbol.Id) (table : Array (Option Module)) (id : Symbol.Id) :
    (ids.foldl (fun table i ↦ table.setIfInBounds i (some m)) table)[id]? =
      if id ∈ ids ∧ id < table.size then some (some m) else table[id]? := by
  induction ids generalizing table with
  | nil => simp
  | cons i ids ih =>
    rw [List.foldl_cons, ih, Array.size_setIfInBounds, Array.getElem?_setIfInBounds]
    by_cases hid : id = i
    · subst hid
      by_cases hlt : id < table.size <;> simp [hlt]
    · simp [hid, Ne.symm hid]

theorem size_setAll (ids : List Symbol.Id) (table : Array (Option Module)) :
    (ids.foldl (fun table i ↦ table.setIfInBounds i (some m)) table).size = table.size := by
  induction ids generalizing table with
  | nil => rfl
  | cons i ids ih => rw [List.foldl_cons, ih, Array.size_setIfInBounds]

theorem size_ownerTable (count : Nat) (ms : List Module) : (ownerTable count ms).size = count := by
  suffices hfold : ∀ table, (ms.foldl enter table).size = table.size by
    rw [ownerTable, hfold, Array.size_replicate]
  induction ms with
  | nil => exact fun table ↦ rfl
  | cons m ms ih => exact fun table ↦ by rw [List.foldl_cons, ih, enter, size_setAll]

/-- The last module that has a symbol is entered as its owner. -/
theorem getElem?_ownerTable (count : Nat) (ms : List Module) (id : Symbol.Id) :
    (ownerTable count ms)[id]? =
      if id < count then some (ms.reverse.find? fun m ↦ m.space.symbols.contains id) else none := by
  induction ms using List.reverseRecOn with
  | nil => simp [ownerTable, Array.getElem?_replicate]
  | append_singleton ms m ih =>
    have hsize := size_ownerTable count ms
    have happend : ownerTable count (ms ++ [m]) = enter (ownerTable count ms) m := by
      simp [ownerTable]
    rw [happend, enter, getElem?_setAll, ih, hsize, List.reverse_append]
    by_cases hlt : id < count <;> by_cases hmem : id ∈ m.space.symbols <;> simp [hlt, hmem]

namespace Built

theorem contains_iff (h : Built c o g) (hm : m ∈ g.modules) :
    m.contains id ↔
      g.codebase.contains id ∧ isWithin m.space.name (g.codebase.symbol id).space := by
  rw [Module.contains_iff, h.module_codebase hm]

theorem unique (h : Built c o g) (hm : m ∈ g.modules) (hn : n ∈ g.modules)
    (hid : m.contains id) (hid' : n.contains id) : m = n := by
  have hwithin := ((h.contains_iff hm).1 hid).2
  have hwithin' := ((h.contains_iff hn).1 hid').2
  rcases isWithin_or_of_common hwithin hwithin' with hmn | hnm
  · exact h.eq_of_isWithin hm hn hmn
  · exact (h.eq_of_isWithin hn hm hnm).symm

variable (hc : c.Coherent)

include hc

theorem coherent (h : Built c o g) : g.codebase.Coherent := by
  rw [h.codebase]
  exact hc.restrict _ _

theorem mem_symbols (h : Built c o g) (hm : m ∈ g.modules) :
    id ∈ m.space.symbols ↔
      g.codebase.contains id ∧ isWithin m.space.name (g.codebase.symbol id).space := by
  have hcode : m.space.codebase = g.codebase := h.module_codebase hm
  rw [Namespace.symbols, hcode]
  exact (h.coherent hc).mem_inNamespace

theorem find?_symbols (h : Built c o g) {ms : List Module} (hperm : ms.Perm g.modules) :
    (ms.reverse.find? fun m ↦ m.space.symbols.contains id) = some m ↔
      m ∈ g.modules ∧ m.contains id := by
  have hmem : ∀ n, n ∈ ms.reverse ↔ n ∈ g.modules := fun n ↦ by rw [List.mem_reverse, hperm.mem_iff]
  have hhas : ∀ n ∈ g.modules, n.space.symbols.contains id ↔ n.contains id := fun n hn ↦ by
    rw [List.contains_iff_mem, h.mem_symbols hc hn, h.contains_iff hn]
  rw [find?_eq_some_of_unique fun n hn n' hn' hid hid' ↦ ?_, hmem]
  · exact and_congr_right fun hm ↦ hhas m hm
  · rw [hmem] at hn hn'
    exact h.unique hn hn' ((hhas n hn).1 hid) ((hhas n' hn').1 hid')

theorem ownerTable_perm (h : Built c o g) {ms : List Module} (hperm : ms.Perm g.modules) :
    ownerTable g.codebase.arena.size ms = g.owners := by
  rw [h.owners]
  apply Array.ext_getElem?
  intro id
  have hfind : (ms.reverse.find? fun m ↦ m.space.symbols.contains id) =
      g.modules.reverse.find? fun m ↦ m.space.symbols.contains id :=
    Option.ext fun m ↦ (h.find?_symbols hc hperm).trans (h.find?_symbols hc (.refl _)).symm
  rw [getElem?_ownerTable, getElem?_ownerTable, hfind]

theorem owner?_eq_some_iff (h : Built c o g) :
    g.owner? id = some m ↔ m ∈ g.modules ∧ m.contains id := by
  rw [owner?, h.owners, getElem?_ownerTable]
  split
  · exact h.find?_symbols hc (.refl _)
  · rename_i hlt
    simp only [Option.join_none, reduceCtorEq, false_iff, not_and]
    intro hm hid
    exact hlt ((h.coherent hc).lt_size_of_contains ((h.contains_iff hm).1 hid).1)

theorem exists_root (h : Built c o g) (hid : g.codebase.contains id) :
    ∃ root ∈ trimmedRoots o.roots, isWithin root (g.codebase.symbol id).space := by
  rw [h.codebase, Codebase.contains_restrict hc] at hid
  simp only [Bool.and_eq_true] at hid
  rw [h.codebase, Codebase.symbol_restrict]
  simpa [Codebase.isUnder] using hid.1.2

theorem known_of_contains (h : Built c o g) {space : String} (hid : g.codebase.contains id)
    (hwithin : isWithin space (g.codebase.symbol id).space) : space ∈ g.codebase.known :=
  (h.coherent hc).mem_known.2 (.inl ⟨id, hid, hwithin⟩)

/-- With direct detection the members without owner are those of the roots themselves. -/
theorem owner?_eq_none_iff (h : Built c o g) (hdirect : o.detection = .directSubspaces)
    (hid : g.codebase.contains id) :
    g.owner? id = none ↔ (g.codebase.symbol id).space ∈ trimmedRoots o.roots := by
  obtain ⟨ks, hks, hmodules, hall⟩ := h.mem_modules
  rw [hdirect] at hks
  obtain ⟨root, hroot, hwithin⟩ := h.exists_root hc hid
  constructor
  · intro hnone
    by_cases hspace : root = (g.codebase.symbol id).space
    · exact hspace ▸ hroot
    · obtain ⟨space, hparent, hin⟩ := exists_child hwithin hspace
      have hk : ⟨root, space⟩ ∈ ks :=
        (mem_directCandidates hks).2 ⟨hroot, h.known_of_contains hc hid hin, hparent⟩
      obtain ⟨m, hm, hkm⟩ := hall _ hk
      have hcontains : m.contains id := (h.contains_iff hm).2 ⟨hid, by
        rw [Candidate.module_eq_ok hkm]
        exact hin⟩
      rw [(h.owner?_eq_some_iff hc).2 ⟨hm, hcontains⟩] at hnone
      nomatch hnone
  · intro hspace
    by_contra hsome
    obtain ⟨m, hm⟩ := Option.ne_none_iff_exists'.1 hsome
    obtain ⟨hmem, hcontains⟩ := (h.owner?_eq_some_iff hc).1 hm
    obtain ⟨k, hk, hkm⟩ := (hmodules m).1 hmem
    obtain ⟨hroot', -, hparent⟩ := (mem_directCandidates hks).1 hk
    have hin := ((h.contains_iff hmem).1 hcontains).2
    rw [Candidate.module_eq_ok hkm] at hin
    -- the root of `m` contains the namespace of the symbol, which is a root, too
    have hroots := Layout.eq_of_isWithin h.apart hroot' hspace
      (isWithin_trans (isWithin_of_parent hparent) hin)
    rw [← hroots] at hin
    exact not_isWithin_parent hparent hin

end Built

/-- Modules partition the members that they own. No module lies within another one; a module owns exactly
the members within its namespace, which are those that it says it contains; the order in which modules
enter their symbols does not matter; and with direct detection only the symbols of the roots themselves
are left over. -/
theorem owner_partition (hc : c.Reachable) (hbuild : build c o = .ok g) :
    (g.modules.Pairwise fun m n ↦
      ¬ isWithin m.space.name n.space.name ∧ ¬ isWithin n.space.name m.space.name) ∧
    (∀ m ∈ g.modules, ∀ id,
      (g.owner? id = some m ↔
        g.codebase.contains id ∧ isWithin m.space.name (g.codebase.symbol id).space) ∧
      (g.owner? id = some m ↔ m.contains id)) ∧
    (∀ id m, g.owner? id = some m → m ∈ g.modules) ∧
    (∀ m ∈ g.modules, ∀ n ∈ g.modules, ∀ id, m.contains id → n.contains id → m = n) ∧
    (∀ ms, ms.Perm g.modules → ownerTable g.codebase.arena.size ms = g.owners) ∧
    (o.detection = .directSubspaces → ∀ id, g.codebase.contains id →
      (g.owner? id = none ↔ (g.codebase.symbol id).space ∈ trimmedRoots o.roots)) := by
  have hco := hc.coherent
  have h := build_eq_ok.1 hbuild
  refine ⟨?_, fun m hm id ↦ ⟨?_, ?_⟩, ?_, ?_, ?_, ?_⟩
  · refine h.ascending.imp_of_mem fun {m n} hm hn hlt ↦ ⟨fun hw ↦ ?_, fun hw ↦ ?_⟩
    · exact StrictLinear.ne_of_lt hlt (congrArg Module.name (h.eq_of_isWithin hm hn hw))
    · exact StrictLinear.ne_of_lt hlt (congrArg Module.name (h.eq_of_isWithin hn hm hw).symm)
  · rw [h.owner?_eq_some_iff hco, h.contains_iff hm]
    exact and_iff_right hm
  · rw [h.owner?_eq_some_iff hco]
    exact and_iff_right hm
  · exact fun id m howner ↦ ((h.owner?_eq_some_iff hco).1 howner).1
  · exact fun m hm n hn id ↦ h.unique hm hn
  · exact fun ms ↦ h.ownerTable_perm hco
  · exact fun hdirect id hid ↦ h.owner?_eq_none_iff hco hdirect hid

theorem owner_partition_shop :
    ∃ g, Codebase.shop.Reachable ∧ build .shop { roots := ["shop"] } = .ok g ∧
      g.modules.map (·.name) = ["orders", "stock"] ∧
      ∀ m ∈ g.modules, ∀ id, g.owner? id = some m ↔ m.contains id := by
  have hnames : (build .shop { roots := ["shop"] }).toOption.map (·.modules.map (·.name)) =
      some ["orders", "stock"] := by decide +kernel
  obtain ⟨g, hg, hnames⟩ := Option.map_eq_some_iff.1 hnames
  have hbuild := ok_of_toOption hg
  obtain ⟨-, hpart, -⟩ := owner_partition Codebase.shop_reachable hbuild
  exact ⟨g, Codebase.shop_reachable, hbuild, hnames, fun m hm id ↦ (hpart m hm id).2⟩

end ModuleGraph

end Modularity
