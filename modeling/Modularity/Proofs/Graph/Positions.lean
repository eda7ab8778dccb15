import Modularity.Proofs.Graph.Cache
import Modularity.Proofs.Graph.Conditions

namespace Modularity

/-! ### The symbols of a codebase in another one -/

namespace Codebase

variable {c d : Codebase} {id : Symbol.Id}

def Whole (c : Codebase) : Prop := ∀ id < c.arena.size, c.contains id

theorem Whole.arena_toList (h : c.Whole) : c.arena.toList = c.members.map (·.1) := by
  have hmembers : c.members = c.arena.toList.zipIdx := by
    refine List.filter_eq_self.2 fun p hp ↦ h p.2 ?_
    simpa using List.snd_lt_of_mem_zipIdx hp
  rw [hmembers, List.zipIdx_map_fst]

theorem Coherent.eq_of_name (h : c.Coherent) {i j : Symbol.Id} (hi : i < c.arena.size)
    (hj : j < c.arena.size) (hname : (c.symbol i).name = (c.symbol j).name) : i = j := by
  have hnames : (c.arena.toList.map (·.name)).Nodup :=
    List.pairwise_map.2 (h.ascending.imp StrictLinear.ne_of_lt)
  have hget : ∀ {k} (hk : k < c.arena.size), (c.arena.toList.map (·.name))[k]? = some (c.symbol k).name :=
    fun hk ↦ by simp [symbol, Array.getD_eq_getD_getElem?, hk]
  exact (List.getElem?_inj (by simpa using hi) hnames).1 ((hget hi).trans (by rw [hname, hget hj]))

/-- A codebase with the same symbols, hidden or not, and the same members has them where they are. -/
theorem Coherent.find?_of_arena (hc : c.Coherent) (hd : d.Coherent) (harena : d.arena = c.arena)
    (hvisible : c.members.map (·.1) = d.members.map (·.1)) (hid : c.contains id) :
    d.find? (c.symbol id).name = some id := by
  have hmem : c.symbol id ∈ d.members.map (·.1) :=
    hvisible ▸ List.mem_map.2 ⟨(c.symbol id, id), hc.mem_members.2 ⟨hid, rfl⟩, rfl⟩
  obtain ⟨⟨s, i⟩, hp, hs⟩ := List.mem_map.1 hmem
  obtain ⟨hi, hsymbol⟩ := hd.mem_members.1 hp
  have hlt : i < c.arena.size := harena ▸ hd.lt_size_of_contains hi
  have hname : (c.symbol i).name = (c.symbol id).name := by
    rw [← hs, ← hsymbol, symbol, symbol, harena]
  obtain rfl := hc.eq_of_name hlt (hc.lt_size_of_contains hid) hname
  refine hd.find?_eq_some_iff.2 ⟨hi, ?_⟩
  rw [symbol, symbol, harena]

/-- A member stands somewhere in every relocation of the compact form. -/
theorem Coherent.exists_origin (hc : c.Coherent) {e : Symbol.Id → Symbol.Id}
    (hd : c.compacted.Relocates e d) (hid : c.contains id) :
    ∃ i, c.origin i = id ∧ d.find? (c.symbol id).name = some (e i) := by
  have hfind : c.find? (c.symbol id).name = some id := hc.find?_eq_some_iff.2 ⟨hid, rfl⟩
  rw [hc.compacted_relocates.find?] at hfind
  obtain ⟨i, hi, horigin⟩ := Option.map_eq_some_iff.1 hfind
  exact ⟨i, horigin, by rw [hd.find?, hi, Option.map_some]⟩

end Codebase

/-! ### Owners by name -/

namespace Layout

open Namespace

variable {c d : Codebase} {o p : GraphOptions} {e : Symbol.Id → Symbol.Id} {id : Symbol.Id}

/-- Which module owns a symbol, said of the candidates. -/
def Owns (c : Codebase) (o : GraphOptions) (name : String) (id : Symbol.Id) : Prop :=
  (scope c o).contains id ∧ ∃ k, IsCandidate c o k ∧ k.moduleName o.naming = name ∧
    isWithin k.space ((scope c o).symbol id).space

/-- What recognises stereotypes has no part in the conditions of a build. -/
theorem Condition.holds_stereotypes (k : Condition) (st : Stereotypes) :
    k.Holds c { o with stereotypes := st } ↔ k.Holds c o := by
  cases k <;> rfl

theorem scope_relocates (h : c.Relocates e d) (ho : o.Alike p) : (scope c o).Relocates e (scope d p) := by
  rw [scope, scope, ho.roots, ho.ignore]
  exact h.restrict _ _

theorem isCandidate_relocate (h : c.Relocates e d) (ho : o.Alike p) (k : Candidate) :
    IsCandidate d p k ↔ IsCandidate c o k := by
  have hscope := scope_relocates h ho
  simp only [IsCandidate, Declares, ho.roots, ho.detection, hscope.hasNamespace, hscope.descriptor?]

theorem owns_relocate (h : c.Relocates e d) (ho : o.Alike p) (name : String) :
    Owns d p name (e id) ↔ Owns c o name id := by
  have hscope := scope_relocates h ho
  simp only [Owns, isCandidate_relocate h ho, ho.naming, hscope.contains, hscope.symbol]

end Layout

namespace ModuleGraph

open Layout Namespace

variable {c d : Codebase} {o p : GraphOptions} {g fresh : ModuleGraph} {id i : Symbol.Id}

theorem Built.owner_name_eq_some_iff (hc : c.Coherent) (h : Built c o g) {name : String} :
    (g.owner? id).map (·.name) = some name ↔ Owns c o name id := by
  rw [Option.map_eq_some_iff, Owns, ← h.codebase_scope]
  constructor
  · intro hx
    obtain ⟨m, howner, rfl⟩ := hx
    obtain ⟨hm, hcontains⟩ := (h.owner?_eq_some_iff hc).1 howner
    obtain ⟨hid, hwithin⟩ := (h.contains_iff hm).1 hcontains
    obtain ⟨hk, hname⟩ := h.isCandidate hc hm
    exact ⟨hid, _, hk, hname.symm, hwithin⟩
  · intro hy
    obtain ⟨hid, k, hk, rfl, hwithin⟩ := hy
    obtain ⟨m, hm, -, hspace, hname⟩ := h.exists_module hc hk
    have hcontains := (h.contains_iff hm).2 ⟨hid, hspace ▸ hwithin⟩
    exact ⟨m, (h.owner?_eq_some_iff hc).2 ⟨hm, hcontains⟩, hname⟩

/-- A position of a graph is what a position of a codebase is in the graph that is built from it. -/
structure Resolves (c : Codebase) (fresh g : ModuleGraph) (id i : Symbol.Id) : Prop where
  contains : g.codebase.contains i = fresh.codebase.contains id
  name : fresh.codebase.contains id → (g.codebase.symbol i).name = (c.symbol id).name
  owner : (g.owner? i).map (·.name) = (fresh.owner? id).map (·.name)

theorem Resolves.marked (h : Resolves c fresh g id i) (b : Bool) :
    Resolves c fresh { g with isVerified := b } id i :=
  ⟨h.contains, h.name, h.owner⟩

theorem Resolves.find?_eq (h : Resolves c fresh g id i) (hd : d.Coherent)
    (hcodebase : g.codebase = scope d p) (hid : fresh.codebase.contains id) :
    d.find? (c.symbol id).name = some i := by
  have hcontains := h.contains
  have hname := h.name hid
  rw [hcodebase] at hcontains hname
  exact hd.find?_eq_some_iff.2 ⟨hd.contains_of_restrict (hcontains.trans hid), hname⟩

theorem exists_build_of_key (hc : c.Coherent) (hd : d.Coherent)
    (hbytes : Fingerprint.bytes c.content = Fingerprint.bytes d.content)
    (hkey : CacheKey.of c o = CacheKey.of d p) (hg : build d p = .ok g) : ∃ fresh, build c o = .ok fresh := by
  have halike : o.Alike { p with stereotypes := o.stereotypes } := alike_of_key hkey rfl
  -- the key does not determine the stereotypes, so the build of `p` is first repeated with those of `o`
  obtain ⟨g', hg'⟩ : ∃ g', build d { p with stereotypes := o.stereotypes } = .ok g' :=
    (build_ok_iff hd).2 fun k ↦ (k.holds_stereotypes _).2 ((build_eq_ok.1 hg).condition_holds hd k)
  have houtline := build_outline_of_bytes hc hd hbytes halike 0
  rw [hg'] at houtline
  cases hfresh : build c o with
  | error err =>
    rw [hfresh] at houtline
    nomatch houtline
  | ok fresh => exact ⟨fresh, rfl⟩

/-- Positions that relocations of one codebase give to a symbol are the same to the graphs. -/
theorem resolves_of_relocates {q : Codebase} {e e' : Symbol.Id → Symbol.Id} (hc : q.Relocates e c)
    (hd : q.Relocates e' d) (hkey : CacheKey.of c o = CacheKey.of d p) (hfresh : Built c o fresh)
    (hg : Built d p g) (i : Symbol.Id) : Resolves c fresh g (e i) (e' i) := by
  have halike : o.Alike { p with stereotypes := o.stereotypes } := alike_of_key hkey rfl
  have hscope : (scope q o).Relocates e (scope c o) := scope_relocates hc (.refl o)
  have hscope' : (scope q o).Relocates e' (scope d p) := (scope_relocates hd halike :)
  refine ⟨?_, fun _ ↦ ?_, Option.ext fun name ↦ ?_⟩
  · rw [hg.codebase_scope, hfresh.codebase_scope, hscope.contains, hscope'.contains]
  · rw [hg.codebase_scope, hscope'.symbol, hc.symbol]
    rfl
  · -- the modules may differ in their stereotypes; their names and what they own do not
    have howns : Owns d p name (e' i) ↔ Owns q o name i := (owns_relocate hd halike name :)
    rw [hg.owner_name_eq_some_iff hd.target, hfresh.owner_name_eq_some_iff hc.target, howns,
      owns_relocate hc (.refl o)]

end ModuleGraph

namespace GraphCache

open ModuleGraph

variable {c : Codebase} {o : GraphOptions} {n : Nat}

/-- The positions of a codebase in the graph that a request for it is answered with. That graph was built,
up to its mark, for a request with the same key since the cache was cleared. Unless two contents share the
fingerprint, the codebase of that request has every symbol of this one, and the graph tells of the position
there what a graph that is built now tells of the position here. The position here serves as well exactly
where the symbol has it there, too; it always does if the codebases have the same symbols, hidden or not,
and if neither of them hides any. -/
theorem cached_positions {before : List Call}
    (hreach : ∀ {d p}, .request d p ∈ before ++ [.request c o] → d.Reachable)
    (h : ((run before).request c o).1 = .ok n) :
    ∃ d p g, Recent (before ++ [.request c o]) (.request d p) ∧ CacheKey.of d p = .of c o ∧
      ((run before).request c o).2.graph? n = some g ∧
      (∃ built, build d p = .ok built ∧ g = { built with isVerified := g.isVerified }) ∧
      (Fingerprint.bytes d.content = Fingerprint.bytes c.content →
        ∃ fresh, build c o = .ok fresh ∧
          (∀ id, c.contains id → ∃ i, d.find? (c.symbol id).name = some i ∧ Resolves c fresh g id i) ∧
          (∀ id, fresh.codebase.contains id →
            (Resolves c fresh g id id ↔ d.find? (c.symbol id).name = some id)) ∧
          (d.arena = c.arena ∨ d.Whole ∧ c.Whole →
            ∀ id, c.contains id → Resolves c fresh g id id)) := by
  have hslot := slot?_request h
  rw [← run_request] at hslot
  obtain ⟨d, p, hrecent, hkey, built, b, hbuild, hgraph⟩ := (faithful_run _).slots hslot
  rw [run_request] at hgraph
  refine ⟨d, p, _, hrecent, hkey, hgraph, ⟨built, hbuild, rfl⟩, fun hbytes ↦ ?_⟩
  have hc := (hreach (List.mem_append_right _ (List.mem_singleton_self _))).coherent
  have hd := (hreach hrecent.mem).coherent
  -- both codebases are relocations of the compact form of `c`, from which either position comes
  have hrelocates := hc.compacted_relocates_of_bytes hd hbytes.symm
  obtain ⟨fresh, hfresh⟩ := exists_build_of_key hc hd hbytes.symm hkey.symm hbuild
  have hbuilt := build_eq_ok.1 hbuild
  have hthere : ∀ id, c.contains id → ∃ i, d.find? (c.symbol id).name = some i ∧
      Resolves c fresh { built with isVerified := b } id i := by
    intro id hid
    obtain ⟨i, rfl, hfind⟩ := hc.exists_origin hrelocates hid
    exact ⟨_, hfind, (resolves_of_relocates hc.compacted_relocates hrelocates hkey.symm
      (build_eq_ok.1 hfresh) hbuilt i).marked b⟩
  have hhere : ∀ id, c.contains id → d.find? (c.symbol id).name = some id →
      Resolves c fresh { built with isVerified := b } id id := by
    intro id hid hfind
    obtain ⟨i, hi, hresolves⟩ := hthere id hid
    obtain rfl : i = id := Option.some.inj (hi.symm.trans hfind)
    exact hresolves
  refine ⟨fresh, hfresh, hthere, fun id hid ↦ ⟨fun hresolves ↦ ?_, fun hfind ↦ ?_⟩, fun hshared id hid ↦ ?_⟩
  · exact hresolves.find?_eq hd hbuilt.codebase_scope hid
  · rw [(build_eq_ok.1 hfresh).codebase_scope] at hid
    exact hhere id (hc.contains_of_restrict hid) hfind
  · have hvisible := (Codebase.visible_eq_of_bytes hc hd hbytes.symm).1
    have harena : d.arena = c.arena := by
      rcases hshared with harena | ⟨hwhole, hwhole'⟩
      · exact harena
      · rw [← Array.toList_inj, hwhole.arena_toList, hwhole'.arena_toList, hvisible]
    exact hhere id hid (hc.find?_of_arena hd harena hvisible hid)

/-! ### Requests that share a graph -/

/-- The second of two requests with one key is answered by the graph of the first one. -/
theorem answer_of_key {d : Codebase} {p : GraphOptions} {g : ModuleGraph}
    (hkey : CacheKey.of d p = .of c o) (hbuild : build c o = .ok g) :
    ((run [.request c o]).request d p).1 = .ok 0 ∧
      (run ([.request c o] ++ [.request d p])).graph? 0 = some g := by
  have hfirst : run [.request c o] = { ({} : GraphCache).fill (.of c o) (some 0) with graphs := [g] } := by
    have hrequest : run [.request c o] = (({} : GraphCache).request c o).2 := rfl
    have hslot : ({} : GraphCache).slot? (.of c o) = none := rfl
    rw [hrequest, request, hslot, hbuild]
    rfl
  have hslot : (run [.request c o]).slot? (.of d p) = some 0 := by
    rw [hkey, hfirst]
    exact (slot?_fill {} _ _ _).trans (if_pos rfl)
  rw [run_request, request_of_slot? hslot, hfirst]
  exact ⟨rfl, rfl⟩

theorem annex_key :
    CacheKey.of .annex { roots := ["shop"] } = CacheKey.of .shop { roots := ["shop"] } := by
  rw [CacheKey.of, CacheKey.of, Codebase.fingerprint, Codebase.fingerprint, Codebase.annex_content]

/-- A request for the annex is answered by the graph of the shop, where its item has another position. -/
theorem cached_positions_annex :
    ((run [.request .shop { roots := ["shop"] }]).request .annex { roots := ["shop"] }).1 = .ok 0 ∧
    Codebase.annex.contains 3 ∧
    ∃ (d : Codebase) (g fresh : ModuleGraph) (i : Symbol.Id),
      (run ([.request .shop { roots := ["shop"] }] ++ [.request .annex { roots := ["shop"] }])).graph? 0 =
        some g ∧
      build .annex { roots := ["shop"] } = .ok fresh ∧
      d.find? (Codebase.annex.symbol 3).name = some i ∧ Resolves .annex fresh g 3 i := by
  have hbuilds : (build .shop { roots := ["shop"] }).toOption.isSome := by decide +kernel
  obtain ⟨first, hfirst⟩ := Option.isSome_iff_exists.1 hbuilds
  obtain ⟨hhit, -⟩ := answer_of_key annex_key (ok_of_toOption hfirst)
  have hrequests : ∀ {d p}, Call.request d p ∈ [.request .shop { roots := ["shop"] }] ++
      [.request .annex { roots := ["shop"] }] → d = .shop ∨ d = .annex := by
    intro d p hmem
    simp only [List.cons_append, List.nil_append, List.mem_cons, List.not_mem_nil, or_false,
      Call.request.injEq] at hmem
    exact hmem.imp And.left And.left
  have hreach : ∀ {d p}, Call.request d p ∈ [.request .shop { roots := ["shop"] }] ++
      [.request .annex { roots := ["shop"] }] → d.Reachable := by
    intro d p hmem
    rcases hrequests hmem with rfl | rfl
    · exact Codebase.shop_reachable
    · exact Codebase.annex_reachable
  obtain ⟨d, p, g, hrecent, -, hgraph, -, hsame⟩ := cached_positions hreach hhit
  rw [← run_request] at hgraph
  have hcontent : d.content = Codebase.annex.content := by
    rcases hrequests hrecent.mem with rfl | rfl
    · exact Codebase.annex_content.symm
    · rfl
  obtain ⟨fresh, hfresh, hthere, -⟩ := hsame (congrArg Fingerprint.bytes hcontent)
  have hitem : Codebase.annex.contains 3 := by decide +kernel
  obtain ⟨i, hi, hresolves⟩ := hthere 3 hitem
  exact ⟨hhit, hitem, d, g, fresh, i, hgraph, hfresh, hi, hresolves⟩

theorem twin_key :
    CacheKey.of .twin { roots := ["shop"] } = CacheKey.of .stall { roots := ["shop"] } := by
  rw [CacheKey.of, CacheKey.of, Codebase.twin_fingerprint]

/-- Positions are kept neither where codebases of one content number their symbols differently nor where
two contents have one fingerprint. The graph of the shop has nothing where the annex has its item; and the
graph of the stall has another symbol where its twin has its only one. -/
theorem positions_not_kept :
    (Codebase.shop.Reachable ∧ Codebase.annex.Reachable ∧
      ((run [.request .shop { roots := ["shop"] }]).request .annex { roots := ["shop"] }).1 = .ok 0 ∧
      ∃ g fresh, (run ([.request .shop { roots := ["shop"] }] ++
          [.request .annex { roots := ["shop"] }])).graph? 0 = some g ∧
        build .annex { roots := ["shop"] } = .ok fresh ∧
        Codebase.annex.contains 3 ∧ ¬ Resolves .annex fresh g 3 3) ∧
    Codebase.stall.Reachable ∧ Codebase.twin.Reachable ∧
      ((run [.request .stall { roots := ["shop"] }]).request .twin { roots := ["shop"] }).1 = .ok 0 ∧
      ∃ g fresh, (run ([.request .stall { roots := ["shop"] }] ++
          [.request .twin { roots := ["shop"] }])).graph? 0 = some g ∧
        build .twin { roots := ["shop"] } = .ok fresh ∧
        Codebase.twin.contains 0 ∧ ¬ Resolves .twin fresh g 0 0 := by
  refine ⟨⟨Codebase.shop_reachable, Codebase.annex_reachable, ?_⟩, Codebase.stall_reachable,
    Codebase.twin_reachable, ?_⟩
  · have hshop : (build .shop { roots := ["shop"] }).toOption.map (·.codebase.contains 3) =
        some false := by decide +kernel
    have hannex : (build .annex { roots := ["shop"] }).toOption.map (·.codebase.contains 3) =
        some true := by decide +kernel
    obtain ⟨g, hg, hmissing⟩ := Option.map_eq_some_iff.1 hshop
    obtain ⟨fresh, hfresh, hcontains⟩ := Option.map_eq_some_iff.1 hannex
    obtain ⟨hhit, hgraph⟩ := answer_of_key annex_key (ok_of_toOption hg)
    refine ⟨hhit, g, fresh, hgraph, ok_of_toOption hfresh, by decide +kernel, fun hresolves ↦ ?_⟩
    have hsame := hresolves.contains
    rw [hmissing, hcontains] at hsame
    nomatch hsame
  · have hstall : (build .stall { roots := ["shop"] }).toOption.map
        (fun g ↦ (g.codebase.symbol 0).name) = some (Codebase.stall.symbol 0).name := by decide +kernel
    have htwin : (build .twin { roots := ["shop"] }).toOption.map (·.codebase.contains 0) =
        some true := by decide +kernel
    obtain ⟨g, hg, hname⟩ := Option.map_eq_some_iff.1 hstall
    obtain ⟨fresh, hfresh, hcontains⟩ := Option.map_eq_some_iff.1 htwin
    obtain ⟨hhit, hgraph⟩ := answer_of_key twin_key (ok_of_toOption hg)
    refine ⟨hhit, g, fresh, hgraph, ok_of_toOption hfresh, by decide +kernel, fun hresolves ↦ ?_⟩
    have hsame := hresolves.name hcontains
    rw [hname] at hsame
    exact absurd hsame (by decide +kernel)

end GraphCache

end Modularity
