import Modularity.Proofs.Codebase.Rebuild
import Modularity.Proofs.Graph.Build

namespace Modularity

namespace Layout

open Namespace

/-! ### What a build asks for -/

def scope (c : Codebase) (o : GraphOptions) : Codebase := c.restrict (trimmedRoots o.roots) o.ignore

def shownName (c : Codebase) (space : String) : String :=
  match (((c.descriptor? space).bind (·.module)).getD {}).displayName with
  | some explicit => Text.trim explicit
  | none => localName space

/-- Which namespaces are to be modules: the known ones directly below a root, or the declared ones. -/
def IsCandidate (c : Codebase) (o : GraphOptions) (k : Candidate) : Prop :=
  k.root ∈ trimmedRoots o.roots ∧
    match o.detection with
    | .directSubspaces => (scope c o).hasNamespace k.space ∧ parent? k.space = some k.root
    | .declaredSpaces => Declares (scope c o) k.space ∧ isWithin k.root k.space

inductive Condition where
  /-- There is a root. -/
  | rooted
  /-- The roots are namespaces of the codebase. -/
  | known
  /-- No root lies within another one. -/
  | apart
  /-- The declared modules are where modules are looked for. -/
  | placed
  /-- Every module can be shown under a name. -/
  | titled
  /-- No two modules share a name. -/
  | distinct
  /-- The shared modules are modules. -/
  | shared
deriving DecidableEq

namespace Condition

def rank : Condition → Nat
  | rooted => 0
  | known => 1
  | apart => 2
  | placed => 3
  | titled => 4
  | distinct => 5
  | shared => 6

def Holds (c : Codebase) (o : GraphOptions) : Condition → Prop
  | rooted => trimmedRoots o.roots ≠ []
  | known => ∀ root ∈ trimmedRoots o.roots, root ≠ "" → c.hasNamespace root
  | apart => ∀ outer ∈ trimmedRoots o.roots, ∀ inner ∈ trimmedRoots o.roots,
      isWithin outer inner → outer = inner
  | placed =>
    match o.detection with
    | .directSubspaces => ∀ space, Declares (scope c o) space →
        ∃ root ∈ trimmedRoots o.roots, parent? space = some root
    | .declaredSpaces => ∀ outer inner, Declares (scope c o) outer → Declares (scope c o) inner →
        isWithin outer inner → inner = outer
  | titled => ∀ k, IsCandidate c o k → shownName (scope c o) k.space ≠ ""
  | distinct => ∀ k l, IsCandidate c o k → IsCandidate c o l →
      k.moduleName o.naming = l.moduleName o.naming → k = l
  | shared => ∀ name ∈ o.shared, ∃ k, IsCandidate c o k ∧ k.moduleName o.naming = name

theorem eq_of_rank {k l : Condition} (h : k.rank = l.rank) : k = l := by
  cases k <;> cases l <;> first | rfl | nomatch h

/-- What an error tells of the condition that fails. -/
inductive Fault (c : Codebase) (o : GraphOptions) : Condition → LayoutError → Prop
  | noRoots : trimmedRoots o.roots = [] → Fault c o rooted .noRoots
  | unknownRoot {root : String} : root ∈ trimmedRoots o.roots → root ≠ "" → ¬ c.hasNamespace root →
      Fault c o known (.unknownRoot root)
  | overlappingRoots {outer inner : String} : outer ∈ trimmedRoots o.roots →
      inner ∈ trimmedRoots o.roots → outer ≠ inner → isWithin outer inner →
      Fault c o apart (.overlappingRoots outer inner)
  | conflictingDetection {space : String} : o.detection = .directSubspaces →
      Declares (scope c o) space → (∀ root ∈ trimmedRoots o.roots, parent? space ≠ some root) →
      Fault c o placed (.conflictingDetection space)
  | nestedModules {outer inner : String} : o.detection = .declaredSpaces →
      Declares (scope c o) outer → Declares (scope c o) inner → inner ≠ outer →
      isWithin outer inner → Fault c o placed (.nestedModules outer inner)
  | blankDisplayName {k : Candidate} : IsCandidate c o k → shownName (scope c o) k.space = "" →
      Fault c o titled (.blankDisplayName k.space)
  | duplicateModule {k l : Candidate} : IsCandidate c o k → IsCandidate c o l → k.space ≠ l.space →
      k.moduleName o.naming = l.moduleName o.naming →
      Fault c o distinct (.duplicateModule (k.moduleName o.naming) k.space l.space)
  | unknownSharedModule {name : String} : name ∈ o.shared →
      (∀ k, IsCandidate c o k → k.moduleName o.naming ≠ name) →
      Fault c o shared (.unknownSharedModule name)

variable {c : Codebase} {o : GraphOptions} {k l : Condition} {err : LayoutError}

theorem Fault.not_holds (h : Fault c o k err) : ¬ k.Holds c o := by
  intro hk
  cases h with
  | noRoots hnil => exact hk hnil
  | unknownRoot hroot hne hunknown => exact hunknown (hk _ hroot hne)
  | overlappingRoots houter hinner hne hwithin => exact hne (hk _ houter _ hinner hwithin)
  | conflictingDetection hdirect hspace hnone =>
    simp only [Holds, hdirect] at hk
    obtain ⟨root, hroot, hparent⟩ := hk _ hspace
    exact hnone root hroot hparent
  | nestedModules hdeclared houter hinner hne hwithin =>
    simp only [Holds, hdeclared] at hk
    exact hne (hk _ _ houter hinner hwithin)
  | blankDisplayName hcandidate hblank => exact hk _ hcandidate hblank
  | duplicateModule hk' hl hne hname => exact hne (congrArg Candidate.space (hk _ _ hk' hl hname))
  | unknownSharedModule hname hnone =>
    obtain ⟨k, hcandidate, heq⟩ := hk _ hname
    exact hnone k hcandidate heq

def of? : LayoutError → Option Condition
  | .noRoots => some rooted
  | .unknownRoot _ => some known
  | .overlappingRoots .. => some apart
  | .conflictingDetection _ => some placed
  | .nestedModules .. => some placed
  | .blankDisplayName _ => some titled
  | .duplicateModule .. => some distinct
  | .unknownSharedModule _ => some shared
  | .input _ => none

theorem Fault.of?_eq (h : Fault c o k err) : of? err = some k := by
  cases h <;> rfl

end Condition

variable {c : Codebase} {o : GraphOptions}

/-! ### Roots -/

theorem trimmedRoots_ascending (stated : List String) : (trimmedRoots stated).Pairwise (· < ·) :=
  (OrderedSet.ofList _).ascending

/-- The first of two roots that overlap contains the other one: it stands before it. -/
theorem isWithin_of_overlap? {roots : List String} (hasc : roots.Pairwise (· < ·)) {outer inner : String}
    (h : overlap? roots = some (outer, inner)) :
    outer ∈ roots ∧ inner ∈ roots ∧ outer ≠ inner ∧ isWithin outer inner := by
  induction roots with
  | nil => nomatch h
  | cons first rest ih =>
    rw [List.pairwise_cons] at hasc
    rw [overlap?] at h
    split at h
    · rename_i found hfind
      obtain ⟨rfl, rfl⟩ := Prod.mk.inj (Option.some.inj h)
      have hmem := List.mem_of_find?_eq_some hfind
      have hlt := hasc.1 _ hmem
      have hover := List.find?_some hfind
      rw [Bool.or_eq_true] at hover
      refine ⟨List.mem_cons_self .., List.mem_cons_of_mem _ hmem, StrictLinear.ne_of_lt hlt, ?_⟩
      rcases hover with hwithin | hwithin
      · exact hwithin
      · -- the roots ascend, and nothing that is longer stands before what it starts with
        exact absurd hlt (not_lt_of_startsWith (startsWith_of_isWithin hwithin))
    · obtain ⟨houter, hinner, hover⟩ := ih hasc.2 h
      exact ⟨List.mem_cons_of_mem _ houter, List.mem_cons_of_mem _ hinner, hover⟩

def HoldsBefore (c : Codebase) (o : GraphOptions) (n : Nat) : Prop :=
  ∀ j : Condition, j.rank < n → j.Holds c o

theorem HoldsBefore.next {k : Condition} (h : HoldsBefore c o k.rank) (hk : k.Holds c o) :
    HoldsBefore c o (k.rank + 1) := by
  intro j hj
  rcases Nat.lt_succ_iff_lt_or_eq.1 hj with hlt | heq
  · exact h j hlt
  · exact Condition.eq_of_rank heq ▸ hk

theorem holdsBefore_rooted : HoldsBefore c o Condition.rooted.rank := fun _ hj ↦ nomatch hj

def Refused (c : Codebase) (o : GraphOptions) (err : LayoutError) : Prop :=
  ∃ k, Condition.Fault c o k err ∧ HoldsBefore c o k.rank

theorem holds_of_checkedRoots {roots : List String} (h : checkedRoots c o.roots = .ok roots) :
    roots = trimmedRoots o.roots ∧ HoldsBefore c o Condition.placed.rank := by
  obtain ⟨rfl, hne, hknown, hpair⟩ := checkedRoots_eq_ok.1 h
  have hrooted : HoldsBefore c o Condition.known.rank := holdsBefore_rooted.next hne
  have hknown : HoldsBefore c o Condition.apart.rank := hrooted.next hknown
  exact ⟨rfl, hknown.next fun outer houter inner hinner ↦ eq_of_isWithin hpair houter hinner⟩

theorem refused_of_checkedRoots {err : LayoutError} (h : checkedRoots c o.roots = .error err) :
    Refused c o err := by
  unfold checkedRoots at h
  dsimp only at h
  split at h
  · rename_i hempty
    obtain rfl := Except.error.inj h
    exact ⟨_, .noRoots (List.isEmpty_iff.1 hempty), holdsBefore_rooted⟩
  · rename_i hne
    rw [List.isEmpty_iff] at hne
    have hrooted : HoldsBefore c o Condition.known.rank := holdsBefore_rooted.next hne
    split at h
    · rename_i root hfind
      obtain rfl := Except.error.inj h
      have hroot := List.find?_some hfind
      rw [Bool.and_eq_true, decide_eq_true_eq, Bool.not_eq_true'] at hroot
      exact ⟨_, .unknownRoot (List.mem_of_find?_eq_some hfind) hroot.1 (by simp [hroot.2]), hrooted⟩
    · rename_i outer inner hfind hover
      obtain rfl := Except.error.inj h
      obtain ⟨houter, hinner, hdiffer, hwithin⟩ :=
        isWithin_of_overlap? (trimmedRoots_ascending _) hover
      refine ⟨_, .overlappingRoots houter hinner hdiffer hwithin, hrooted.next fun root hroot hroot' ↦ ?_⟩
      simpa [hroot'] using List.find?_eq_none.1 hfind root hroot
    · nomatch h

/-! ### Candidates -/

theorem coherent_scope (hc : c.Coherent) : (scope c o).Coherent := hc.restrict _ _

theorem declaredSpaces_nodup (hc : c.Coherent) : (declaredSpaces c).Nodup := by
  have hnames : (c.descriptors.values.map (·.name)).Nodup := by
    rw [hc.names_descriptors]
    exact c.descriptors.keys_nodup
  exact hnames.sublist (List.filter_sublist.map _)

variable {ks : List Candidate}

theorem isCandidate_iff_of_direct (hdirect : o.detection = .directSubspaces) {k : Candidate} :
    IsCandidate c o k ↔ k.root ∈ trimmedRoots o.roots ∧ k.space ∈ (scope c o).known ∧
      parent? k.space = some k.root := by
  simp only [IsCandidate, hdirect, Codebase.hasNamespace, OrderedSet.contains, decide_eq_true_eq]

theorem isCandidate_iff_of_declared (hdeclared : o.detection = .declaredSpaces) {k : Candidate} :
    IsCandidate c o k ↔ k.root ∈ trimmedRoots o.roots ∧ Declares (scope c o) k.space ∧
      isWithin k.root k.space := by
  simp only [IsCandidate, hdeclared]

theorem root_unique (hapart : Condition.apart.Holds c o) {r r' space : String}
    (hr : r ∈ trimmedRoots o.roots) (hr' : r' ∈ trimmedRoots o.roots) (hin : isWithin r space)
    (hin' : isWithin r' space) : r = r' := by
  rcases isWithin_or_of_common hin hin' with hwithin | hwithin
  · exact hapart r hr r' hr' hwithin
  · exact (hapart r' hr' r hr hwithin).symm

theorem mem_candidates (hc : c.Coherent) (hapart : Condition.apart.Holds c o)
    (h : candidates o.detection (scope c o) (trimmedRoots o.roots) = .ok ks) {k : Candidate} :
    k ∈ ks ↔ IsCandidate c o k := by
  cases hd : o.detection with
  | directSubspaces =>
    rw [hd] at h
    rw [mem_directCandidates h, isCandidate_iff_of_direct hd]
  | declaredSpaces =>
    rw [hd] at h
    rw [mem_declaredCandidates h, isCandidate_iff_of_declared hd, mem_declaredSpaces (coherent_scope hc),
      find?_eq_some_of_unique fun r hr r' hr' ↦ root_unique hapart hr hr']
    exact and_left_comm

theorem placed_of_candidates (hc : c.Coherent)
    (h : candidates o.detection (scope c o) (trimmedRoots o.roots) = .ok ks) :
    Condition.placed.Holds c o := by
  cases hd : o.detection with
  | directSubspaces =>
    rw [hd] at h
    simp only [Condition.Holds, hd]
    intro space hspace
    obtain ⟨k, hk, rfl⟩ := (directCandidates_eq_ok.1 h).2 space
      ((mem_declaredSpaces (coherent_scope hc)).2 hspace)
    obtain ⟨hroot, -, hparent⟩ := (mem_directCandidates h).1 hk
    exact ⟨k.root, hroot, hparent⟩
  | declaredSpaces =>
    rw [hd] at h
    simp only [Condition.Holds, hd]
    intro outer inner houter hinner
    rw [← mem_declaredSpaces (coherent_scope hc)] at houter hinner
    exact (declaredCandidates_eq_ok.1 h).2 outer houter inner hinner

theorem known_of_declares (hc : c.Coherent) {space : String} (h : Declares c space) :
    space ∈ c.known := by
  obtain ⟨d, hget, -⟩ := h
  exact hc.mem_known.2 (.inr ⟨space, OrderedMap.mem_keys.2 ⟨d, hget⟩, isWithin_refl space⟩)

theorem fault_of_candidates (hc : c.Coherent) {err : LayoutError}
    (h : candidates o.detection (scope c o) (trimmedRoots o.roots) = .error err) :
    Condition.Fault c o .placed err := by
  cases hd : o.detection with
  | directSubspaces =>
    rw [hd] at h
    obtain ⟨space, hdeclared, hnone, rfl⟩ := directCandidates_eq_error h
    have hspace := (mem_declaredSpaces (coherent_scope hc)).1 hdeclared
    refine .conflictingDetection hd hspace fun root hroot hparent ↦ ?_
    exact hnone ⟨root, space⟩
      (mem_belowRoots.2 ⟨hroot, known_of_declares (coherent_scope hc) hspace, hparent⟩) rfl
  | declaredSpaces =>
    rw [hd] at h
    obtain ⟨outer, houter, inner, hinner, hne, hwithin, rfl⟩ := declaredCandidates_eq_error h
    rw [mem_declaredSpaces (coherent_scope hc)] at houter hinner
    exact .nestedModules hd houter hinner hne hwithin

/-- The roots are distinct, and a namespace lies directly below one namespace only. -/
theorem belowRoots_nodup (c : Codebase) (stated : List String) :
    ((belowRoots c (trimmedRoots stated)).map (·.space)).Nodup := by
  have hspaces : (belowRoots c (trimmedRoots stated)).map (·.space) =
      (trimmedRoots stated).flatMap c.directSubspaces := by
    simp [belowRoots, List.map_flatMap, Function.comp_def]
  rw [hspaces]
  refine List.nodup_flatMap.2 ⟨fun root _ ↦ ?_, ?_⟩
  · exact (c.known.ascending.imp StrictLinear.ne_of_lt).filter _
  · refine (trimmedRoots_ascending stated).imp fun {r r'} hlt space hr hr' ↦ ?_
    have hparent := (Codebase.mem_directSubspaces.1 hr).2
    rw [(Codebase.mem_directSubspaces.1 hr').2, Option.some.injEq] at hparent
    exact StrictLinear.ne_of_lt hlt hparent.symm

theorem candidates_nodup (hc : c.Coherent)
    (h : candidates o.detection (scope c o) (trimmedRoots o.roots) = .ok ks) :
    (ks.map (·.space)).Nodup := by
  cases hd : o.detection with
  | directSubspaces =>
    rw [hd] at h
    rw [(directCandidates_eq_ok.1 h).1]
    exact belowRoots_nodup _ _
  | declaredSpaces =>
    rw [hd] at h
    obtain ⟨hks, -⟩ := declaredCandidates_eq_ok.1 h
    refine List.Nodup.map_on (fun k hk l hl hspace ↦ ?_) (hks ▸
      (declaredSpaces_nodup (coherent_scope hc)).filterMap fun space space' k hk hk' ↦ ?_)
    · have hroots := ((mem_declaredCandidates h).1 hk).2
      rw [hspace, ((mem_declaredCandidates h).1 hl).2, Option.some.injEq] at hroots
      cases k
      cases l
      simp_all
    · obtain ⟨root, -, rfl⟩ := Option.map_eq_some_iff.1 hk
      obtain ⟨root', -, heq⟩ := Option.map_eq_some_iff.1 hk'
      exact (congrArg Candidate.space heq).symm

/-! ### Modules -/

theorem Candidate.module_eq (k : Candidate) (c : Codebase) (o : GraphOptions) :
    k.module c o = if shownName c k.space = "" then .error (.blankDisplayName k.space)
      else .ok { name := k.moduleName o.naming, displayName := shownName c k.space, root := k.root,
                 space := ⟨c, k.space⟩, declaration := ((c.descriptor? k.space).bind (·.module)).getD {},
                 stereotypes := o.stereotypes, platform := o.platform } := rfl

variable {ms : List Module}

theorem titled_of_mapM (hmem : ∀ k, k ∈ ks ↔ IsCandidate c o k)
    (h : ks.mapM (·.module (scope c o) o) = .ok ms) : Condition.titled.Holds c o := by
  intro k hk hblank
  obtain ⟨m, -, hm⟩ := exists_of_mapM_ok h ((hmem k).2 hk)
  rw [k.module_eq, if_pos hblank] at hm
  nomatch hm

theorem fault_of_gather (hmem : ∀ k, k ∈ ks ↔ IsCandidate c o k) {err : LayoutError} {pick : Nat}
    (h : ModuleGraph.gather (·.module (scope c o) o) ks pick = .error err) :
    Condition.Fault c o .titled err := by
  obtain ⟨k, hk, hm⟩ := ModuleGraph.exists_gather_eq_error.1 ⟨pick, h⟩
  rw [k.module_eq] at hm
  split at hm
  · rename_i hblank
    obtain rfl := Except.error.inj hm
    exact .blankDisplayName ((hmem k).1 hk) hblank
  · nomatch hm

theorem sublist_of_repeatedModule? {m n : Module} (h : repeatedModule? ms = some (m, n)) :
    m.name = n.name ∧ [m, n].Sublist ms := by
  induction ms with
  | nil => nomatch h
  | cons first rest ih =>
    cases rest with
    | nil => nomatch h
    | cons second rest =>
      rw [repeatedModule?] at h
      split at h
      · rename_i hname
        obtain ⟨rfl, rfl⟩ := Prod.mk.inj (Option.some.inj h)
        exact ⟨hname, .cons_cons _ (.cons_cons _ (List.nil_sublist _))⟩
      · obtain ⟨hname, hsub⟩ := ih h
        exact ⟨hname, hsub.cons _⟩

theorem candidate_of_module {k : Candidate} {m : Module} (h : k.module c o = .ok m) :
    k = ⟨m.root, m.space.name⟩ ∧ m.name = k.moduleName o.naming := by
  rw [Candidate.module_eq_ok h]
  exact ⟨rfl, rfl⟩

theorem fault_of_repeatedModule? (hmem : ∀ k, k ∈ ks ↔ IsCandidate c o k)
    (hnodup : (ks.map (·.space)).Nodup) (h : ks.mapM (·.module (scope c o) o) = .ok ms) {m n : Module}
    (hrep : repeatedModule? (sortBy (·.name) ms) = some (m, n)) :
    Condition.Fault c o .distinct (.duplicateModule m.name m.space.name n.space.name) := by
  obtain ⟨hname, hsub⟩ := sublist_of_repeatedModule? hrep
  have hperm := sortBy_perm (·.name) ms
  have hspaces : ((sortBy (·.name) ms).map (·.space.name)).Nodup := by
    have hkeys : ms.map (·.space.name) = ks.map (·.space) :=
      map_of_mapM_ok (fun hm ↦ congrArg Candidate.space (candidate_of_module hm).1.symm) h
    rw [(hperm.map _).nodup_iff, hkeys]
    exact hnodup
  have hdiffer : m.space.name ≠ n.space.name := by
    have hpair := (List.pairwise_map.1 hspaces).sublist hsub
    simpa using hpair
  have hfrom : ∀ x ∈ [m, n], ∃ k, IsCandidate c o k ∧ k.module (scope c o) o = .ok x := by
    intro x hx
    obtain ⟨k, hk, hkx⟩ := (mem_of_mapM_ok h).1 (hperm.mem_iff.1 (hsub.subset hx))
    exact ⟨k, (hmem k).1 hk, hkx⟩
  obtain ⟨k, hk, hkm⟩ := hfrom m (by simp)
  obtain ⟨l, hl, hln⟩ := hfrom n (by simp)
  obtain ⟨rfl, hkname⟩ := candidate_of_module hkm
  obtain ⟨rfl, hlname⟩ := candidate_of_module hln
  rw [hkname]
  exact .duplicateModule hk hl hdiffer (hkname.symm.trans (hname.trans hlname))

end Layout

namespace ModuleGraph

open Layout Namespace

variable {c : Codebase} {o : GraphOptions} {g : ModuleGraph} {m : Module} {k : Candidate} {pick : Nat}

namespace Built

theorem codebase_scope (h : Built c o g) : g.codebase = scope c o := h.codebase

theorem apart_holds (h : Built c o g) : Condition.apart.Holds c o :=
  (holds_of_checkedRoots h.roots).2 .apart (by decide)

variable (hc : c.Coherent)

include hc

theorem mem_modules_iff (h : Built c o g) :
    m ∈ g.modules ↔ ∃ k, IsCandidate c o k ∧ k.module (scope c o) o = .ok m := by
  obtain ⟨ks, hks, hmem, -⟩ := h.mem_modules
  rw [h.codebase_scope] at hks hmem
  simp only [hmem, mem_candidates hc h.apart_holds hks]

theorem exists_module (h : Built c o g) (hk : IsCandidate c o k) :
    ∃ m ∈ g.modules, m.root = k.root ∧ m.space.name = k.space ∧ m.name = k.moduleName o.naming := by
  obtain ⟨ks, hks, -, hall⟩ := h.mem_modules
  rw [h.codebase_scope] at hks hall
  obtain ⟨m, hm, hkm⟩ := hall k ((mem_candidates hc h.apart_holds hks).2 hk)
  obtain ⟨rfl, hname⟩ := candidate_of_module hkm
  exact ⟨m, hm, rfl, rfl, hname⟩

theorem isCandidate (h : Built c o g) (hm : m ∈ g.modules) :
    IsCandidate c o ⟨m.root, m.space.name⟩ ∧
      m.name = Candidate.moduleName ⟨m.root, m.space.name⟩ o.naming := by
  obtain ⟨k, hk, hkm⟩ := (h.mem_modules_iff hc).1 hm
  obtain ⟨rfl, hname⟩ := candidate_of_module hkm
  exact ⟨hk, hname⟩

theorem condition_holds (h : Built c o g) (k : Condition) : k.Holds c o := by
  have hroots := (holds_of_checkedRoots h.roots).2
  obtain ⟨ks, ms, hks, hms, hsorted⟩ := h.laidOut
  rw [h.codebase_scope] at hks hms
  have hmem := fun k ↦ mem_candidates (k := k) hc h.apart_holds hks
  cases k with
  | rooted => exact hroots .rooted (by decide)
  | known => exact hroots .known (by decide)
  | apart => exact h.apart_holds
  | placed => exact placed_of_candidates hc hks
  | titled => exact titled_of_mapM hmem hms
  | distinct =>
    -- the names of modules ascend, so candidates of one name have one module
    intro k l hk hl hname
    obtain ⟨m, hm, hmroot, hmspace, hmname⟩ := h.exists_module hc hk
    obtain ⟨n, hn, hnroot, hnspace, hnname⟩ := h.exists_module hc hl
    have hmn := h.eq_of_name hm hn (hmname.trans (hname.trans hnname.symm))
    cases k
    cases l
    simp_all
  | shared =>
    intro name hname
    obtain ⟨m, -, hfound⟩ := exists_of_mapM_ok h.shared hname
    split at hfound
    · rename_i m' hfind
      have hm := List.mem_of_find?_eq_some hfind
      have hmname : m'.name = name := by simpa using List.find?_some hfind
      obtain ⟨hk, hkname⟩ := h.isCandidate hc hm
      exact ⟨_, hk, hkname.symm.trans hmname⟩
    · cases hfound

end Built

theorem refused_of_build (hc : c.Coherent) {err : LayoutError} (h : build c o pick = .error err) :
    Refused c o err := by
  simp only [build, bind_error_iff] at h
  rcases h with h | ⟨roots, hroots, h⟩
  · exact refused_of_checkedRoots h
  · obtain ⟨rfl, hbefore⟩ := holds_of_checkedRoots hroots
    have hapart : Condition.apart.Holds c o := hbefore .apart (by decide)
    rcases h with h | ⟨modules, hmodules, h⟩
    · simp only [modulesOf, bind_error_iff] at h
      rcases h with h | ⟨ks, hks, h⟩
      · exact ⟨_, fault_of_candidates hc h, hbefore⟩
      · have hmem := fun k ↦ mem_candidates (k := k) hc hapart hks
        have hplaced : HoldsBefore c o Condition.titled.rank :=
          hbefore.next (placed_of_candidates hc hks)
        rcases h with h | ⟨ms, hms, h⟩
        · exact ⟨_, fault_of_gather hmem h, hplaced⟩
        · split at h
          · rename_i m n hrep
            obtain rfl := Except.error.inj h
            rw [gather_eq_ok] at hms
            exact ⟨_, fault_of_repeatedModule? hmem (candidates_nodup hc hks) hms hrep,
              hplaced.next (titled_of_mapM hmem hms)⟩
          · cases h
    · obtain ⟨ks, ms, hks, hms, hsorted, hasc⟩ := modulesOf_eq_ok.1 hmodules
      -- without shared modules the build succeeds, which gives all conditions but the last one
      have hbuilt : Built c { o with shared := [] }
          { codebase := scope c o, options := { o with shared := [] }, modules, shared := []
            owners := ownerTable (scope c o).arena.size modules } :=
        ⟨hroots, rfl, rfl, ⟨ks, ms, hks, hms, hsorted⟩, hasc, rfl, rfl, rfl⟩
      have hdistinct : Condition.distinct.Holds c o := hbuilt.condition_holds hc .distinct
      have htitled : Condition.titled.Holds c o := hbuilt.condition_holds hc .titled
      have hplaced : HoldsBefore c o Condition.titled.rank := hbefore.next (hbuilt.condition_holds hc .placed)
      have hall : HoldsBefore c o Condition.distinct.rank := hplaced.next htitled
      rcases h with h | ⟨shared, -, h⟩
      · obtain ⟨name, hname, hnone⟩ := exists_of_mapM_error h
        split at hnone
        · cases hnone
        · rename_i hfind
          obtain rfl := Except.error.inj hnone
          refine ⟨_, .unknownSharedModule hname fun k hk hkname ↦ ?_, hall.next hdistinct⟩
          obtain ⟨m, hm, -, -, hmname⟩ := hbuilt.exists_module hc hk
          exact List.find?_eq_none.1 hfind m hm (by simpa using hmname.trans hkname)
      · cases h

theorem build_ok_iff (hc : c.Coherent) :
    (∃ g, build c o pick = .ok g) ↔ ∀ k : Condition, k.Holds c o := by
  constructor
  · intro hx
    obtain ⟨g, hg⟩ := hx
    exact (build_eq_ok.1 hg).condition_holds hc
  · intro hall
    cases h : build c o pick with
    | ok g => exact ⟨g, rfl⟩
    | error err =>
      obtain ⟨k, hfault, -⟩ := refused_of_build hc h
      exact absurd (hall k) hfault.not_holds

/-- The first condition that fails is the one of which the error tells. -/
theorem build_error_iff (hc : c.Coherent) (k : Condition) :
    (¬ k.Holds c o ∧ HoldsBefore c o k.rank) ↔
      ∃ err, build c o pick = .error err ∧ Condition.Fault c o k err := by
  constructor
  · intro hx
    obtain ⟨hk, hbefore⟩ := hx
    cases h : build c o pick with
    | ok g => exact absurd ((build_eq_ok.1 h).condition_holds hc k) hk
    | error err =>
      obtain ⟨l, hfault, hbefore'⟩ := refused_of_build hc h
      have hle : l.rank ≤ k.rank := Nat.le_of_not_lt fun hlt ↦ hk (hbefore' k hlt)
      have hge : k.rank ≤ l.rank := Nat.le_of_not_lt fun hlt ↦ hfault.not_holds (hbefore l hlt)
      exact ⟨err, rfl, Condition.eq_of_rank (Nat.le_antisymm hle hge) ▸ hfault⟩
  · intro hy
    obtain ⟨err, h, hfault⟩ := hy
    obtain ⟨l, hfault', hbefore⟩ := refused_of_build hc h
    obtain rfl : k = l := Option.some.inj (hfault.of?_eq.symm.trans hfault'.of?_eq)
    exact ⟨hfault.not_holds, hbefore⟩

theorem exists_candidate_of_declares (hall : ∀ k : Condition, k.Holds c o) (hc : c.Coherent)
    {space : String} (hspace : Declares (scope c o) space)
    (hroot : ∃ root ∈ trimmedRoots o.roots, isWithin root space) :
    ∃ k, IsCandidate c o k ∧ k.space = space := by
  have hplaced := hall .placed
  cases hd : o.detection with
  | directSubspaces =>
    simp only [Condition.Holds, hd] at hplaced
    obtain ⟨root, hmem, hparent⟩ := hplaced space hspace
    have hknown := known_of_declares (coherent_scope hc) hspace
    exact ⟨⟨root, space⟩, (isCandidate_iff_of_direct hd).2 ⟨hmem, hknown, hparent⟩, rfl⟩
  | declaredSpaces =>
    obtain ⟨root, hmem, hwithin⟩ := hroot
    exact ⟨⟨root, space⟩, (isCandidate_iff_of_declared hd).2 ⟨hmem, hspace, hwithin⟩, rfl⟩

/-- A build looks at the descriptors of the namespaces within the roots. -/
theorem descriptor?_scope {space : String} (hroot : ∃ root ∈ trimmedRoots o.roots, isWithin root space) :
    (scope c o).descriptor? space = c.descriptor? space := by
  have hunder : Codebase.isUnder (trimmedRoots o.roots) space := List.any_eq_true.2 hroot
  have hfilter : (scope c o).descriptor? space =
      (c.descriptor? space).filter fun _ ↦ Codebase.isUnder (trimmedRoots o.roots) space :=
    OrderedMap.get?_filter ..
  rw [hfilter]
  cases c.descriptor? space with
  | none => rfl
  | some d => exact Option.filter_some_pos hunder

theorem Built.exists_module_of_declares (h : Built c o g) (hc : c.Coherent) {space : String}
    (hspace : Declares c space) (hroot : ∃ root ∈ trimmedRoots o.roots, isWithin root space) :
    ∃ m ∈ g.modules, m.space.name = space ∧
      (c.descriptor? space).bind (·.module) = some m.declaration := by
  have hdescriptor := descriptor?_scope (c := c) (o := o) hroot
  have hscope : Declares (scope c o) space := by
    rw [Declares, hdescriptor]
    exact hspace
  obtain ⟨k, hk, rfl⟩ := exists_candidate_of_declares (h.condition_holds hc) hc hscope hroot
  obtain ⟨m, hm, -, hmspace, -⟩ := h.exists_module hc hk
  refine ⟨m, hm, hmspace, ?_⟩
  obtain ⟨l, -, hlm⟩ := (h.mem_modules_iff hc).1 hm
  obtain ⟨d, hd, hmodule⟩ := hspace
  obtain ⟨declaration, hdeclaration⟩ := Option.isSome_iff_exists.1 hmodule
  rw [Candidate.module_eq_ok hlm] at hmspace ⊢
  replace hmspace : l.space = k.space := hmspace
  simp [hmspace, hdescriptor, hd, hdeclaration]

/-- When a build succeeds, and what it reports if it does not. It succeeds exactly when all conditions
hold. A condition is the first one to fail exactly when the build reports an error that tells of it. In a
graph that was built, each namespace within a root that declares a module is that of one module. -/
theorem build_exact (hc : c.Reachable) (o : GraphOptions) (pick : Nat) :
    ((∃ g, build c o pick = .ok g) ↔ ∀ k : Condition, k.Holds c o) ∧
    (∀ k : Condition, (¬ k.Holds c o ∧ ∀ j : Condition, j.rank < k.rank → j.Holds c o) ↔
      ∃ err, build c o pick = .error err ∧ Condition.Fault c o k err) ∧
    ∀ g, build c o pick = .ok g → ∀ space, Declares c space →
      (∃ root ∈ trimmedRoots o.roots, isWithin root space) →
      ∃ m ∈ g.modules, m.space.name = space ∧
        (c.descriptor? space).bind (·.module) = some m.declaration ∧
        ∀ n ∈ g.modules, n.space.name = space → n = m := by
  refine ⟨build_ok_iff hc.coherent, build_error_iff hc.coherent, fun g hg space hspace hroot ↦ ?_⟩
  have h := build_eq_ok.1 hg
  obtain ⟨m, hm, hmspace, hdeclaration⟩ := h.exists_module_of_declares hc.coherent hspace hroot
  refine ⟨m, hm, hmspace, hdeclaration, fun n hn hnspace ↦ ?_⟩
  refine h.eq_of_isWithin hn hm ?_
  rw [hnspace, hmspace]
  exact isWithin_refl _

/-- The shop of the depot has a module of its orders, which is no root beside the shop. -/
theorem build_exact_depot :
    (∃ g, build .depot { roots := ["shop"] } = .ok g ∧ ∃ m ∈ g.modules, m.space.name = "shop.orders") ∧
    ∃ o : GraphOptions, o.roots = [" shop.orders", "shop"] ∧
      build .depot o = .error (.overlappingRoots "shop" "shop.orders") ∧
      ¬ Condition.apart.Holds .depot o ∧ Condition.known.Holds .depot o := by
  refine ⟨?_, { roots := [" shop.orders", "shop"] }, rfl, ?_⟩
  · have hbuilds : (build .depot { roots := ["shop"] }).toOption.isSome := by decide +kernel
    obtain ⟨g, hg⟩ := Option.isSome_iff_exists.1 hbuilds
    have hok : build .depot { roots := ["shop"] } = .ok g := ok_of_toOption hg
    have hdeclares : Declares .depot "shop.orders" :=
      (Option.any_eq_true (fun d : Descriptor ↦ d.module.isSome) _).1 (by decide +kernel)
    obtain ⟨m, hm, hspace, -⟩ := (build_exact Codebase.depot_reachable _ 0).2.2 g hok _ hdeclares
      ⟨"shop", by decide +kernel, by decide +kernel⟩
    exact ⟨g, hok, m, hm, hspace⟩
  · have hroots : checkedRoots .depot [" shop.orders", "shop"] =
        .error (.overlappingRoots "shop" "shop.orders") := by decide +kernel
    have herror : build .depot { roots := [" shop.orders", "shop"] } =
        .error (.overlappingRoots "shop" "shop.orders") := by
      rw [build, hroots]
      rfl
    have hfault : Condition.Fault .depot { roots := [" shop.orders", "shop"] } .apart
        (.overlappingRoots "shop" "shop.orders") :=
      .overlappingRoots (by decide +kernel) (by decide +kernel) (by decide) (by decide +kernel)
    obtain ⟨hfails, hbefore⟩ :=
      ((build_exact Codebase.depot_reachable _ 0).2.1 .apart).2 ⟨_, herror, hfault⟩
    exact ⟨herror, hfails, hbefore .known (by decide)⟩

end ModuleGraph

end Modularity
