import Modularity.Proofs.Codebase.Content
import Modularity.Proofs.Codebase.Relocation
import Modularity.Proofs.Ordered.Canonical

namespace Modularity.Codebase

open Namespace

variable {c : Codebase} {id : Symbol.Id}

theorem Coherent.keys_names (h : c.Coherent) : c.names.keys = c.members.map (·.1.name) := by
  have hkeys : c.names.keys.Pairwise (· < ·) := List.pairwise_map.2 c.names.ascending
  have hnames : (c.members.map (·.1.name)).Pairwise (· < ·) :=
    List.pairwise_map.2 (members_names_ascending h)
  refine StrictLinear.eq_of_mem_iff hkeys hnames fun name ↦ ?_
  rw [OrderedMap.mem_keys, List.mem_map]
  constructor
  · intro hx
    obtain ⟨id, hfind⟩ := hx
    obtain ⟨hid, hname⟩ := h.find?_eq_some_iff.1 hfind
    exact ⟨(c.symbol id, id), h.mem_members.2 ⟨hid, rfl⟩, hname⟩
  · intro hy
    obtain ⟨p, hp, rfl⟩ := hy
    obtain ⟨hid, hsymbol⟩ := h.mem_members.1 hp
    exact ⟨p.2, h.find?_eq_some_iff.2 ⟨hid, congrArg Symbol.name hsymbol⟩⟩

theorem Coherent.size_eq (h : c.Coherent) : c.size = c.members.length := by
  have hsize : c.size = c.names.keys.length := (List.length_map _).symm
  rw [hsize, h.keys_names, List.length_map]

theorem Coherent.directlyIn_ascending (h : c.Coherent) (space : String) :
    (c.directlyIn space).Pairwise (· < ·) := by
  rw [h.directlyIn_eq]
  exact List.pairwise_map.2 ((members_ascending c).filter _)

theorem Coherent.mem_directlyIn (h : c.Coherent) {space : String} :
    id ∈ c.directlyIn space ↔ c.contains id ∧ (c.symbol id).space = space := by
  simp only [h.directlyIn_eq, List.mem_map, List.mem_filter, decide_eq_true_eq]
  constructor
  · intro hx
    obtain ⟨p, ⟨hp, hspace⟩, rfl⟩ := hx
    obtain ⟨hid, hsymbol⟩ := h.mem_members.1 hp
    exact ⟨hid, hsymbol ▸ hspace⟩
  · intro hy
    obtain ⟨hid, hspace⟩ := hy
    exact ⟨(c.symbol id, id), ⟨h.mem_members.2 ⟨hid, rfl⟩, hspace⟩, rfl⟩

theorem Coherent.spaces_perm (h : c.Coherent) :
    c.spaces.values.flatten.Perm (c.members.map (·.2)) := by
  have hall : c.spaces.entries.filter (fun e ↦ isWithin "" e.1) = c.spaces.entries :=
    List.filter_eq_self.2 fun e _ ↦ isWithin_empty e.1
  have hlists : c.spaces.values.flatten.Nodup := by
    have hnodup := h.ids_nodup ""
    rwa [hall, List.flatMap_def] at hnodup
  have hmembers : (c.members.map (·.2)).Nodup :=
    List.pairwise_map.2 ((members_ascending c).imp Nat.ne_of_lt)
  refine (List.perm_ext_iff_of_nodup hlists hmembers).2 fun id ↦ ?_
  rw [List.mem_flatten, List.mem_map]
  constructor
  · intro hx
    obtain ⟨ids, hids, hid⟩ := hx
    obtain ⟨e, he, rfl⟩ := List.mem_map.1 hids
    have hmem := ((h.mem_entries_ids he).1 hid).1
    exact ⟨(c.symbol id, id), h.mem_members.2 ⟨hmem, rfl⟩, rfl⟩
  · intro hy
    obtain ⟨p, hp, rfl⟩ := hy
    have hid := (h.mem_members.1 hp).1
    obtain ⟨e, he, hspace⟩ := h.exists_entry hid
    exact ⟨e.2, List.mem_map_of_mem he, (h.mem_entries_ids he).2 ⟨hid, hspace.symm⟩⟩

def keeps (step : List String × IgnoreList) (s : Symbol) : Bool :=
  isUnder step.1 s.space && !step.2.ignores s.name

def restrictAll (c : Codebase) (steps : List (List String × IgnoreList)) : Codebase :=
  steps.foldl (fun c step ↦ c.restrict step.1 step.2) c

variable {steps : List (List String × IgnoreList)}

theorem Reachable.restrictAll (h : c.Reachable) (steps : List (List String × IgnoreList)) :
    (c.restrictAll steps).Reachable := by
  induction steps generalizing c with
  | nil => exact h
  | cons step steps ih => exact ih (h.restricted step.1 step.2)

@[simp] theorem symbol_restrictAll (c : Codebase) (steps : List (List String × IgnoreList))
    (id : Symbol.Id) : (c.restrictAll steps).symbol id = c.symbol id := by
  induction steps generalizing c with
  | nil => rfl
  | cons step steps ih => exact ih (c.restrict step.1 step.2)

theorem members_restrictAll (h : c.Coherent) (steps : List (List String × IgnoreList)) :
    (c.restrictAll steps).members = c.members.filter fun p ↦ steps.all (keeps · p.1) := by
  induction steps generalizing c with
  | nil => exact (List.filter_true _).symm
  | cons step steps ih =>
    have hstep := members_restrict h step.1 step.2
    have hrest := ih (h.restrict step.1 step.2)
    rw [hstep, List.filter_filter] at hrest
    refine hrest.trans (List.filter_congr fun p _ ↦ ?_)
    rw [List.all_cons, Bool.and_comm]
    rfl

theorem contains_restrictAll (h : c.Reachable) :
    (c.restrictAll steps).contains id ↔
      c.contains id ∧ ∀ step ∈ steps, keeps step (c.symbol id) := by
  have hmem : ∀ {d : Codebase}, d.Coherent → d.symbol id = c.symbol id →
      (d.contains id ↔ (c.symbol id, id) ∈ d.members) := fun hd hsymbol ↦ by
    rw [hd.mem_members, hsymbol]
    exact (and_iff_left rfl).symm
  rw [hmem (h.restrictAll steps).coherent (symbol_restrictAll ..), hmem h.coherent rfl,
    members_restrictAll h.coherent, List.mem_filter, List.all_eq_true]

theorem size_restrictAll_le (h : c.Reachable) : (c.restrictAll steps).size ≤ c.size := by
  rw [(h.restrictAll steps).coherent.size_eq, h.coherent.size_eq, members_restrictAll h.coherent]
  exact List.length_filter_le ..

theorem isUnder_of_mem_keys {space : String} (hspace : space ∈ (c.restrictAll steps).descriptors.keys) :
    space ∈ c.descriptors.keys ∧ ∀ step ∈ steps, isUnder step.1 space := by
  induction steps generalizing c with
  | nil => exact ⟨hspace, fun step hstep ↦ nomatch hstep⟩
  | cons step steps ih =>
    obtain ⟨hkey, hsteps⟩ := ih (c := c.restrict step.1 step.2) hspace
    obtain ⟨d, hd⟩ := OrderedMap.mem_keys.1 hkey
    rw [restrict, index, OrderedMap.get?_filter, Option.filter_eq_some_iff] at hd
    exact ⟨OrderedMap.mem_keys.2 ⟨d, hd.1⟩, List.forall_mem_cons.2 ⟨hd.2, hsteps⟩⟩

/-- A restriction that every member and every descriptor passes changes nothing. -/
theorem Coherent.restrict_eq_self (h : c.Coherent) (step : List String × IgnoreList)
    (hmembers : ∀ id, c.contains id → keeps step (c.symbol id))
    (hspaces : ∀ space ∈ c.descriptors.keys, isUnder step.1 space) :
    c.restrict step.1 step.2 = c := by
  have hvisible : (c.restrict step.1 step.2).visible = c.visible := by
    have hsize : (c.restrict step.1 step.2).visible.size = c.visible.size :=
      (h.restrict step.1 step.2).sized.trans h.sized.symm
    refine Array.ext hsize fun i hi hi' ↦ ?_
    have hcontains := contains_restrict h step.1 step.2 i
    rw [contains, contains, Array.getD_eq_getD_getElem?, Array.getD_eq_getD_getElem?,
      Array.getElem?_eq_getElem hi, Array.getElem?_eq_getElem hi', Option.getD_some,
      Option.getD_some] at hcontains
    rw [hcontains]
    cases hkept : c.visible[i] with
    | false => rfl
    | true =>
      have hid : c.contains i := by
        rw [contains, Array.getD_eq_getD_getElem?, Array.getElem?_eq_getElem hi', hkept]
        rfl
      exact hmembers i hid
  have hdescriptors : (c.restrict step.1 step.2).descriptors = c.descriptors := by
    apply OrderedMap.ext_entries
    refine List.filter_eq_self.2 fun e he ↦ ?_
    exact hspaces e.1 (List.mem_map_of_mem he)
  have hindexed := (h.restrict step.1 step.2).indexed
  rw [hvisible, hdescriptors] at hindexed
  exact hindexed.trans h.indexed.symm

theorem restrictAll_again (h : c.Reachable) {step : List String × IgnoreList} (hstep : step ∈ steps) :
    (c.restrictAll steps).restrict step.1 step.2 = c.restrictAll steps := by
  refine (h.restrictAll steps).coherent.restrict_eq_self step (fun id hid ↦ ?_) fun space hspace ↦ ?_
  · rw [symbol_restrictAll]
    exact ((contains_restrictAll h).1 hid).2 step hstep
  · exact (isUnder_of_mem_keys hspace).2 step hstep

/-- In every codebase that a program can hold the indexes say the same of the members. Members are listed
by ascending position and name; a name leads to the member that has it; each namespace lists its own members
by ascending position, and these lists share the members out; the size counts them. A chain of
restrictions leaves the symbols where they are and keeps the members that lie within a root of each step
and that no step ignores; no step makes a codebase larger, and none is needed twice. -/
theorem indexes_agree (h : c.Reachable) :
    (c.members.Pairwise fun p q ↦ p.2 < q.2 ∧ p.1.name < q.1.name) ∧
    (∀ s id, (s, id) ∈ c.members ↔ c.contains id ∧ c.symbol id = s) ∧
    (∀ name id, c.find? name = some id ↔ c.contains id ∧ (c.symbol id).name = name) ∧
    (∀ space, (c.directlyIn space).Pairwise (· < ·) ∧
      ∀ id, id ∈ c.directlyIn space ↔ c.contains id ∧ (c.symbol id).space = space) ∧
    c.spaces.values.flatten.Perm (c.members.map (·.2)) ∧
    c.size = c.members.length ∧
    ∀ steps, (∀ id, (c.restrictAll steps).symbol id = c.symbol id) ∧
      (∀ id, (c.restrictAll steps).contains id ↔ c.contains id ∧ ∀ step ∈ steps,
        (∃ root ∈ step.1, isWithin root (c.symbol id).space) ∧
          ¬ step.2.ignores (c.symbol id).name) ∧
      (c.restrictAll steps).size ≤ c.size ∧
      ∀ step ∈ steps, (c.restrictAll steps).restrict step.1 step.2 = c.restrictAll steps := by
  have hc := h.coherent
  refine ⟨(members_ascending c).and (members_names_ascending hc), fun s id ↦ hc.mem_members,
    fun name id ↦ hc.find?_eq_some_iff,
    fun space ↦ ⟨hc.directlyIn_ascending space, fun id ↦ hc.mem_directlyIn⟩,
    hc.spaces_perm, hc.size_eq, fun steps ↦ ⟨symbol_restrictAll c steps, fun id ↦ ?_,
    size_restrictAll_le h, fun step ↦ restrictAll_again h⟩⟩
  have hkeeps : ∀ step : List String × IgnoreList, keeps step (c.symbol id) ↔
      (∃ root ∈ step.1, isWithin root (c.symbol id).space) ∧ ¬ step.2.ignores (c.symbol id).name := by
    intro step
    simp [keeps, isUnder]
  simp only [contains_restrictAll h, hkeeps]

/-- The annex is a restriction; restricting it to its orders keeps one of its three members. -/
theorem indexes_agree_annex :
    annex.Reachable ∧ annex.members.map (·.2) = [1, 2, 3] ∧ annex.size = 3 ∧
    annex.find? "shop.stock.Item" = some 3 ∧
    (annex.restrictAll [(["shop.orders"], .none)]).contains 2 ∧
    ¬ (annex.restrictAll [(["shop.orders"], .none)]).contains 3 ∧
    (annex.restrictAll [(["shop.orders"], .none)]).restrict ["shop.orders"] .none =
      annex.restrictAll [(["shop.orders"], .none)] := by
  have hids : annex.members.map (·.2) = [1, 2, 3] := by decide +kernel
  obtain ⟨-, -, hfind, -, -, hsize, hchain⟩ := indexes_agree annex_reachable
  obtain ⟨-, hkept, -, hagain⟩ := hchain [(["shop.orders"], .none)]
  refine ⟨annex_reachable, hids, ?_, ?_, ?_, ?_, hagain _ (List.mem_singleton_self _)⟩
  · rw [hsize, ← List.length_map (·.2), hids]
    rfl
  · exact (hfind _ _).2 (by decide +kernel)
  · exact (hkept 2).2 (by decide +kernel)
  · rw [hkept]
    decide +kernel

end Modularity.Codebase
