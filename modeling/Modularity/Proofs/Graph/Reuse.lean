import Modularity.Proofs.Graph.Positions
import Mathlib.Data.List.Perm.Subperm

namespace Modularity.GraphCache

open ModuleGraph

variable {c d : Codebase} {o p : GraphOptions} {s t : GraphCache} {calls : List Call} {call : Call}
  {key : CacheKey} {n pick : Nat}

/-- A request with a key was answered with a graph, and the cache was not cleared after it. -/
def Answered (calls : List Call) (key : CacheKey) (n : Nat) : Prop :=
  ∃ before c o after, calls = before ++ .request c o :: after ∧ .clear ∉ after ∧
    CacheKey.of c o = key ∧ ((run before).request c o).1 = .ok n

/-- A request is answered by a build: by its error, or by a new graph, which the cache has from then on. -/
def BuildsFor (s : GraphCache) (c : Codebase) (o : GraphOptions) : Prop :=
  (∀ pick err, build c o pick = .error err →
    (s.request c o pick).1 = .error err ∧ (s.request c o pick).2.graphs = s.graphs) ∧
  ∀ pick g, build c o pick = .ok g →
    (s.request c o pick).1 = .ok s.graphs.length ∧ (s.request c o pick).2.graphs = s.graphs ++ [g]

/-! ### Slots -/

theorem request_of_slot?_eq_none (h : s.slot? (.of c o) = none) :
    s.request c o pick =
      match build c o pick with
      | .error err => (.error err, s.fill (.of c o) none)
      | .ok g => (.ok s.graphs.length,
          { s.fill (.of c o) (some s.graphs.length) with graphs := s.graphs ++ [g] }) := by
  cases hbuild : build c o pick with
  | error err => rw [request, h, hbuild]
  | ok g => rw [request, h, hbuild]

theorem slot?_of_error {err : LayoutError} (h : (s.request c o pick).1 = .error err) :
    s.slot? (.of c o) = none := by
  cases hslot : s.slot? (.of c o) with
  | none => rfl
  | some n =>
    rw [request_of_slot? hslot] at h
    nomatch h

theorem buildsFor_of_slot? (h : s.slot? (.of c o) = none) : s.BuildsFor c o := by
  refine ⟨fun pick err hbuild ↦ ?_, fun pick g hbuild ↦ ?_⟩ <;>
    rw [request_of_slot?_eq_none h, hbuild]
  · exact ⟨rfl, rfl⟩
  · exact ⟨rfl, rfl⟩

theorem slot?_request_iff :
    (s.request c o).2.slot? key = some n ↔
      s.slot? key = some n ∨ CacheKey.of c o = key ∧ (s.request c o).1 = .ok n := by
  cases hslot : s.slot? (.of c o) with
  | some m =>
    rw [request_of_slot? hslot]
    refine ⟨.inl, fun hx ↦ hx.elim id fun hy ↦ ?_⟩
    rw [← hy.1, hslot, Except.ok.inj hy.2]
  | none =>
    have hfree : s.slot? key = some n → key ≠ .of c o := fun hn hkey ↦ by
      rw [hkey, hslot] at hn
      nomatch hn
    rw [request_of_slot?_eq_none hslot]
    cases build c o with
    | error err =>
      simp only [slot?_fill, reduceCtorEq, and_false, or_false]
      by_cases hkey : key = .of c o
      · rw [if_pos hkey]
        exact ⟨nofun, fun hn ↦ absurd hkey (hfree hn)⟩
      · rw [if_neg hkey]
    | ok g =>
      have hfill : ∀ graphs, ({ s.fill (.of c o) (some s.graphs.length) with graphs } : GraphCache).slot?
          key = if key = .of c o then some s.graphs.length else s.slot? key :=
        fun _ ↦ slot?_fill ..
      rw [hfill]
      by_cases hkey : key = .of c o
      · rw [if_pos hkey, Option.some.injEq, Except.ok.injEq]
        exact ⟨fun hn ↦ .inr ⟨hkey.symm, hn⟩, fun hx ↦ hx.elim (fun hn ↦ absurd hkey (hfree hn)) And.right⟩
      · rw [if_neg hkey]
        exact ⟨.inl, fun hx ↦ hx.elim id fun hy ↦ absurd hy.1.symm hkey⟩

theorem slot?_step_iff :
    (s.step call).slot? key = some n ↔ call ≠ .clear ∧ s.slot? key = some n ∨
      ∃ c o, call = .request c o ∧ CacheKey.of c o = key ∧ (s.request c o).1 = .ok n := by
  cases call with
  | request c o =>
    rw [step, slot?_request_iff]
    simp
  | clear => simp [step, clear, slot?]
  | verify m =>
    have hslots : (s.step (.verify m)).slot? key = s.slot? key := by
      obtain heq | ⟨old, new, -, -, heq⟩ := s.step_verify_cases m <;> rw [heq]
      rfl
    simp [hslots]

theorem answered_append_singleton :
    Answered (calls ++ [call]) key n ↔ call ≠ .clear ∧ Answered calls key n ∨
      ∃ c o, call = .request c o ∧ CacheKey.of c o = key ∧ ((run calls).request c o).1 = .ok n := by
  constructor
  · intro hx
    obtain ⟨before, c, o, after, hcalls, hafter, hkey, hn⟩ := hx
    rcases List.eq_nil_or_concat after with rfl | ⟨rest, last, rfl⟩
    · obtain ⟨rfl, hlast⟩ := List.append_inj' hcalls rfl
      exact .inr ⟨c, o, (List.cons.inj hlast).1, hkey, hn⟩
    · rw [List.concat_eq_append, ← List.cons_append, ← List.append_assoc] at hcalls
      obtain ⟨rfl, hlast⟩ := List.append_inj' hcalls rfl
      obtain rfl := (List.cons.inj hlast).1
      rw [List.concat_eq_append, List.mem_append, not_or] at hafter
      refine .inl ⟨fun heq ↦ hafter.2 (heq ▸ List.mem_singleton_self _), before, c, o, rest, rfl,
        hafter.1, hkey, hn⟩
  · intro hy
    rcases hy with ⟨hcall, before, c, o, after, rfl, hafter, hkey, hn⟩ | ⟨c, o, rfl, hkey, hn⟩
    · refine ⟨before, c, o, after ++ [call], by simp, ?_, hkey, hn⟩
      simpa [hafter] using fun heq ↦ hcall heq.symm
    · exact ⟨calls, c, o, [], rfl, List.not_mem_nil, hkey, hn⟩

theorem slot?_run : (run calls).slot? key = some n ↔ Answered calls key n := by
  induction calls using List.reverseRecOn generalizing n with
  | nil => simp [run, slot?, Answered]
  | append_singleton calls call ih =>
    rw [run_append, List.foldl_cons, List.foldl_nil, slot?_step_iff, answered_append_singleton, ih]

/-! ### Counting -/

def keys (s : GraphCache) : List CacheKey := (s.slots.filter fun slot ↦ slot.2.isSome).map (·.1)

def Tidy (s : GraphCache) : Prop := (s.slots.map (·.1)).Nodup

theorem length_keys (s : GraphCache) : s.keys.length = s.size := List.length_map ..

theorem Tidy.nodup_keys (h : s.Tidy) : s.keys.Nodup := h.sublist (List.filter_sublist.map _)

theorem Tidy.mem_keys (h : s.Tidy) : key ∈ s.keys ↔ ∃ n, s.slot? key = some n := by
  have hlookup : ∀ entry, s.slots.lookup key = some entry ↔ (key, entry) ∈ s.slots := by
    intro entry
    rw [List.lookup_eq_some_iff]
    constructor
    · intro hx
      obtain ⟨front, back, heq, -⟩ := hx
      exact heq ▸ List.mem_append_right _ (List.mem_cons_self ..)
    · intro hmem
      obtain ⟨front, back, heq⟩ := List.append_of_mem hmem
      refine ⟨front, back, heq, fun slot hslot ↦ ?_⟩
      rw [Tidy, heq, List.map_append, List.map_cons] at h
      have hne := (List.nodup_append.1 h).2.2 slot.1 (List.mem_map_of_mem hslot) key (List.mem_cons_self ..)
      simpa using hne.symm
  simp only [keys, slot?, List.mem_map, List.mem_filter, Option.join_eq_some_iff, hlookup]
  constructor
  · intro hx
    obtain ⟨⟨k, entry⟩, ⟨hmem, hsome⟩, rfl⟩ := hx
    obtain ⟨n, rfl⟩ := Option.isSome_iff_exists.1 hsome
    exact ⟨n, hmem⟩
  · intro hy
    obtain ⟨n, hmem⟩ := hy
    exact ⟨(key, some n), ⟨hmem, rfl⟩, rfl⟩

theorem Tidy.fill (h : s.Tidy) (key : CacheKey) (n : Option Nat) : (s.fill key n).Tidy := by
  refine List.nodup_cons.2 ⟨fun hmem ↦ ?_, h.sublist (List.filter_sublist.map _)⟩
  obtain ⟨slot, hslot, heq⟩ := List.mem_map.1 hmem
  simpa [heq] using (List.mem_filter.1 hslot).2

theorem Tidy.step (h : s.Tidy) (call : Call) : (s.step call).Tidy := by
  cases call with
  | request c o =>
    rw [GraphCache.step]
    obtain ⟨n, -, heq⟩ | ⟨err, -, heq⟩ | ⟨g, -, heq⟩ := s.request_cases c o
    · rw [heq]
      exact h
    · rw [heq]
      exact h.fill _ _
    · rw [heq]
      exact h.fill _ _
  | clear => exact List.nodup_nil
  | verify n =>
    obtain heq | ⟨old, new, -, -, heq⟩ := s.step_verify_cases n
    · rw [heq]
      exact h
    · rw [heq]
      exact h

theorem tidy_run (calls : List Call) : (run calls).Tidy := by
  induction calls using List.reverseRecOn with
  | nil => exact List.nodup_nil
  | append_singleton calls call ih =>
    rw [run_append]
    exact ih.step call

theorem mem_keys_run : key ∈ (run calls).keys ↔ ∃ n, Answered calls key n := by
  simp only [(tidy_run calls).mem_keys, slot?_run]

/-! ### Empty slots -/

/-- Two caches with the same graphs in the same slots. They may differ in empty slots. -/
structure Agree (s t : GraphCache) : Prop where
  graphs : s.graphs = t.graphs
  slots : ∀ key, s.slot? key = t.slot? key

theorem Agree.answer (h : Agree s t) (c : Codebase) (o : GraphOptions) (pick : Nat) :
    (s.request c o pick).1 = (t.request c o pick).1 ∧
      (s.request c o pick).2.graphs = (t.request c o pick).2.graphs := by
  have hslot := h.slots (.of c o)
  cases ht : t.slot? (.of c o) with
  | some n =>
    rw [request_of_slot? ht, request_of_slot? (hslot.trans ht)]
    exact ⟨rfl, h.graphs⟩
  | none =>
    rw [request_of_slot?_eq_none ht, request_of_slot?_eq_none (hslot.trans ht), h.graphs]
    cases build c o pick with
    | error err => exact ⟨rfl, h.graphs⟩
    | ok g => exact ⟨rfl, rfl⟩

theorem Agree.request (h : Agree s t) (c : Codebase) (o : GraphOptions) :
    Agree (s.request c o).2 (t.request c o).2 where
  graphs := (h.answer c o 0).2
  slots key := by
    refine Option.ext fun n ↦ ?_
    rw [slot?_request_iff, slot?_request_iff, h.slots, (h.answer c o 0).1]

theorem Agree.step (h : Agree s t) (call : Call) : Agree (s.step call) (t.step call) := by
  cases call with
  | request c o => exact h.request c o
  | clear => exact ⟨h.graphs, fun _ ↦ rfl⟩
  | verify n =>
    have hgraph : s.graph? n = t.graph? n := congrArg (·[n]?) h.graphs
    rw [GraphCache.step, GraphCache.step, verify, verify, hgraph]
    cases t.graph? n with
    | none => exact h
    | some g =>
      simp only [Option.map_some, Option.getD_some]
      cases g.verify with
      | error vs => exact h
      | ok g' => exact ⟨congrArg (·.set n g') h.graphs, h.slots⟩

theorem Agree.foldl (h : Agree s t) (more : List Call) :
    Agree (more.foldl GraphCache.step s) (more.foldl GraphCache.step t) := by
  induction more generalizing s t with
  | nil => exact h
  | cons call more ih => exact ih (h.step call)

theorem Agree.size (h : Agree s t) (hs : s.Tidy) (ht : t.Tidy) : s.size = t.size := by
  rw [← length_keys, ← length_keys]
  refine ((List.perm_ext_iff_of_nodup hs.nodup_keys ht.nodup_keys).2 fun key ↦ ?_).length_eq
  rw [hs.mem_keys, ht.mem_keys, h.slots]

/-- A request that fails leaves an empty slot at most. -/
theorem agree_of_error {err : LayoutError} (h : (s.request c o pick).1 = .error err) :
    Agree (s.request c o).2 s := by
  have hempty := slot?_of_error h
  rw [← request_cache s c o pick]
  obtain ⟨n, -, heq⟩ | ⟨err, -, heq⟩ | ⟨g, -, heq⟩ := s.request_cases c o pick
  · rw [heq] at h
    nomatch h
  · rw [heq]
    refine ⟨rfl, fun key ↦ ?_⟩
    rw [slot?_fill]
    split
    · rename_i hkey
      rw [hkey, hempty]
    · rfl
  · rw [heq] at h
    nomatch h

/-! ### Runs -/

theorem agree_run_of_error {err : LayoutError} (h : ((run calls).request c o pick).1 = .error err)
    (more : List Call) : Agree (run (calls ++ .request c o :: more)) (run (calls ++ more)) := by
  rw [run_append, run_append, List.foldl_cons]
  exact (agree_of_error h).foldl more

theorem size_run_of_error {err : LayoutError} (h : ((run calls).request c o pick).1 = .error err)
    (more : List Call) : (run (calls ++ .request c o :: more)).size = (run (calls ++ more)).size :=
  (agree_run_of_error h more).size (tidy_run _) (tidy_run _)

/-- In any run of requests, verifications and clearings every key is built once, and failures leave no
trace. Since the last clearing a key was answered with one graph at most. A request with a key that was
answered gets that graph and changes nothing; a request with any other key is built, also where builds for
it have failed. The size of the cache is the number of keys that were answered. A request that fails can be
left out of the run: the size, the graphs and the answers to all later requests are the same without it,
and its key is built at the next request. -/
theorem built_once (calls : List Call) (c : Codebase) (o : GraphOptions) :
    (∀ key m n, Answered calls key m → Answered calls key n → m = n) ∧
    (∀ n, Answered calls (.of c o) n → ∀ pick, (run calls).request c o pick = (.ok n, run calls)) ∧
    ((∀ n, ¬Answered calls (.of c o) n) → (run calls).BuildsFor c o) ∧
    (∃ keys : List CacheKey, keys.Nodup ∧ (∀ key, key ∈ keys ↔ ∃ n, Answered calls key n) ∧
      (run calls).size = keys.length) ∧
    ∀ pick err, ((run calls).request c o pick).1 = .error err →
      (run (calls ++ [.request c o])).size = (run calls).size ∧
      (∀ d p, CacheKey.of d p = .of c o → (run (calls ++ [.request c o])).BuildsFor d p) ∧
      ∀ more, (run (calls ++ .request c o :: more)).size = (run (calls ++ more)).size ∧
        (run (calls ++ .request c o :: more)).graphs = (run (calls ++ more)).graphs ∧
        ∀ d p pick, ((run (calls ++ .request c o :: more)).request d p pick).1 =
          ((run (calls ++ more)).request d p pick).1 := by
  refine ⟨fun key m n hm hn ↦ ?_, fun n hn pick ↦ ?_, fun hnone ↦ ?_, ?_, fun pick err herr ↦ ?_⟩
  · rw [← slot?_run] at hm hn
    exact Option.some.inj (hm.symm.trans hn)
  · exact request_of_slot? (slot?_run.2 hn)
  · refine buildsFor_of_slot? (Option.eq_none_iff_forall_ne_some.2 fun n hn ↦ ?_)
    exact hnone n (slot?_run.1 hn)
  · exact ⟨(run calls).keys, (tidy_run calls).nodup_keys, fun key ↦ mem_keys_run,
      (length_keys _).symm⟩
  · refine ⟨?_, fun d p hkey ↦ ?_, fun more ↦ ?_⟩
    · have hsize := size_run_of_error herr []
      rwa [List.append_nil] at hsize
    · refine buildsFor_of_slot? ?_
      rw [run_request, hkey, (agree_of_error herr).slots]
      exact slot?_of_error herr
    · have hagree := agree_run_of_error herr more
      exact ⟨size_run_of_error herr more, hagree.graphs, fun d p pick ↦ (hagree.answer d p pick).1⟩

/-- The mall is not in the shop and leaves no trace; the annex gets the graph of the shop. -/
theorem built_once_annex :
    (run [.request .shop { roots := ["mall"] }, .request .shop { roots := ["shop"] }]).size = 1 ∧
    (run [.request .shop { roots := ["shop"] }]).request .annex { roots := ["shop"] } =
      (.ok 0, run [.request .shop { roots := ["shop"] }]) := by
  have hmall : (({} : GraphCache).request .shop { roots := ["mall"] }).1.toOption = none := by
    decide +kernel
  have hshop : (({} : GraphCache).request .shop { roots := ["shop"] }).1 = .ok 0 :=
    ok_of_toOption (by decide +kernel)
  obtain ⟨-, -, -, -, htraceless⟩ := built_once [] .shop { roots := ["mall"] }
  obtain ⟨-, hhit, -, -, -⟩ :=
    built_once [.request .shop { roots := ["shop"] }] .annex { roots := ["shop"] }
  refine ⟨?_, hhit 0 ⟨[], .shop, _, [], rfl, List.not_mem_nil, annex_key.symm, hshop⟩ 0⟩
  cases hfails : (({} : GraphCache).request .shop { roots := ["mall"] }).1 with
  | ok n =>
    rw [hfails] at hmall
    nomatch hmall
  | error err =>
    have hsize := ((htraceless 0 err hfails).2.2 [.request .shop { roots := ["shop"] }]).1
    exact hsize.trans (by decide +kernel)

end Modularity.GraphCache
