import Modularity.Ordered.Linear

namespace Modularity

variable {κ ν : Type} [LT κ]

/-- A finite map, kept as the list of its entries with strictly ascending keys. -/
structure OrderedMap (κ ν : Type) [LT κ] where
  entries : List (κ × ν)
  ascending : entries.Pairwise (fun e f ↦ e.1 < f.1)
deriving DecidableEq

namespace OrderedMap

def empty : OrderedMap κ ν := ⟨[], .nil⟩

instance : Inhabited (OrderedMap κ ν) := ⟨empty⟩

def get? [DecidableEq κ] (m : OrderedMap κ ν) (k : κ) : Option ν :=
  (m.entries.find? (fun e ↦ e.1 = k)).map (·.2)

def keys (m : OrderedMap κ ν) : List κ := m.entries.map (·.1)

def values (m : OrderedMap κ ν) : List ν := m.entries.map (·.2)

def size (m : OrderedMap κ ν) : Nat := m.entries.length

def isEmpty (m : OrderedMap κ ν) : Bool := m.entries.isEmpty

def filter (m : OrderedMap κ ν) (p : κ → ν → Bool) : OrderedMap κ ν :=
  ⟨m.entries.filter (fun e ↦ p e.1 e.2), m.ascending.filter _⟩

/-- The entries from a key on: those whose key is not smaller. -/
def entriesFrom [DecidableLT κ] (m : OrderedMap κ ν) (k : κ) : List (κ × ν) :=
  m.entries.dropWhile (fun e ↦ e.1 < k)

/-- Replaces what is stored under a key, or adds an entry for it. -/
def revise [DecidableLT κ] (k : κ) (f : Option ν → ν) : List (κ × ν) → List (κ × ν)
  | [] => [(k, f none)]
  | (j, v) :: rest =>
    if k < j then (k, f none) :: (j, v) :: rest
    else if j < k then (j, v) :: revise k f rest
    else (j, f (some v)) :: rest

variable [DecidableLT κ] [StrictLinear κ]

omit [StrictLinear κ] in
theorem key_of_mem_revise {k : κ} {f : Option ν → ν} {es : List (κ × ν)} {e : κ × ν}
    (h : e ∈ revise k f es) : e.1 = k ∨ ∃ e' ∈ es, e'.1 = e.1 := by
  induction es with
  | nil =>
    simp only [revise, List.mem_singleton] at h
    exact .inl (by rw [h])
  | cons d es ih =>
    obtain ⟨j, v⟩ := d
    unfold revise at h
    split at h
    · rcases List.mem_cons.1 h with heq | hmem
      · exact .inl (by rw [heq])
      · exact .inr ⟨e, hmem, rfl⟩
    · split at h
      · rcases List.mem_cons.1 h with heq | hmem
        · exact .inr ⟨(j, v), List.mem_cons_self .., by rw [heq]⟩
        · rcases ih hmem with hkey | ⟨e', he', hkey⟩
          · exact .inl hkey
          · exact .inr ⟨e', List.mem_cons_of_mem _ he', hkey⟩
      · rcases List.mem_cons.1 h with heq | hmem
        · exact .inr ⟨(j, v), List.mem_cons_self .., by rw [heq]⟩
        · exact .inr ⟨e, List.mem_cons_of_mem _ hmem, rfl⟩

theorem ascending_revise {k : κ} {f : Option ν → ν} {es : List (κ × ν)}
    (h : es.Pairwise (fun e f ↦ e.1 < f.1)) : (revise k f es).Pairwise (fun e f ↦ e.1 < f.1) := by
  induction es with
  | nil => simp [revise]
  | cons d es ih =>
    obtain ⟨j, v⟩ := d
    rw [List.pairwise_cons] at h
    unfold revise
    split
    · rename_i hlt
      refine List.pairwise_cons.2 ⟨fun b hb ↦ ?_, List.pairwise_cons.2 h⟩
      rcases List.mem_cons.1 hb with rfl | hmem
      · exact hlt
      · exact StrictLinear.trans hlt (h.1 b hmem)
    · split
      · rename_i hlt
        refine List.pairwise_cons.2 ⟨fun b hb ↦ ?_, ih h.2⟩
        show j < b.1
        rcases key_of_mem_revise hb with hkey | ⟨e, he, hkey⟩
        · rw [hkey]
          exact hlt
        · rw [← hkey]
          exact h.1 e he
      · exact List.pairwise_cons.2 ⟨fun b hb ↦ h.1 b hb, h.2⟩

def alter (m : OrderedMap κ ν) (k : κ) (f : Option ν → ν) : OrderedMap κ ν :=
  ⟨revise k f m.entries, ascending_revise m.ascending⟩

def insert (m : OrderedMap κ ν) (k : κ) (v : ν) : OrderedMap κ ν := m.alter k (fun _ ↦ v)

variable [DecidableEq κ]

omit [DecidableLT κ] [StrictLinear κ] in
@[simp] theorem get?_empty (k : κ) : (empty : OrderedMap κ ν).get? k = none := rfl

private theorem find?_revise (k j : κ) (f : Option ν → ν) (es : List (κ × ν))
    (h : es.Pairwise (fun e f ↦ e.1 < f.1)) :
    ((revise k f es).find? (fun e ↦ e.1 = j)).map (·.2) =
      if k = j then some (f ((es.find? (fun e ↦ e.1 = k)).map (·.2)))
      else (es.find? (fun e ↦ e.1 = j)).map (·.2) := by
  induction es with
  | nil => by_cases hkey : k = j <;> simp [revise, hkey]
  | cons d es ih =>
    obtain ⟨i, v⟩ := d
    rw [List.pairwise_cons] at h
    unfold revise
    split
    · rename_i hlt
      by_cases hkey : k = j
      · subst hkey
        have habsent : ∀ e ∈ (i, v) :: es, ¬ e.1 = k := by
          intro e he
          rcases List.mem_cons.1 he with rfl | he
          · exact (StrictLinear.ne_of_lt hlt).symm
          · exact (StrictLinear.ne_of_lt (StrictLinear.trans hlt (h.1 e he))).symm
        have hnone : ((i, v) :: es).find? (fun e ↦ decide (e.1 = k)) = none :=
          List.find?_eq_none.2 fun e he ↦ by simpa using habsent e he
        rw [hnone]
        simp
      · simp [hkey]
    · split
      · rename_i hlt
        have hne : ¬ i = k := StrictLinear.ne_of_lt hlt
        have hrest := ih h.2
        by_cases hkey : k = j
        · subst hkey
          simpa [hne] using hrest
        · rw [if_neg hkey] at hrest
          by_cases hfirst : i = j
          · simp [hfirst, hkey]
          · simpa [hfirst, hkey] using hrest
      · rename_i hkept hnot
        have heq : k = i := StrictLinear.eq_of_not_lt hkept hnot
        subst heq
        by_cases hkey : k = j <;> simp [hkey]

theorem get?_alter (m : OrderedMap κ ν) (k j : κ) (f : Option ν → ν) :
    (m.alter k f).get? j = if k = j then some (f (m.get? k)) else m.get? j :=
  find?_revise k j f m.entries m.ascending

theorem get?_insert (m : OrderedMap κ ν) (k j : κ) (v : ν) :
    (m.insert k v).get? j = if k = j then some v else m.get? j :=
  get?_alter m k j _

omit [DecidableLT κ] in
theorem get?_eq_some_iff {m : OrderedMap κ ν} {k : κ} {v : ν} :
    m.get? k = some v ↔ (k, v) ∈ m.entries := by
  constructor
  · intro h
    obtain ⟨⟨j, w⟩, hfind, rfl⟩ := Option.map_eq_some_iff.1 h
    have hj : j = k := by simpa using List.find?_some hfind
    exact hj ▸ List.mem_of_find?_eq_some hfind
  · intro h
    rw [get?, StrictLinear.find?_key m.ascending h]
    rfl

omit [DecidableEq κ] in
theorem not_lt_of_mem_entriesFrom {m : OrderedMap κ ν} {k : κ} {e : κ × ν}
    (h : e ∈ m.entriesFrom k) : ¬ e.1 < k := by
  obtain ⟨es, hasc⟩ := m
  replace h : e ∈ es.dropWhile fun e ↦ e.1 < k := h
  induction es with
  | nil => nomatch h
  | cons d es ih =>
    rw [List.pairwise_cons] at hasc
    by_cases hd : d.1 < k
    · rw [List.dropWhile_cons_of_pos (by simpa using hd)] at h
      exact ih hasc.2 h
    · rw [List.dropWhile_cons_of_neg (by simpa using hd)] at h
      rcases List.mem_cons.1 h with rfl | h
      · exact hd
      · exact fun hlt ↦ hd (StrictLinear.trans (hasc.1 e h) hlt)

omit [DecidableLT κ] in
theorem mem_keys {m : OrderedMap κ ν} {k : κ} : k ∈ m.keys ↔ ∃ v, m.get? k = some v := by
  simp only [get?_eq_some_iff, keys, List.mem_map]
  constructor
  · rintro ⟨⟨j, v⟩, h, rfl⟩
    exact ⟨v, h⟩
  · rintro ⟨v, h⟩
    exact ⟨(k, v), h, rfl⟩

omit [DecidableLT κ] in
theorem mem_values {m : OrderedMap κ ν} {v : ν} : v ∈ m.values ↔ ∃ k, m.get? k = some v := by
  simp only [get?_eq_some_iff, values, List.mem_map]
  constructor
  · rintro ⟨⟨k, w⟩, h, rfl⟩
    exact ⟨k, h⟩
  · rintro ⟨k, h⟩
    exact ⟨(k, v), h, rfl⟩

omit [DecidableLT κ] in
theorem get?_filter (m : OrderedMap κ ν) (p : κ → ν → Bool) (k : κ) :
    (m.filter p).get? k = (m.get? k).filter (p k) := by
  have hiff : ∀ v, (m.filter p).get? k = some v ↔ (m.get? k).filter (p k) = some v := by
    intro v
    rw [get?_eq_some_iff, Option.filter_eq_some_iff, get?_eq_some_iff]
    exact List.mem_filter
  exact Option.ext hiff

end OrderedMap

end Modularity
