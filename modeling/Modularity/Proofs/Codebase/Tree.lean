import Modularity.Proofs.Codebase.Indexes
import Mathlib.Logic.Relation

namespace Modularity

namespace Namespace

/-- To contain a namespace is to be met when climbing from it, one parent after the other. -/
theorem isWithin_iff_climb {a n : String} :
    isWithin a n ↔ Relation.ReflTransGen (fun x p ↦ parent? x = some p) n a := by
  constructor
  · intro h
    induction n using parent_induction with
    | root => rw [isWithin_empty_iff.1 h]
    | step n p hp ih =>
      rcases (isWithin_iff_of_parent hp).1 h with rfl | h
      · exact .refl
      · exact .head hp (ih h)
  · intro h
    induction h with
    | refl => exact isWithin_refl n
    | tail _ hp ih => exact isWithin_trans (isWithin_of_parent hp) ih

theorem eq_of_parent {a b p n : String} (ha : parent? a = some p) (hb : parent? b = some p)
    (han : isWithin a n) (hbn : isWithin b n) : a = b := by
  rcases isWithin_or_of_common han hbn with h | h
  · exact ((isWithin_iff_of_parent hb).1 h).resolve_right (not_isWithin_parent ha)
  · exact (((isWithin_iff_of_parent ha).1 h).resolve_right (not_isWithin_parent hb)).symm

end Namespace

namespace Codebase

open Namespace

variable {c : Codebase}

def Uses (c : Codebase) (space : String) : Prop :=
  (∃ id, c.contains id ∧ (c.symbol id).space = space) ∨ ∃ d ∈ c.descriptors.values, d.name = space

/-- The namespaces that are passed from one down to another one, each directly below the one before. The
first one is left out and the last one is not. -/
inductive Descent (c : Codebase) : String → List String → String → Prop
  | step {n m : String} : m ∈ c.directSubspaces n → Descent c n [m] m
  | cons {n b m : String} {path : List String} :
      b ∈ c.directSubspaces n → Descent c b path m → Descent c n (b :: path) m

theorem Coherent.mem_keys_descriptors (h : c.Coherent) {space : String} :
    space ∈ c.descriptors.keys ↔ ∃ d ∈ c.descriptors.values, d.name = space := by
  rw [OrderedMap.mem_keys]
  constructor
  · intro hx
    obtain ⟨d, hd⟩ := hx
    exact ⟨d, OrderedMap.mem_values.2 ⟨space, hd⟩, h.keyed hd⟩
  · intro hy
    obtain ⟨d, hd, rfl⟩ := hy
    obtain ⟨key, hkey⟩ := OrderedMap.mem_values.1 hd
    exact ⟨d, h.keyed hkey ▸ hkey⟩

theorem Coherent.mem_known_iff_uses (h : c.Coherent) {space : String} :
    space ∈ c.known ↔ ∃ used, c.Uses used ∧ isWithin space used := by
  rw [h.mem_known]
  constructor
  · intro hx
    rcases hx with ⟨id, hid, hwithin⟩ | ⟨name, hname, hwithin⟩
    · exact ⟨_, .inl ⟨id, hid, rfl⟩, hwithin⟩
    · exact ⟨name, .inr (h.mem_keys_descriptors.1 hname), hwithin⟩
  · intro hy
    obtain ⟨used, ⟨id, hid, rfl⟩ | hdescriptor, hwithin⟩ := hy
    · exact .inl ⟨id, hid, hwithin⟩
    · exact .inr ⟨used, h.mem_keys_descriptors.2 hdescriptor, hwithin⟩

theorem mem_subspaces {n m : String} :
    m ∈ c.subspaces n ↔ m ∈ c.known ∧ m ≠ n ∧ isWithin n m := by
  rw [subspaces, List.mem_filter, OrderedSet.mem_toList]
  simp only [Bool.and_eq_true, decide_eq_true_eq]

theorem Descent.concat {n p m : String} {path : List String} (h : c.Descent n path p)
    (hm : m ∈ c.directSubspaces p) : c.Descent n (path ++ [m]) m := by
  induction h with
  | step hp => exact .cons hp (.step hm)
  | cons hb _ ih => exact .cons hb (ih hm)

theorem Descent.mem_subspaces {n m : String} {path : List String} (h : c.Descent n path m) :
    m ∈ c.subspaces n := by
  induction h with
  | step hm =>
    obtain ⟨hknown, hparent⟩ := mem_directSubspaces.1 hm
    refine Codebase.mem_subspaces.2 ⟨hknown, ?_, isWithin_of_parent hparent⟩
    rintro rfl
    exact not_isWithin_parent hparent (isWithin_refl _)
  | cons hb _ ih =>
    obtain ⟨-, hparent⟩ := mem_directSubspaces.1 hb
    obtain ⟨hknown, -, hwithin⟩ := Codebase.mem_subspaces.1 ih
    refine Codebase.mem_subspaces.2 ⟨hknown, ?_, isWithin_trans (isWithin_of_parent hparent) hwithin⟩
    rintro rfl
    exact not_isWithin_parent hparent hwithin

theorem Descent.transGen {n m : String} {path : List String} (h : c.Descent n path m) :
    Relation.TransGen (fun a b ↦ b ∈ c.directSubspaces a) n m := by
  induction h with
  | step hm => exact .single hm
  | cons hb _ ih => exact .head hb ih

theorem exists_descent_of_transGen {n m : String}
    (h : Relation.TransGen (fun a b ↦ b ∈ c.directSubspaces a) n m) : ∃ path, c.Descent n path m := by
  induction h with
  | single hm => exact ⟨_, .step hm⟩
  | tail _ hm ih =>
    obtain ⟨path, hpath⟩ := ih
    exact ⟨_, hpath.concat hm⟩

theorem Coherent.exists_descent (h : c.Coherent) {n m : String} (hm : m ∈ c.subspaces n) :
    ∃ path, c.Descent n path m := by
  induction hk : m.toList.length using Nat.strongRecOn generalizing m with
  | ind k ih =>
    obtain ⟨hknown, hne, hwithin⟩ := Codebase.mem_subspaces.1 hm
    cases hp : parent? m with
    | none =>
      obtain rfl := parent?_eq_none.1 hp
      exact absurd (isWithin_empty_iff.1 hwithin).symm hne
    | some p =>
      have hlast : m ∈ c.directSubspaces p := mem_directSubspaces.2 ⟨hknown, hp⟩
      have habove : isWithin n p := ((isWithin_iff_of_parent hp).1 hwithin).resolve_left hne.symm
      by_cases he : p = n
      · exact ⟨[m], .step (he ▸ hlast)⟩
      · have hp' : p ∈ c.subspaces n := Codebase.mem_subspaces.2
          ⟨h.known_of_isWithin hknown (isWithin_of_parent hp), he, habove⟩
        obtain ⟨path, hpath⟩ := ih _ (hk ▸ parent_length_lt hp) hp' rfl
        exact ⟨path ++ [m], hpath.concat hlast⟩

theorem Descent.unique {n m : String} {path path' : List String} (h : c.Descent n path m)
    (h' : c.Descent n path' m) : path = path' := by
  -- A path that has arrived does not go on, since its end would lie below itself.
  have hstop : ∀ {a m : String} {rest : List String}, ¬ (a = m ∧ c.Descent a rest m) := by
    intro a m rest hx
    obtain ⟨rfl, hrest⟩ := hx
    exact (Codebase.mem_subspaces.1 hrest.mem_subspaces).2.1 rfl
  have hfirst : ∀ {n a b m : String}, a ∈ c.directSubspaces n → b ∈ c.directSubspaces n →
      isWithin a m → isWithin b m → a = b := fun ha hb ↦
    eq_of_parent (mem_directSubspaces.1 ha).2 (mem_directSubspaces.1 hb).2
  induction h generalizing path' with
  | step hm =>
    cases h' with
    | step _ => rfl
    | cons hb hrest =>
      have hwithin := (Codebase.mem_subspaces.1 hrest.mem_subspaces).2.2
      exact absurd ⟨hfirst hb hm hwithin (isWithin_refl _), hrest⟩ hstop
  | cons hb hrest ih =>
    have hwithin := (Codebase.mem_subspaces.1 hrest.mem_subspaces).2.2
    cases h' with
    | step hm => exact absurd ⟨hfirst hb hm hwithin (isWithin_refl _), hrest⟩ hstop
    | cons hb' hrest' =>
      have hwithin' := (Codebase.mem_subspaces.1 hrest'.mem_subspaces).2.2
      obtain rfl := hfirst hb hb' hwithin hwithin'
      rw [ih hrest']

theorem Coherent.nodup_shares (h : c.Coherent) (n : String) :
    (c.directlyIn n ++ (c.directSubspaces n).flatMap c.inNamespace).Nodup := by
  refine List.nodup_append.2 ⟨(h.directlyIn_ascending n).imp Nat.ne_of_lt, ?_, ?_⟩
  · refine List.nodup_flatMap.2 ⟨fun m _ ↦ (h.inNamespace_ascending m).imp Nat.ne_of_lt, ?_⟩
    have hdistinct : (c.directSubspaces n).Pairwise (· ≠ ·) :=
      (c.known.ascending.imp StrictLinear.ne_of_lt).filter _
    apply hdistinct.imp_of_mem
    intro a b ha hb hne id hida hidb
    exact hne (eq_of_parent (mem_directSubspaces.1 ha).2 (mem_directSubspaces.1 hb).2
      (h.mem_inNamespace.1 hida).2 (h.mem_inNamespace.1 hidb).2)
  · rintro id hid id' hid' rfl
    obtain ⟨m, hm, hmem⟩ := List.mem_flatMap.1 hid'
    have hspace := (h.mem_directlyIn.1 hid).2
    have hwithin := (h.mem_inNamespace.1 hmem).2
    rw [hspace] at hwithin
    exact not_isWithin_parent (mem_directSubspaces.1 hm).2 hwithin

theorem Coherent.inNamespace_perm (h : c.Coherent) (n : String) :
    (c.inNamespace n).Perm (c.directlyIn n ++ (c.directSubspaces n).flatMap c.inNamespace) := by
  have hnodup : (c.inNamespace n).Nodup := (h.inNamespace_ascending n).imp Nat.ne_of_lt
  refine (List.perm_ext_iff_of_nodup hnodup (h.nodup_shares n)).2 fun id ↦ ?_
  simp only [List.mem_append, List.mem_flatMap, h.mem_inNamespace, h.mem_directlyIn]
  constructor
  · intro hx
    obtain ⟨hid, hwithin⟩ := hx
    by_cases he : (c.symbol id).space = n
    · exact .inl ⟨hid, he⟩
    · obtain ⟨m, hparent, hm⟩ := exists_child hwithin (Ne.symm he)
      have hknown : m ∈ c.known := h.mem_known.2 (.inl ⟨id, hid, hm⟩)
      exact .inr ⟨m, mem_directSubspaces.2 ⟨hknown, hparent⟩, hid, hm⟩
  · intro hy
    rcases hy with ⟨hid, rfl⟩ | ⟨m, hm, hid, hwithin⟩
    · exact ⟨hid, isWithin_refl _⟩
    · exact ⟨hid, isWithin_trans (isWithin_of_parent (mem_directSubspaces.1 hm).2) hwithin⟩

/-- In every codebase that a program can hold the known namespaces are those that are met when climbing from
one in use, and with any of them the empty one. Below a namespace, whatever its name, are listed in
ascending order the known ones that steps to direct subspaces reach, and one path leads to each. The
members in a namespace and below it are, each once, those directly in it and those in or below one of its
direct subspaces. -/
theorem known_tree (hc : c.Reachable) :
    (∀ n, c.hasNamespace n ↔
      ∃ used, c.Uses used ∧ Relation.ReflTransGen (fun x p ↦ parent? x = some p) used n) ∧
    (c.hasNamespace "" ↔ ∃ n, c.hasNamespace n) ∧
    (∀ n, (c.subspaces n).Pairwise (· < ·) ∧
      ∀ m, m ∈ c.subspaces n ↔ Relation.TransGen (fun a b ↦ b ∈ c.directSubspaces a) n m) ∧
    (∀ n, ∀ m ∈ c.subspaces n, ∃! path, c.Descent n path m) ∧
    ∀ n, (c.inNamespace n).Perm (c.directlyIn n ++ (c.directSubspaces n).flatMap c.inNamespace) ∧
      (c.directlyIn n ++ (c.directSubspaces n).flatMap c.inNamespace).Nodup := by
  have h := hc.coherent
  have hknown : ∀ n, c.hasNamespace n ↔ n ∈ c.known := fun n ↦ decide_eq_true_iff
  refine ⟨fun n ↦ ?_, ?_, fun n ↦ ⟨c.known.ascending.filter _, fun m ↦ ?_⟩, fun n m hm ↦ ?_,
    fun n ↦ ⟨h.inNamespace_perm n, h.nodup_shares n⟩⟩
  · simp only [hknown, h.mem_known_iff_uses, isWithin_iff_climb]
  · simp only [hknown]
    constructor
    · exact fun hempty ↦ ⟨"", hempty⟩
    · intro hx
      obtain ⟨n, hn⟩ := hx
      exact h.known_of_isWithin hn (isWithin_empty n)
  · constructor
    · intro hm
      obtain ⟨path, hpath⟩ := h.exists_descent hm
      exact hpath.transGen
    · intro hsteps
      obtain ⟨path, hpath⟩ := exists_descent_of_transGen hsteps
      exact hpath.mem_subspaces
  · obtain ⟨path, hpath⟩ := h.exists_descent hm
    exact ⟨path, hpath, fun path' hpath' ↦ hpath'.unique hpath⟩

def attic : Codebase := index
  #[.ofName ".cellar.Coal", .ofName "attic..box.Lamp", .ofName "attic.Rug"] (.replicate 3 true)
  (mergeDescriptors [{ name := "porch.step" }])

theorem known_tree_attic :
    attic.Reachable ∧
    attic.known.toList = ["", ".cellar", "attic", "attic.", "attic..box", "porch", "porch.step"] ∧
    attic.subspaces "attic" = ["attic.", "attic..box"] ∧
    (∃! path, attic.Descent "attic" path "attic..box") ∧
    attic.inNamespace "attic" = [1, 2] ∧
    (attic.inNamespace "attic").Perm
      (attic.directlyIn "attic" ++ (attic.directSubspaces "attic").flatMap attic.inNamespace) := by
  have hreachable : attic.Reachable :=
    @Reachable.assembled attic.arena.toList attic.descriptors.values _ rfl
  have hsubspaces : attic.subspaces "attic" = ["attic.", "attic..box"] := by decide +kernel
  obtain ⟨-, -, -, hpath, hperm⟩ := known_tree hreachable
  refine ⟨hreachable, by decide +kernel, hsubspaces, hpath "attic" "attic..box" ?_,
    by decide +kernel, (hperm "attic").1⟩
  rw [hsubspaces]
  exact List.mem_cons_of_mem _ (List.mem_singleton_self _)

end Codebase

end Modularity
