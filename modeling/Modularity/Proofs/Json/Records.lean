import Modularity.Descriptor
import Modularity.Proofs.Json.RoundTrip
import Modularity.Symbol.Basic

namespace Modularity

namespace Json

theorem record?_obj {names : List String} {fields : List (String × Json)}
    (hnames : fields.map (·.1) = names) (hnodup : names.Nodup) :
    record? names (.obj fields) = some ⟨false, fields⟩ := by
  have hcount : ∀ name, repeats fields name = decide (1 < (fields.map (·.1)).count name) := by
    intro name
    rw [repeats, List.count_eq_length_filter, List.filter_map, List.length_map]
    congr 3
  have hnone : names.any (repeats fields) = false := by
    rw [List.any_eq_false]
    intro name _
    have honce := List.nodup_iff_count.1 hnodup name
    simp [hcount, hnames, honce]
  rw [record?, hnone]
  rfl

theorem list?_arr {α : Type} {form : α → Json} {item? : Json → Option α} {xs : List α}
    (h : ∀ x ∈ xs, item? (form x) = some x) : list? item? (.arr (xs.map form)) = some xs := by
  rw [list?]
  induction xs with
  | nil => rfl
  | cons x xs ih =>
    rw [List.map_cons, List.mapM_cons, h x (List.mem_cons_self ..),
      ih fun y hy ↦ h y (List.mem_cons_of_mem _ hy)]
    rfl

@[simp] theorem strs?_strs (ss : List String) : strs? (strs ss) = some ss :=
  list?_arr fun _ _ ↦ rfl

@[simp] theorem strSet?_strSet (s : OrderedSet String) : strSet? (strSet s) = some s := by
  rw [strSet?, strSet, strs?_strs, Option.map_some, Option.some.injEq]
  exact OrderedSet.ext fun a ↦ by rw [OrderedSet.mem_ofList, OrderedSet.mem_toList]

@[simp] theorem option?_str (s : Option String) : option? str? (orNull .str s) = some s := by
  cases s <;> rfl

@[simp] theorem option?_uint32 (n : Option UInt32) :
    option? uint32? (orNull (fun n ↦ .nat n.toNat) n) = some n := by
  cases n with
  | none => rfl
  | some n => simp [orNull, option?, uint32?, UInt32.toNat_lt_size]

theorem plain_strs (ss : List String) : Plain (strs ss) := by
  refine .arr fun j hj ↦ ?_
  obtain ⟨s, -, rfl⟩ := List.mem_map.1 hj
  exact .str s

theorem plain_orNull {α : Type} {form : α → Json} (h : ∀ a, Plain (form a)) (o : Option α) :
    Plain (orNull form o) := by
  cases o with
  | none => exact .null
  | some a => exact h a

theorem plain_arr_map {α : Type} {form : α → Json} (h : ∀ a, Plain (form a)) (xs : List α) :
    Plain (.arr (xs.map form)) := by
  refine .arr fun j hj ↦ ?_
  obtain ⟨x, -, rfl⟩ := List.mem_map.1 hj
  exact h x

end Json

open Json

theorem Reference.ofJson?_toJson (r : Reference) : ofJson? r.toJson = some r := by
  have hrecord : r.toJson.record? fieldNames = some ⟨false, _⟩ := record?_obj rfl (by decide)
  simp [ofJson?, hrecord, Record.required, Record.withDefault, List.lookup_cons, str?]

theorem Reference.plain_toJson (r : Reference) : Plain r.toJson := by
  refine .obj fun f hf ↦ ?_
  simp only [List.mem_cons, List.not_mem_nil, or_false] at hf
  rcases hf with rfl | rfl | rfl
  · exact .str _
  · exact plain_orNull .str _
  · exact plain_orNull (fun n : UInt32 ↦ .nat n.toNat) _

theorem Member.Kind.oneOf?_name (k : Kind) : oneOf? all name (.str k.name) = some k := by
  cases k <;> decide

theorem Member.ofJson?_toJson (m : Member) : ofJson? m.toJson = some m := by
  have hrecord : m.toJson.record? fieldNames = some ⟨false, _⟩ := record?_obj rfl (by decide)
  simp [ofJson?, hrecord, Record.required, Record.withDefault, List.lookup_cons, str?,
    Kind.oneOf?_name]

theorem Member.plain_toJson (m : Member) : Plain m.toJson := by
  refine .obj fun f hf ↦ ?_
  simp only [List.mem_cons, List.not_mem_nil, or_false] at hf
  rcases hf with rfl | rfl | rfl | rfl | rfl | rfl
  · exact .str _
  · exact .str _
  · exact plain_strs _
  · exact plain_strs _
  · exact plain_orNull .str _
  · exact plain_orNull (fun n : UInt32 ↦ .nat n.toNat) _

theorem Symbol.Kind.oneOf?_name (k : Kind) : oneOf? all name (.str k.name) = some k := by
  cases k <;> decide

theorem Visibility.oneOf?_name (v : Visibility) : oneOf? all name (.str v.name) = some v := by
  cases v <;> decide

theorem Symbol.ofJson?_toJson (s : Symbol) : ofJson? s.toJson = some s := by
  have hrecord : s.toJson.record? fieldNames = some ⟨false, _⟩ := record?_obj rfl (by decide)
  have hmembers : list? Member.ofJson? (.arr (s.members.map Member.toJson)) = some s.members :=
    list?_arr fun m _ ↦ m.ofJson?_toJson
  have hreferences :
      list? Reference.ofJson? (.arr (s.references.map Reference.toJson)) = some s.references :=
    list?_arr fun r _ ↦ r.ofJson?_toJson
  simp [ofJson?, hrecord, Record.required, Record.withDefault, List.lookup_cons, str?,
    Kind.oneOf?_name, Visibility.oneOf?_name, hmembers, hreferences]

theorem Symbol.plain_toJson (s : Symbol) : Plain s.toJson := by
  refine .obj fun f hf ↦ ?_
  simp only [List.mem_cons, List.not_mem_nil, or_false] at hf
  rcases hf with rfl | rfl | rfl | rfl | rfl | rfl | rfl | rfl | rfl
  · exact .str _
  · exact .str _
  · exact .str _
  · exact .str _
  · exact plain_strs _
  · exact plain_strs _
  · exact plain_arr_map Member.plain_toJson _
  · exact plain_arr_map Reference.plain_toJson _
  · exact plain_strs _

theorem Declaration.ofJson?_toJson (d : Declaration) : ofJson? d.toJson = some d := by
  have hrecord : d.toJson.record? fieldNames = some ⟨false, _⟩ := record?_obj rfl (by decide)
  simp [ofJson?, hrecord, Record.withDefault, List.lookup_cons, bool?]

theorem Declaration.plain_toJson (d : Declaration) : Plain d.toJson := by
  refine .obj fun f hf ↦ ?_
  simp only [List.mem_cons, List.not_mem_nil, or_false] at hf
  rcases hf with rfl | rfl | rfl
  · exact plain_orNull .str _
  · exact plain_strs _
  · exact .bool _

theorem Descriptor.ofJson?_toJson (d : Descriptor) : ofJson? d.toJson = some d := by
  have hrecord : d.toJson.record? fieldNames = some ⟨false, _⟩ := record?_obj rfl (by decide)
  have hmodule : option? Declaration.ofJson? (orNull Declaration.toJson d.module) =
      some d.module := by
    cases d.module with
    | none => rfl
    | some declaration =>
      have hsome : option? Declaration.ofJson? declaration.toJson =
          (Declaration.ofJson? declaration.toJson).map some := rfl
      rw [orNull, hsome, declaration.ofJson?_toJson]
      rfl
  simp [ofJson?, hrecord, Record.required, Record.withDefault, List.lookup_cons, str?, hmodule]

theorem Descriptor.plain_toJson (d : Descriptor) : Plain d.toJson := by
  refine .obj fun f hf ↦ ?_
  simp only [List.mem_cons, List.not_mem_nil, or_false] at hf
  rcases hf with rfl | rfl | rfl | rfl
  · exact .str _
  · exact plain_strs _
  · exact plain_orNull Declaration.plain_toJson _
  · exact plain_strs _

end Modularity
