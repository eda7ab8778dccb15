import Modularity.Codebase.Snapshot
import Modularity.Proofs.Json.Pretty
import Modularity.Proofs.Json.Records
import Modularity.Report.Basic

namespace Modularity

namespace Json

variable {α : Type} {form : α → Json} {read? : Json → Option α} {a : α}

structure ReadsBack (form : α → Json) (read? : Json → Option α) (a : α) : Prop where
  text : (ofString? (form a).text).bind read? = some a
  prettyText : (ofString? (form a).prettyText).bind read? = some a

theorem ReadsBack.of_plain (hplain : Plain (form a)) (hread : read? (form a) = some a) :
    ReadsBack form read? a where
  text := by rw [ofString?_text hplain, Option.bind_some, hread]
  prettyText := by rw [ofString?_prettyText hplain, Option.bind_some, hread]

theorem count?_nat {n : Nat} (h : n < UInt64.size) : count? (.nat n) = some n := if_pos h

end Json

open Json

theorem Snapshot.ofJson?_toJson (s : Snapshot) : ofJson? s.toJson = some s := by
  have hrecord : s.toJson.record? fieldNames = some ⟨false, _⟩ := record?_obj rfl (by decide)
  have hdescriptors :
      list? Descriptor.ofJson? (.arr (s.descriptors.map Descriptor.toJson)) = some s.descriptors :=
    list?_arr fun d _ ↦ d.ofJson?_toJson
  have hsymbols : list? Symbol.ofJson? (.arr (s.symbols.map Symbol.toJson)) = some s.symbols :=
    list?_arr fun x _ ↦ x.ofJson?_toJson
  simp [ofJson?, hrecord, Record.withDefault, List.lookup_cons, hdescriptors, hsymbols]

theorem Snapshot.plain_toJson (s : Snapshot) : Plain s.toJson := by
  refine .obj fun f hf ↦ ?_
  simp only [List.mem_cons, List.not_mem_nil, or_false] at hf
  rcases hf with rfl | rfl
  · exact plain_arr_map Descriptor.plain_toJson _
  · exact plain_arr_map Symbol.plain_toJson _

theorem Vocabulary.ofJson?_toJson (v : Vocabulary) : ofJson? v.toJson = some v := by
  have hrecord : v.toJson.record? fieldNames = some ⟨false, _⟩ := record?_obj rfl (by decide)
  simp [ofJson?, hrecord, Record.withDefault, List.lookup_cons]

theorem Vocabulary.plain_toJson (v : Vocabulary) : Plain v.toJson := by
  refine .obj fun f hf ↦ ?_
  simp only [List.mem_cons, List.not_mem_nil, or_false] at hf
  rcases hf with rfl | rfl | rfl | rfl | rfl | rfl | rfl <;> exact plain_strs _

theorem Detection.oneOf?_name (x : Detection) : oneOf? all name (.str x.name) = some x := by
  cases x <;> decide

theorem Naming.oneOf?_name (x : Naming) : oneOf? all name (.str x.name) = some x := by
  cases x <;> decide

theorem Config.ofJson?_toJson (c : Config) : ofJson? c.toJson = some c := by
  have hrecord : c.toJson.record? fieldNames = some ⟨false, _⟩ := record?_obj rfl (by decide)
  simp [ofJson?, hrecord, Record.withDefault, List.lookup_cons, Detection.oneOf?_name,
    Naming.oneOf?_name, Vocabulary.ofJson?_toJson]

theorem Config.plain_toJson (c : Config) : Plain c.toJson := by
  refine .obj fun f hf ↦ ?_
  simp only [List.mem_cons, List.not_mem_nil, or_false] at hf
  rcases hf with rfl | rfl | rfl | rfl | rfl | rfl | rfl | rfl | rfl
  · exact plain_strs _
  · exact plain_strs _
  · exact .str _
  · exact .str _
  · exact plain_strs _
  · exact plain_strs _
  · exact c.vocabulary.plain_toJson
  · exact plain_strs _
  · exact plain_strs _

theorem Violation.Kind.oneOf?_name (k : Kind) : oneOf? all name (.str k.name) = some k := by
  cases k <;> decide

theorem Violation.ofJson?_toJson (v : Violation) : ofJson? v.toJson = some v := by
  have hrecord : v.toJson.record? fieldNames = some ⟨false, _⟩ := record?_obj rfl (by decide)
  simp [ofJson?, hrecord, Record.required, Record.nullable, List.lookup_cons, str?, Kind.oneOf?_name]

theorem Violation.plain_toJson (v : Violation) : Plain v.toJson := by
  refine .obj fun f hf ↦ ?_
  simp only [List.mem_cons, List.not_mem_nil, or_false] at hf
  rcases hf with rfl | rfl | rfl | rfl
  · exact .str _
  · exact plain_orNull .str _
  · exact .str _
  · exact plain_orNull .str _

def DependencySummary.Counted (s : DependencySummary) : Prop := s.count < UInt64.size

def ModuleSummary.Counted (s : ModuleSummary) : Prop :=
  s.qualifying < UInt64.size ∧ ∀ d ∈ s.dependencies, d.Counted

def Report.Counted (r : Report) : Prop := ∀ s ∈ r.modules, s.Counted

theorem Edge.Kind.oneOf?_name (k : Kind) : oneOf? all name (.str k.name) = some k := by
  cases k <;> decide

theorem DependencySummary.ofJson?_toJson {s : DependencySummary} (h : s.Counted) :
    ofJson? s.toJson = some s := by
  have hrecord : s.toJson.record? fieldNames = some ⟨false, _⟩ := record?_obj rfl (by decide)
  simp [ofJson?, hrecord, Record.required, List.lookup_cons, str?, Edge.Kind.oneOf?_name, count?_nat h]

theorem DependencySummary.plain_toJson (s : DependencySummary) : Plain s.toJson := by
  refine .obj fun f hf ↦ ?_
  simp only [List.mem_cons, List.not_mem_nil, or_false] at hf
  rcases hf with rfl | rfl | rfl
  · exact .str _
  · exact .str _
  · exact .nat _

theorem ModuleSummary.ofJson?_toJson {s : ModuleSummary} (h : s.Counted) :
    ofJson? s.toJson = some s := by
  have hrecord : s.toJson.record? fieldNames = some ⟨false, _⟩ := record?_obj rfl (by decide)
  have hdependencies :
      list? DependencySummary.ofJson? (.arr (s.dependencies.map DependencySummary.toJson)) =
        some s.dependencies :=
    list?_arr fun d hd ↦ DependencySummary.ofJson?_toJson (h.2 d hd)
  simp [ofJson?, hrecord, Record.required, List.lookup_cons, str?, count?_nat h.1, hdependencies]

theorem ModuleSummary.plain_toJson (s : ModuleSummary) : Plain s.toJson := by
  refine .obj fun f hf ↦ ?_
  simp only [List.mem_cons, List.not_mem_nil, or_false] at hf
  rcases hf with rfl | rfl | rfl | rfl | rfl | rfl | rfl
  · exact .str _
  · exact .str _
  · exact .str _
  · exact .nat _
  · exact plain_strs _
  · exact plain_strs _
  · exact plain_arr_map DependencySummary.plain_toJson _

theorem Report.ofJson?_toJson {r : Report} (h : r.Counted) : ofJson? r.toJson = some r := by
  have hrecord : r.toJson.record? fieldNames = some ⟨false, _⟩ := record?_obj rfl (by decide)
  have hmodules : list? ModuleSummary.ofJson? (.arr (r.modules.map ModuleSummary.toJson)) =
      some r.modules := list?_arr fun s hs ↦ ModuleSummary.ofJson?_toJson (h s hs)
  have hviolations : ∀ vs : List Violation,
      list? Violation.ofJson? (.arr (vs.map Violation.toJson)) = some vs :=
    fun vs ↦ list?_arr fun v _ ↦ v.ofJson?_toJson
  simp [ofJson?, hrecord, Record.required, List.lookup_cons, str?, hmodules, hviolations]

theorem Report.plain_toJson (r : Report) : Plain r.toJson := by
  refine .obj fun f hf ↦ ?_
  simp only [List.mem_cons, List.not_mem_nil, or_false] at hf
  rcases hf with rfl | rfl | rfl | rfl | rfl | rfl | rfl
  · exact .str _
  · exact .str _
  · exact .str _
  · exact plain_strs _
  · exact plain_arr_map ModuleSummary.plain_toJson _
  · exact plain_arr_map Violation.plain_toJson _
  · exact plain_arr_map Violation.plain_toJson _

theorem Snapshot.readsBack (s : Snapshot) : ReadsBack toJson ofJson? s :=
  .of_plain s.plain_toJson s.ofJson?_toJson

theorem Codebase.ofText_eq {text : String} {s : Snapshot}
    (h : (ofString? text).bind Snapshot.ofJson? = some s) : ofText text = ofSnapshot s := by
  rw [ofText, h]

/-- Whatever is written in JSON is read back from both of its texts, reports as long as their counts fit
a word. So a codebase is the same, or refused with the same fault, whether its snapshot is handed over as
a value or as a text; and a text that is read as a snapshot may be replaced by what is written for that
snapshot. -/
theorem reads_back :
    (∀ s : Symbol, ReadsBack Symbol.toJson Symbol.ofJson? s) ∧
    (∀ m : Member, ReadsBack Member.toJson Member.ofJson? m) ∧
    (∀ r : Reference, ReadsBack Reference.toJson Reference.ofJson? r) ∧
    (∀ d : Descriptor, ReadsBack Descriptor.toJson Descriptor.ofJson? d) ∧
    (∀ d : Declaration, ReadsBack Declaration.toJson Declaration.ofJson? d) ∧
    (∀ s : Snapshot, ReadsBack Snapshot.toJson Snapshot.ofJson? s) ∧
    (∀ v : Vocabulary, ReadsBack Vocabulary.toJson Vocabulary.ofJson? v) ∧
    (∀ c : Config, ReadsBack Config.toJson Config.ofJson? c) ∧
    (∀ v : Violation, ReadsBack Violation.toJson Violation.ofJson? v) ∧
    (∀ r : Report, r.Counted → ReadsBack Report.toJson Report.ofJson? r) ∧
    (∀ s : Snapshot, Codebase.ofText s.toJson.text = Codebase.ofSnapshot s ∧
      Codebase.ofText s.toJson.prettyText = Codebase.ofSnapshot s) ∧
    ∀ (text : String) (s : Snapshot), (ofString? text).bind Snapshot.ofJson? = some s →
      (ofString? s.toJson.text).bind Snapshot.ofJson? = (ofString? text).bind Snapshot.ofJson? ∧
      (ofString? s.toJson.prettyText).bind Snapshot.ofJson? =
        (ofString? text).bind Snapshot.ofJson? := by
  refine ⟨fun s ↦ .of_plain s.plain_toJson s.ofJson?_toJson,
    fun m ↦ .of_plain m.plain_toJson m.ofJson?_toJson,
    fun r ↦ .of_plain r.plain_toJson r.ofJson?_toJson,
    fun d ↦ .of_plain d.plain_toJson d.ofJson?_toJson,
    fun d ↦ .of_plain d.plain_toJson d.ofJson?_toJson,
    Snapshot.readsBack,
    fun v ↦ .of_plain v.plain_toJson v.ofJson?_toJson,
    fun c ↦ .of_plain c.plain_toJson c.ofJson?_toJson,
    fun v ↦ .of_plain v.plain_toJson v.ofJson?_toJson,
    fun r h ↦ .of_plain r.plain_toJson (Report.ofJson?_toJson h), fun s ↦ ?_, fun text s htext ↦ ?_⟩
  · exact ⟨Codebase.ofText_eq s.readsBack.text, Codebase.ofText_eq s.readsBack.prettyText⟩
  · rw [htext]
    exact ⟨s.readsBack.text, s.readsBack.prettyText⟩

def stockReport : Report where
  version := "0.1.0"
  command := "verify"
  status := "error"
  roots := ["shop", ""]
  modules := [{
    name := "orders", displayName := "Orders \"1\"", space := "shop.orders", qualifying := 2
    interfaces := [], allowed := ["stock"], dependencies := [⟨"stock", .usesComponent, 3⟩] }]
  errors := [{ kind := .cycle, module := none, message := "Cycle detected:\n\torders \u0001" }]
  warnings := []

/-- The report, and a snapshot that is read from a text without any field name. -/
theorem reads_back_stock :
    stockReport.Counted ∧
      (ofString? stockReport.toJson.prettyText).bind Report.ofJson? = some stockReport ∧
      (ofString? "[[],[[\"shop.Main\",\"shop\"]]]").bind Snapshot.ofJson? =
        some { symbols := [{ name := "shop.Main", space := "shop" }] } ∧
      (ofString? (Snapshot.toJson { symbols := [{ name := "shop.Main", space := "shop" }] }).prettyText).bind
          Snapshot.ofJson? = some { symbols := [{ name := "shop.Main", space := "shop" }] } := by
  have hcounted : stockReport.Counted := by
    intro s hs
    obtain rfl := List.mem_singleton.1 hs
    refine ⟨by decide, fun d hd ↦ ?_⟩
    obtain rfl := List.mem_singleton.1 hd
    exact (by decide : 3 < UInt64.size)
  have htext : (ofString? "[[],[[\"shop.Main\",\"shop\"]]]").bind Snapshot.ofJson? =
      some { symbols := [{ name := "shop.Main", space := "shop" }] } := by
    decide +kernel
  obtain ⟨-, -, -, -, -, -, -, -, -, hreport, -, hsnapshot⟩ := reads_back
  refine ⟨hcounted, (hreport _ hcounted).prettyText, htext, ?_⟩
  rw [(hsnapshot _ _ htext).2, htext]

end Modularity
