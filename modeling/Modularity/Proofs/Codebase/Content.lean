import Modularity.Proofs.Codebase.Relocation
import Modularity.Proofs.Fingerprint.Bytes
import Modularity.Proofs.Json.Records

namespace Modularity

namespace Json

theorem mem_commas {α : Type} {between : List α} {parts : List (List α)} {a : α}
    (h : a ∈ commas between parts) : a ∈ between ∨ ∃ part ∈ parts, a ∈ part := by
  induction parts with
  | nil => nomatch h
  | cons part rest ih =>
    cases rest with
    | nil => exact .inr ⟨part, List.mem_cons_self .., h⟩
    | cons next rest =>
      rw [commas_cons_cons, List.mem_append, List.mem_append] at h
      rcases h with h | h | h
      · exact .inr ⟨part, List.mem_cons_self .., h⟩
      · exact .inl h
      · rcases ih h with h | ⟨p, hp, hap⟩
        · exact .inl h
        · exact .inr ⟨p, List.mem_cons_of_mem _ hp, hap⟩

theorem hexDigit_ne_nul (n : Nat) : hexDigit n ≠ '\x00' := by
  have hall : ∀ k < 16, Nat.digitChar k ≠ '\x00' := by decide
  exact hall _ (Nat.mod_lt _ (by decide))

theorem nul_notMem_escape (c : Char) : '\x00' ∉ escape c := by
  unfold escape
  repeat' split
  all_goals
    simp only [List.mem_cons, List.not_mem_nil, or_false, not_or]
  · decide
  · decide
  · decide
  · decide
  · decide
  · decide
  · decide
  · exact ⟨by decide, by decide, by decide, by decide, (hexDigit_ne_nul _).symm,
      (hexDigit_ne_nul _).symm⟩
  · rename_i hge
    intro hx
    subst hx
    exact hge (by decide)

theorem nul_notMem_quote (s : String) : '\x00' ∉ quote s := by
  rw [quote, List.cons_append, List.mem_cons, List.mem_append, List.mem_flatMap]
  intro hx
  rcases hx with h | ⟨c, -, h⟩ | h
  · nomatch h
  · exact nul_notMem_escape c h
  · simp at h

theorem exists_of_mem_compactFields {fields : List (String × Json)} {part : List Char}
    (h : part ∈ compactFields fields) :
    ∃ f ∈ fields, part = quote f.1 ++ ':' :: f.2.compact := by
  induction fields with
  | nil => nomatch h
  | cons f rest ih =>
    obtain ⟨key, value⟩ := f
    rcases List.mem_cons.1 h with rfl | h
    · exact ⟨(key, value), List.mem_cons_self .., rfl⟩
    · obtain ⟨f, hf, hpart⟩ := ih h
      exact ⟨f, List.mem_cons_of_mem _ hf, hpart⟩

theorem nul_notMem_compact {j : Json} (h : Plain j) : '\x00' ∉ j.compact := by
  induction h with
  | null => decide
  | bool b => cases b <;> decide
  | nat n =>
    intro hmem
    have hdigit := List.all_eq_true.1 (all_isDigit_toDigits n) _ hmem
    nomatch hdigit
  | str s => exact nul_notMem_quote s
  | @arr items _ ih =>
    rw [compact, compactItems_eq, List.cons_append, List.mem_cons, List.mem_append]
    intro hx
    rcases hx with h | h | h
    · nomatch h
    · rcases mem_commas h with h | ⟨part, hpart, h⟩
      · simp at h
      · obtain ⟨item, hitem, rfl⟩ := List.mem_map.1 hpart
        exact ih item hitem h
    · simp at h
  | @obj fields _ ih =>
    rw [compact, List.cons_append, List.mem_cons, List.mem_append]
    intro hy
    rcases hy with h | h | h
    · nomatch h
    · rcases mem_commas h with h | ⟨part, hpart, h⟩
      · simp at h
      · obtain ⟨f, hf, rfl⟩ := exists_of_mem_compactFields hpart
        rcases List.mem_append.1 h with h | h
        · exact nul_notMem_quote f.1 h
        · rcases List.mem_cons.1 h with h | h
          · nomatch h
          · exact ih f hf h
    · simp at h

theorem nul_notMem_text {j : Json} (h : Plain j) : '\x00' ∉ j.text.toList := by
  rw [text, String.toList_ofList]
  exact nul_notMem_compact h

theorem eq_of_form_text {α : Type} {form : α → Json} {read? : Json → Option α}
    (hplain : ∀ a, Plain (form a)) (hread : ∀ a, read? (form a) = some a) {a b : α}
    (h : (form a).text = (form b).text) : a = b := by
  have hform := eq_of_text (hplain a) (hplain b) h
  have hsame := hread a
  rw [hform, hread b] at hsame
  exact (Option.some.inj hsame).symm

end Json

theorem Symbol.eq_of_text {s t : Symbol} (h : s.toJson.text = t.toJson.text) : s = t :=
  Json.eq_of_form_text Symbol.plain_toJson Symbol.ofJson?_toJson h

theorem Descriptor.eq_of_text {d e : Descriptor} (h : d.toJson.text = e.toJson.text) : d = e :=
  Json.eq_of_form_text Descriptor.plain_toJson Descriptor.ofJson?_toJson h

theorem Symbol.text_ne_descriptor (s : Symbol) (d : Descriptor) : s.toJson.text ≠ d.toJson.text := by
  intro h
  have hjson := Json.eq_of_text s.plain_toJson d.plain_toJson h
  have hsize := congrArg List.length (Json.obj.inj hjson)
  nomatch hsize

/-- Two sequences that are joined can be told apart again if no form of the one is a form of the
other. -/
theorem eq_of_map_append_map {α β γ : Type} {f : α → γ} {g : β → γ} (hf : ∀ {a a'}, f a = f a' → a = a')
    (hg : ∀ {b b'}, g b = g b' → b = b') (hne : ∀ a b, f a ≠ g b) {as as' : List α} {bs bs' : List β}
    (h : as.map f ++ bs.map g = as'.map f ++ bs'.map g) : as = as' ∧ bs = bs' := by
  have hnil : ∀ {a : α} {as : List α} {bs bs' : List β}, bs.map g ≠ f a :: (as.map f ++ bs'.map g) := by
    intro a as bs bs' h
    have hmem : f a ∈ bs.map g := h ▸ List.mem_cons_self ..
    obtain ⟨b, -, hb⟩ := List.mem_map.1 hmem
    exact hne a b hb.symm
  induction as generalizing as' with
  | nil =>
    cases as' with
    | nil => exact ⟨rfl, List.map_injective_iff.2 (fun _ _ ↦ hg) h⟩
    | cons a as' => exact absurd h hnil
  | cons a as ih =>
    cases as' with
    | nil => exact absurd h.symm hnil
    | cons a' as' =>
      obtain ⟨hhead, htail⟩ := List.cons.inj h
      obtain ⟨rfl, hbs⟩ := ih htail
      exact ⟨congrArg (· :: as) (hf hhead), hbs⟩

theorem OrderedMap.eq_of_values {κ ν : Type} [LT κ] {key : ν → κ} {m n : OrderedMap κ ν}
    (hm : ∀ e ∈ m.entries, key e.2 = e.1) (hn : ∀ e ∈ n.entries, key e.2 = e.1)
    (h : m.values = n.values) : m = n := by
  have hentries : ∀ {m : OrderedMap κ ν}, (∀ e ∈ m.entries, key e.2 = e.1) →
      m.entries = m.values.map fun v ↦ (key v, v) := fun {m} hm ↦ by
    rw [values, List.map_map]
    exact (List.map_id'' (fun e ↦ rfl) _).symm.trans
      (List.map_congr_left fun e he ↦ Prod.ext (hm e he).symm rfl)
  have heq : m.entries = n.entries := by rw [hentries hm, hentries hn, h]
  cases m
  cases n
  congr 1

namespace Codebase

variable {c d : Codebase}

theorem nul_notMem_content {text : String} (h : text ∈ c.content) : '\x00' ∉ text.toList := by
  rcases List.mem_append.1 h with h | h
  · obtain ⟨p, -, rfl⟩ := List.mem_map.1 h
    exact Json.nul_notMem_text p.1.plain_toJson
  · obtain ⟨e, -, rfl⟩ := List.mem_map.1 h
    exact Json.nul_notMem_text e.plain_toJson

theorem content_eq (c : Codebase) : c.content =
    (c.members.map (·.1)).map (·.toJson.text) ++ c.descriptors.values.map (·.toJson.text) := by
  rw [List.map_map]
  rfl

/-- The bytes under a fingerprint determine all that is visible: the members without their positions and
the descriptors. -/
theorem visible_eq_of_bytes (hc : c.Coherent) (hd : d.Coherent)
    (h : Fingerprint.bytes c.content = Fingerprint.bytes d.content) :
    c.members.map (·.1) = d.members.map (·.1) ∧ c.descriptors = d.descriptors := by
  have hcontent := Fingerprint.eq_of_bytes (fun _ ↦ nul_notMem_content)
    (fun _ ↦ nul_notMem_content) h
  rw [content_eq, content_eq] at hcontent
  obtain ⟨hsymbols, hvalues⟩ := eq_of_map_append_map Symbol.eq_of_text Descriptor.eq_of_text
    Symbol.text_ne_descriptor hcontent
  exact ⟨hsymbols, OrderedMap.eq_of_values
    (fun e he ↦ hc.keyed (OrderedMap.get?_eq_some_iff.2 he))
    (fun e he ↦ hd.keyed (OrderedMap.get?_eq_some_iff.2 he)) hvalues⟩

/-- Codebases of one content are relocations of one codebase. -/
theorem Coherent.compacted_relocates_of_bytes (hc : c.Coherent) (hd : d.Coherent)
    (hbytes : Fingerprint.bytes c.content = Fingerprint.bytes d.content) :
    c.compacted.Relocates d.origin d := by
  obtain ⟨hsymbols, hdescriptors⟩ := visible_eq_of_bytes hc hd hbytes
  have hcompact : c.compacted = d.compacted := by
    rw [Codebase.compacted, Codebase.compacted, hsymbols, hdescriptors]
  exact hcompact ▸ hd.compacted_relocates

def annex : Codebase := (index
  (#[Symbol.ofName "lib.Text"] ++ shop.arena) (.replicate 4 true) .empty).restrict ["shop"] .none

theorem annex_reachable : annex.Reachable :=
  .restricted _ _ (@Reachable.assembled (Symbol.ofName "lib.Text" :: shop.arena.toList) [] _ rfl)

theorem annex_content : annex.content = shop.content := by
  have hmembers : annex.members.map (·.1) = shop.members.map (·.1) := by decide +kernel
  have hdescriptors : annex.descriptors = shop.descriptors := by decide +kernel
  rw [content_eq, content_eq, hmembers, hdescriptors]

def stall : Codebase :=
  index #[.ofName "shop.a_shipping_or_any_other_namespace_ymlrYOeo.OrderBook"] #[true] .empty

/-- A shop with another symbol. Two words of its content differ from those of `stall` in each of two lanes
of the hash, and the second word undoes what the first one does. -/
def twin : Codebase :=
  index #[.ofName "shop.a_uyRBTwxy_or_any_other_namespace_hRRCozhj.OrderBook"] #[true] .empty

theorem stall_reachable : stall.Reachable := @Reachable.assembled stall.arena.toList [] _ rfl

theorem twin_reachable : twin.Reachable := @Reachable.assembled twin.arena.toList [] _ rfl

theorem fingerprint_single (s : Symbol) : (index #[s] #[true] .empty).fingerprint =
    Base62.encode (Xxh64.hash (s.toJson.compact.flatMap String.utf8EncodeChar ++ [0])) := by
  have hcontent : (index #[s] #[true] .empty).content = [s.toJson.text] := rfl
  rw [fingerprint, hcontent]
  simp [Fingerprint.ofParts, Fingerprint.bytes, Fingerprint.utf8, Json.text]

theorem twin_fingerprint : twin.fingerprint = stall.fingerprint := by
  rw [twin, stall, fingerprint_single, fingerprint_single]
  exact congrArg _ (by decide +kernel)

end Codebase

end Modularity
