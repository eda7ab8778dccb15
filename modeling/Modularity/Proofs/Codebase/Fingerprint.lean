import Modularity.Proofs.Codebase.Content
import Modularity.Proofs.Fingerprint.Numeral

namespace Modularity.Codebase

variable {c d : Codebase}

structure SameContent (c d : Codebase) : Prop where
  symbols : c.members.map (·.1) = d.members.map (·.1)
  descriptors : c.descriptors.values = d.descriptors.values

theorem SameContent.content (h : SameContent c d) : c.content = d.content := by
  rw [content_eq, content_eq, h.symbols, h.descriptors]

theorem zero_notMem_part {part : String} (h : part ∈ c.content) :
    (0 : UInt8) ∉ Fingerprint.utf8 part :=
  Fingerprint.zero_notMem_utf8 (nul_notMem_content h)

theorem bytes_eq_iff (hc : c.Coherent) (hd : d.Coherent) :
    Fingerprint.bytes c.content = Fingerprint.bytes d.content ↔ SameContent c d := by
  constructor
  · intro h
    obtain ⟨hsymbols, hdescriptors⟩ := visible_eq_of_bytes hc hd h
    exact ⟨hsymbols, congrArg _ hdescriptors⟩
  · exact fun h ↦ congrArg _ h.content

theorem fingerprint_eq_iff :
    c.fingerprint = d.fingerprint ↔
      Xxh64.hash (Fingerprint.bytes c.content) = Xxh64.hash (Fingerprint.bytes d.content) :=
  ⟨Base62.encode_injective, fun h ↦ congrArg Base62.encode h⟩

/-- The bytes under a fingerprint determine the content and are determined by it. So codebases whose
bytes have one hash only if they are the same have one fingerprint exactly if they have one content. No
part of the content has the byte that ends a part, and the part of a symbol is never that of a
descriptor. -/
theorem content_determined (hc : c.Reachable) (hd : d.Reachable) :
    (Fingerprint.bytes c.content = Fingerprint.bytes d.content ↔ SameContent c d) ∧
    ((Xxh64.hash (Fingerprint.bytes c.content) = Xxh64.hash (Fingerprint.bytes d.content) →
        Fingerprint.bytes c.content = Fingerprint.bytes d.content) →
      (c.fingerprint = d.fingerprint ↔ SameContent c d)) ∧
    (∀ part ∈ c.content, (0 : UInt8) ∉ Fingerprint.utf8 part) ∧
    ∀ (s : Symbol) (x : Descriptor), s.toJson.text ≠ x.toJson.text := by
  have hbytes := bytes_eq_iff hc.coherent hd.coherent
  refine ⟨hbytes, fun hhash ↦ ?_, fun part ↦ zero_notMem_part, Symbol.text_ne_descriptor⟩
  rw [fingerprint_eq_iff, ← hbytes]
  exact ⟨hhash, congrArg _⟩

/-- A shop and the same shop behind a hidden library. -/
theorem content_determined_annex :
    annex.Reachable ∧ shop.Reachable ∧
      Fingerprint.bytes annex.content = Fingerprint.bytes shop.content ∧
      annex.fingerprint = shop.fingerprint ∧ SameContent annex shop := by
  have hbytes : Fingerprint.bytes annex.content = Fingerprint.bytes shop.content :=
    congrArg Fingerprint.bytes annex_content
  obtain ⟨hsame, hfingerprint, -⟩ := content_determined annex_reachable shop_reachable
  exact ⟨annex_reachable, shop_reachable, hbytes,
    (hfingerprint fun _ ↦ hbytes).2 (hsame.1 hbytes), hsame.1 hbytes⟩

end Modularity.Codebase
