import FacetQL.Storage.View

/-!
# What the keys of the indexes say

An index over a field answers ranges and prefixes from the bytes of its keys alone, and an
inverted index substrings from trigrams. This rests on the laws below.
-/

namespace FacetQL

open Keys

/-! ## The keys of an index over a field -/

theorem utf8_prefix_iff {p s : String} : utf8 p <+: utf8 s ↔ p.toList <+: s.toList := by
  constructor
  · rintro ⟨rest, hrest⟩
    refine List.isPrefix_of_utf8Encode_append_eq_utf8Encode (rest.map UInt8.ofFin).toByteArray ?_
    rw [← toByteArray_asBytes, ← toByteArray_asBytes, ← List.toByteArray_append, ← List.map_append]
    exact congrArg (fun bytes => (bytes.map UInt8.ofFin).toByteArray) hrest
  · rintro ⟨rest, hrest⟩
    exact ⟨asBytes rest, by rw [utf8, utf8, ← hrest, asBytes_append]⟩

/-- The value and the address in a key, and the keys with a prefix. -/
theorem dataKey_laws (J : SerdeJson) (v w : Option J.Value) (a p : String) :
    addressFromDataKey (dataKey J v a) = some (utf8 a) ∧
      (encodeOrderValue J v <+: dataKey J w a ↔ encodeOrderValue J v = encodeOrderValue J w) ∧
      (encodeStringPrefix J p <+: dataKey J w a ↔
        ∃ s, w = some (.string s) ∧ p.toList <+: s.toList) := by
  refine ⟨addressFromDataKey_dataKey,
    List.isPrefixOf_iff_prefix.symm.trans encodeOrderValue_isPrefixOf, ?_⟩
  constructor
  · intro h
    have hbody : typeRank J (some (.string "")) :: utf8 p <+: encodeValueBody J w :=
      prefix_of_escape_prefix h
    obtain ⟨hrank, htext⟩ := List.cons_prefix_cons.1 hbody
    rcases w with _ | _ | _ | _ | s | _ | _ <;> cases hrank
    exact ⟨s, rfl, utf8_prefix_iff.1 htext⟩
  · rintro ⟨s, rfl, hstarts⟩
    obtain ⟨rest, hrest⟩ := utf8_prefix_iff.2 hstarts
    refine ⟨appendEscaped rest ++ utf8 a, ?_⟩
    rw [dataKey, encodeOrderValue, encodeValueBody, ← hrest]
    simp [encodeStringPrefix, appendEscaped, escape, typeRank]

/-! ## The postings of an inverted index -/

theorem utf8_isInfix {s text : String} (h : s.toList <:+: text.toList) : utf8 s <:+: utf8 text := by
  obtain ⟨before, after, heq⟩ := h
  exact ⟨asBytes before, asBytes after, by rw [utf8, utf8, ← heq, asBytes_append, asBytes_append]⟩

/-- A text has the trigrams of what it contains. -/
theorem TextIndexDef.grams_subset_postings (st : Settings) (decl : TextIndexDef) (v s : String)
    (h : decl.folded = false ∧ Predicate.contains v s = true ∨
      decl.folded = true ∧ Predicate.contains (Predicate.goLower st.lowerTable v) s = true) :
    (∀ gram ∈ grams s, gram ∈ decl.postings st v) ∧
      ∀ gram address, gram.length = gramLen → address ≠ "" →
        addressFromTextKey (textKey gram address) = some (utf8 address) := by
  constructor
  · intro gram hgram
    obtain ⟨hlength, hinfix⟩ := mem_grams.1 hgram
    refine mem_grams.2 ⟨hlength, hinfix.trans ((utf8_isInfix ?_).map _)⟩
    rcases h with ⟨hfolded, h⟩ | ⟨hfolded, h⟩
    · rw [indexedForm, hfolded]
      exact Predicate.contains_iff.1 h
    · rw [indexedForm, hfolded]
      exact Predicate.contains_iff.1 h
  · intro gram address hgram haddress
    have hpos : 0 < (utf8 address).length := by
      rw [length_utf8]
      exact Nat.pos_of_ne_zero fun h => haddress (String.utf8ByteSize_eq_zero_iff.1 h)
    rw [addressFromTextKey, textKey, if_neg (by rw [List.length_append]; omega), ← hgram,
      List.drop_left]

theorem TextIndexDef.grams_subset_postings_lowered :
    ∃ (st : Settings) (decl : TextIndexDef), decl.folded = true ∧
      ∀ gram ∈ grams "bcd", gram ∈ decl.postings st "ABCD" :=
  ⟨.plain, ⟨"", "", "", true⟩, rfl,
    (grams_subset_postings _ _ _ _ (.inr ⟨rfl, by decide +kernel⟩)).1⟩

end FacetQL
