import EventInvariants.Proofs.Grammar

namespace EventInvariants
open Text

/-- At least one byte of the text, from the start of a character on. -/
structure Span.Within (span : Span) (cs : List Char) : Prop where
  pos : 1 ≤ span.length
  start : ∃ before after, cs = before ++ after ∧ span.offset = byteLength before
  fits : span.offset + span.length ≤ byteLength cs

namespace Token.Spells
variable {cs before rest : List Char} {tokens : List Token} {t : Token} {n : Nat}

theorem end_le (h : Spells 0 cs tokens) (ht : t ∈ tokens) :
    t.offset + t.byteLength ≤ Text.byteLength cs := by
  obtain ⟨before, after, rfl, hoffset⟩ := h.split ht
  simp only [hoffset, byteLength_append, Token.byteLength]
  omega

/-- Every part of a word starts with a character of the text. -/
theorem within (h : Spells 0 cs tokens) (ht : t ∈ tokens) (htext : t.text = before ++ rest)
    (hpos : 1 ≤ n) (hfits : t.offset + Text.byteLength before + n ≤ Text.byteLength cs) :
    Span.Within ⟨t.offset + Text.byteLength before, n⟩ cs := by
  refine ⟨hpos, ?_, hfits⟩
  obtain ⟨left, right, hcs, hoffset⟩ := h.split ht
  refine ⟨left ++ before, rest ++ right, by simp [hcs, htext], ?_⟩
  rw [hoffset, byteLength_append, Nat.zero_add]

end Token.Spells

namespace Invariant
variable {cs : List Char} {tokens : List Token} {e : InvariantError}

/-- The relation is left out or in brackets, and fewer than three words follow. -/
def Lacking (words : List (List Char)) : Prop :=
  ∃ r rest, Relation.Opens words r rest ∧ rest.length < 3

/-- The error is about the kind or points into the text. -/
def PointsInto (cs : List Char) (e : InvariantError) : Prop :=
  (∃ kind, e = .unsupportedBound kind) ∨
    ∃ problem span, e = .malformed problem span ∧ span.Within cs

/-- What is wrong in an operator is pointed at, as a word follows that leaves room for one byte
behind the operator. -/
theorem PartOf.pointsInto {op b : Token} (h : Token.Spells 0 cs tokens) (hop : op ∈ tokens)
    (hb : b ∈ tokens) (hapart : op.offset + op.byteLength < b.offset)
    (he : PartOf op.offset op.text e) : PointsInto cs e := by
  obtain ⟨before, part, after, problem, htext, rfl⟩ := he
  refine .inr ⟨problem, _, rfl, ?_⟩
  have hend := h.end_le hb
  have hlength : op.byteLength = byteLength before + byteLength part + byteLength after := by
    rw [Token.byteLength, htext, byteLength_append, byteLength_append]
  refine h.within hop (htext.trans (List.append_assoc _ _ _)) (Nat.le_max_right _ _) ?_
  omega

theorem pointsInto_word {t : Token} {n : Nat} (h : Token.Spells 0 cs tokens) (ht : t ∈ tokens)
    (hn : n ≤ t.byteLength) (problem : String) :
    PointsInto cs (malformedAt t.offset n problem) := by
  have hpos : 0 < t.byteLength := byteLength_pos (h.isWord ht).1
  have hend := h.end_le ht
  refine .inr ⟨problem, _, rfl, ?_⟩
  exact h.within ht (List.nil_append _).symm (Nat.le_max_right _ _) (by rw [byteLength_nil]; omega)

/-- The ways in which words fail to be an invariant. -/
theorem ofTokens_ends (size : Nat) (h : Token.Spells 0 cs tokens) :
    Result.Ends (fun _ => True)
      (fun e => PointsInto cs e ∨
        Lacking (tokens.map Token.text) ∧ ∃ problem, e = malformedAt size 1 problem)
      (ofTokens size tokens) := by
  refine Result.Ends.bind ((readRelation_ends tokens).imp (fun _ => id) ?_) ?_
  · rintro e ⟨t, ht, problem, rfl⟩
    exact .inl (pointsInto_word h ht (Nat.le_refl _) problem)
  · rintro ⟨r, following⟩ ⟨hopens, hsuffix⟩
    dsimp only at hopens hsuffix ⊢
    split
    · next a op b =>
      have hapart := h.apart.sublist hsuffix.sublist
      refine Result.Ends.bind ((readOperator_ends op).imp (fun _ => id) ?_) fun _ _ => trivial
      rintro e (he | he)
      · exact .inl (.inl he)
      · have hop : op ∈ tokens := hsuffix.subset (by simp)
        have hb : b ∈ tokens := hsuffix.subset (by simp)
        have hopb : op.offset + op.byteLength < b.offset := by simp at hapart; omega
        exact .inl (he.pointsInto h hop hb hopb)
    · next hthree =>
      cases hfourth : following[3]? with
      | some t =>
        have ht : t ∈ tokens := hsuffix.subset (List.mem_of_getElem? hfourth)
        have hpos : 0 < t.byteLength := byteLength_pos (h.isWord ht).1
        exact .inl (pointsInto_word h ht hpos _)
      | none =>
        have hlength : following.length < 3 := by
          have hle := List.getElem?_eq_none_iff.mp hfourth
          have hne : following.length ≠ 3 := by
            intro hlength
            obtain ⟨a, _, rfl⟩ := List.exists_cons_of_length_eq_add_one hlength
            obtain ⟨op, _, rfl⟩ := List.exists_cons_of_length_eq_add_one (Nat.succ.inj hlength)
            obtain ⟨b, rfl⟩ := List.length_eq_one_iff.mp (Nat.succ.inj (Nat.succ.inj hlength))
            exact hthree a op b rfl
          omega
        exact .inr ⟨⟨r, _, hopens, by simpa using hlength⟩, _, rfl⟩

theorem ofTokens_of_lacking (size : Nat) (h : Lacking (tokens.map Token.text)) :
    ∃ problem, ofTokens size tokens = .error (malformedAt size 1 problem) := by
  obtain ⟨r, rest, hopens, hlength⟩ := h
  obtain ⟨following, hrelation, rfl⟩ := readRelation_of_opens hopens
  rw [List.length_map] at hlength
  rw [ofTokens, hrelation, Result.ok_bind]
  dsimp only
  split
  · simp only [List.length_cons, List.length_nil] at hlength
    omega
  · rw [List.getElem?_eq_none_iff.mpr (by omega)]
    exact ⟨_, rfl⟩

end Invariant

/-- The span of a malformed text has at least one byte and starts where a character does, or behind
the last one. It lies within the text, unless the text has too few words: then, and only then, it
starts behind the end. -/
theorem malformed_span_within (s : String) :
    (∀ problem span, Invariant.read s = .error (.malformed problem span) →
        1 ≤ span.length ∧ String.Pos.Raw.IsValid s ⟨span.offset⟩ ∧
          (span.offset = s.utf8ByteSize ∨ span.offset + span.length ≤ s.utf8ByteSize)) ∧
      ((∃ problem span, Invariant.read s = .error (.malformed problem span) ∧
          span.offset = s.utf8ByteSize) ↔ Invariant.Lacking (words s.toList)) := by
  have hspells := Token.spells_scan s.toList
  have hends := Invariant.ofTokens_ends (byteLength s.toList) hspells
  rw [hspells.words, utf8ByteSize_eq]
  refine ⟨fun problem span h => ?_, fun ⟨problem, span, h, hend⟩ => ?_, fun h => ?_⟩
  · rcases hends.of_eq_error h with (⟨kind, he⟩ | ⟨_, _, he, hwithin⟩) | ⟨-, _, he⟩
    · cases he
    · cases he
      obtain ⟨before, after, hsplit, hoffset⟩ := hwithin.start
      exact ⟨hwithin.pos, hoffset ▸ isValid_of_split hsplit, .inr hwithin.fits⟩
    · cases he
      exact ⟨Nat.le_refl 1, isValid_of_split (List.append_nil _).symm, .inl rfl⟩
  · rcases hends.of_eq_error h with (⟨kind, he⟩ | ⟨_, _, he, hwithin⟩) | ⟨hlacking, -⟩
    · cases he
    · cases he
      have hpos := hwithin.pos
      have hfits := hwithin.fits
      omega
    · exact hlacking
  · obtain ⟨problem, he⟩ := Invariant.ofTokens_of_lacking (byteLength s.toList) h
    exact ⟨problem, _, he, rfl⟩

/-- A bound without a value, and a relation with one event; both events take two bytes. -/
theorem malformed_spans_of_accents :
    Invariant.read "é AFby<= b" = .error (.malformed "invalid time literal ''" ⟨9, 1⟩) ∧
      String.Pos.Raw.IsValid "é AFby<= b" ⟨9⟩ ∧
      ∃ problem span, Invariant.read "[r] é" = .error (.malformed problem span) ∧
        span.offset = "[r] é".utf8ByteSize := by
  have hscan : Token.scan "é AFby<= b".toList =
      [⟨0, ['é']⟩, ⟨3, "AFby<=".toList⟩, ⟨10, ['b']⟩] := by
    simp [Token.scan_eq, Token.scanFrom, isBlank, Char.utf8Size]
  have hread : Invariant.read "é AFby<= b" =
      .error (.malformed "invalid time literal ''" ⟨9, 1⟩) := by
    rw [Invariant.read, Invariant.ofChars, hscan]
    rfl
  have hwords : words "[r] é".toList = [['[', 'r', ']'], ['é']] := by decide
  have hopens : Relation.Opens (('[' :: ['r'] ++ [']']) :: [['é']]) ⟨String.ofList ['r']⟩ [['é']] :=
    .named (by decide)
  have hlacking : Invariant.Lacking (words "[r] é".toList) := by
    rw [hwords]
    exact ⟨_, _, hopens, by decide⟩
  exact ⟨hread, ((malformed_span_within _).1 _ _ hread).2.1,
    (malformed_span_within _).2.mpr hlacking⟩

end EventInvariants
