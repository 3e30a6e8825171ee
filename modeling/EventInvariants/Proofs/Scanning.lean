import EventInvariants.Proofs.Grammar
import Mathlib.Data.String.Basic

namespace EventInvariants
open Text

namespace Text
variable {c : Char} {word rest before after : List Char} {s : String}

/-- A word that cannot be made longer at either side, where the text goes on. -/
def IsLongest (before word after : List Char) : Prop :=
  IsWord word ∧ ∀ left right, left <:+ before → right <+: after → IsWord (left ++ word ++ right) →
    left = [] ∧ right = []

theorem isLongest_iff : IsLongest before word after ↔ IsWord word ∧ Parted before after := by
  constructor
  · intro h
    obtain ⟨hword, hlongest⟩ := h
    refine ⟨hword, fun c hc => ?_, fun c hc => ?_⟩
    · by_contra hblank
      have hmore : IsWord ([c] ++ word ++ []) :=
        ⟨by simp, by simpa using ⟨by simpa using hblank, hword.2⟩⟩
      obtain ⟨front, rfl⟩ := List.getLast?_eq_some_iff.mp hc
      have hnil := (hlongest [c] [] (List.suffix_append _ _) List.nil_prefix hmore).1
      cases hnil
    · by_contra hblank
      have hmore : IsWord ([] ++ word ++ [c]) := by
        refine ⟨by simp, fun x hx => ?_⟩
        rcases List.mem_append.mp hx with hx | hx
        · exact hword.2 x hx
        · rw [List.mem_singleton.mp hx]
          simpa using hblank
      obtain ⟨rest, rfl⟩ := List.head?_eq_some_iff.mp hc
      have hnil := (hlongest [] [c] List.nil_suffix (List.prefix_append [c] rest) hmore).2
      cases hnil
  · intro h
    obtain ⟨hword, hparted⟩ := h
    refine ⟨hword, fun left right hleft hright hmore => ⟨?_, ?_⟩⟩
    · obtain ⟨front, rfl⟩ := hleft
      by_contra hne
      obtain ⟨c, hc⟩ := Option.isSome_iff_exists.mp (List.getLast?_isSome.mpr hne)
      have hblank := hparted.left c (by simp [List.getLast?_append, hc])
      exact hmore.not_blank (by simp [List.mem_of_getLast? hc]) hblank
    · obtain ⟨rest, rfl⟩ := hright
      by_contra hne
      obtain ⟨c, right, rfl⟩ := List.exists_cons_of_ne_nil hne
      exact hmore.not_blank (by simp) (hparted.right c rfl)

/-- A character of two texts in a row belongs to the first or to the second one. -/
theorem split_append (h : word ++ rest = before ++ c :: after) :
    (∃ more, word = before ++ c :: more) ∨
      ∃ front, before = word ++ front ∧ rest = front ++ c :: after := by
  rcases List.append_eq_append_iff.mp h with ⟨front, hbefore, hrest⟩ | ⟨more, hword, hmore⟩
  · exact .inr ⟨front, hbefore, hrest⟩
  · cases more with
    | nil => exact .inr ⟨[], by simpa using hword.symm, by simpa using hmore.symm⟩
    | cons x more =>
      cases hmore
      exact .inl ⟨more, hword⟩

/-- The part of a text at the bytes where it stands. -/
theorem extract_of_split (h : s.toList = before ++ word ++ after) :
    String.Pos.Raw.extract s ⟨byteLength before⟩ ⟨byteLength before + byteLength word⟩ =
      String.ofList word := by
  have hlength : ∀ cs, String.utf8Len cs = byteLength cs := by
    intro cs
    rw [← String.utf8ByteSize_ofList, utf8ByteSize_ofList]
  have hextract := String.extract_of_valid before word after
  rwa [← h, String.ofList_toList, hlength, hlength] at hextract

end Text

namespace Token
variable {offset : Nat} {c : Char} {cs gap word rest before after : List Char}
  {tokens : List Token} {t u : Token}

/-- A text that ends in a blank is scanned apart from what follows. -/
theorem Spells.scanFrom_append (h : Spells offset before tokens)
    (hlast : ∀ c ∈ before.getLast?, isBlank c = true) :
    scanFrom offset (before ++ cs) = tokens ++ scanFrom (offset + Text.byteLength before) cs := by
  induction h with
  | blank hgap => exact scanFrom_blank hgap
  | @word offset gap word rest tokens hgap hword hend h ih =>
    have hrest : rest ≠ [] := by
      -- otherwise the text would end in the last character of the word
      rintro rfl
      obtain ⟨c, hc⟩ := Option.isSome_iff_exists.mp (List.getLast?_isSome.mpr hword.1)
      have hblank := hlast c (by simp [List.getLast?_append, hc])
      exact hword.not_blank (List.mem_of_getLast? hc) hblank
    have hsame : (gap ++ word ++ rest).getLast? = rest.getLast? := by
      rw [List.getLast?_append, Option.or_of_isSome (List.getLast?_isSome.mpr hrest)]
    have hhead : ∀ c ∈ (rest ++ cs).head?, isBlank c = true := by
      rwa [List.head?_append_of_ne_nil _ hrest]
    rw [List.append_assoc, List.append_assoc, scanFrom_blank hgap, scanFrom_word hword hhead,
      ih (hsame ▸ hlast), List.cons_append]
    simp only [byteLength_append, Nat.add_assoc]

theorem mem_scan_iff : t ∈ scan cs ↔ ∃ before after, cs = before ++ t.text ++ after ∧
    t.offset = Text.byteLength before ∧ IsLongest before t.text after := by
  constructor
  · intro ht
    have hspells := spells_scan cs
    obtain ⟨before, after, hcs, hoffset, hparted⟩ := hspells.parted ht
    rw [Nat.zero_add] at hoffset
    exact ⟨before, after, hcs, hoffset, isLongest_iff.mpr ⟨hspells.isWord ht, hparted⟩⟩
  · intro h
    obtain ⟨before, after, hcs, hoffset, hlongest⟩ := h
    obtain ⟨hword, hparted⟩ := isLongest_iff.mp hlongest
    have hsplit : scan cs =
        scanFrom 0 before ++ t :: scanFrom (t.offset + t.byteLength) after := by
      rw [scan_eq, hcs, List.append_assoc, (spells_scanFrom 0 before).scanFrom_append hparted.left,
        scanFrom_word hword hparted.right, Nat.zero_add, ← hoffset]
      rfl
    simp [hsplit]

theorem Spells.covers (h : Spells offset cs tokens) (hcs : cs = before ++ c :: after)
    (hc : isBlank c ≠ true) : ∃ t ∈ tokens, t.offset ≤ offset + Text.byteLength before ∧
      offset + Text.byteLength before < t.offset + t.byteLength := by
  induction h generalizing before with
  | blank hgap => exact absurd (hgap c (by simp [hcs])) hc
  | @word offset gap word rest tokens hgap _ _ h ih =>
    rw [List.append_assoc] at hcs
    rcases split_append hcs with ⟨more, rfl⟩ | ⟨front, rfl, hfront⟩
    · exact absurd (hgap c (by simp)) hc
    · rcases split_append hfront with ⟨more, rfl⟩ | ⟨front, rfl, hrest⟩
      · have := c.utf8Size_pos
        refine ⟨_, List.mem_cons_self, ?_, ?_⟩
        · simp only [byteLength_append]
          omega
        · simp only [byteLength, byteLength_append, byteLength_cons]
          omega
      · obtain ⟨t, ht, hle, hlt⟩ := ih hrest
        refine ⟨t, List.mem_cons_of_mem _ ht, ?_, ?_⟩
        · simp only [byteLength_append]
          omega
        · simp only [byteLength_append]
          omega

/-- In a text that starts at byte `offset`, the second word comes after the first one, with blanks
and nothing else between them. -/
def Follows (offset : Nat) (cs : List Char) (t u : Token) : Prop :=
  ∃ before gap after, cs = before ++ t.text ++ gap ++ u.text ++ after ∧
    t.offset = offset + Text.byteLength before ∧
    u.offset = t.offset + t.byteLength + Text.byteLength gap ∧
    gap ≠ [] ∧ ∀ c ∈ gap, isBlank c = true

theorem Follows.append (h : Follows (offset + Text.byteLength before) cs t u) :
    Follows offset (before ++ cs) t u := by
  obtain ⟨front, gap, after, rfl, ht, hu, hgap⟩ := h
  refine ⟨before ++ front, gap, after, by simp, ?_, hu, hgap⟩
  rw [ht, byteLength_append, Nat.add_assoc]

theorem Spells.chain (h : Spells offset cs tokens) : tokens.IsChain (Follows offset cs) := by
  induction h with
  | blank => exact .nil
  | @word offset gap word rest tokens _ _ hend h ih =>
    have htail : tokens.IsChain (Follows offset (gap ++ word ++ rest)) := by
      refine ih.imp fun t u htu => Follows.append ?_
      rwa [byteLength_append, ← Nat.add_assoc]
    cases h with
    | blank => exact .singleton _
    | @word _ next word' rest' tokens hnext hword' _ _ =>
      refine .cons_cons ⟨gap, next, rest', ?_, rfl, rfl, ?_, hnext⟩ htail
      · simp
      · exact ne_nil_of_blank hend hword' rfl

end Token

namespace Result
variable {ε α β γ δ : Type}

/-- Both computations give results, which are related, or both fail, with related errors. -/
def Alike (R : α → β → Prop) (E : ε → ε → Prop) : Except ε α → Except ε β → Prop
  | .ok a, .ok b => R a b
  | .error e, .error e' => E e e'
  | _, _ => False

theorem Alike.bind {R : α → β → Prop} {S : γ → δ → Prop} {E : ε → ε → Prop} {x : Except ε α}
    {y : Except ε β} {f : α → Except ε γ} {g : β → Except ε δ} (h : Alike R E x y)
    (hf : ∀ a b, R a b → Alike S E (f a) (g b)) : Alike S E (x >>= f) (y >>= g) := by
  cases x with
  | error e =>
    cases y with
    | error e' => exact h
    | ok b => exact h.elim
  | ok a =>
    cases y with
    | error e' => exact h.elim
    | ok b => exact hf a b h

theorem Alike.mapError_eq {f : ε → γ} {x y : Except ε α}
    (h : Alike Eq (fun e e' => f e = f e') x y) : x.mapError f = y.mapError f := by
  cases x with
  | error e =>
    cases y with
    | error e' => exact congrArg Except.error h
    | ok b => exact h.elim
  | ok a =>
    cases y with
    | error e' => exact h.elim
    | ok b => exact congrArg Except.ok h

end Result

/-- The error without the place in the text. -/
def InvariantError.unplaced : InvariantError → InvariantError
  | .malformed problem span => .malformed problem ⟨0, span.length⟩
  | e => e

namespace Invariant
variable {tokens tokens' : List Token} {op op' : Token}

/-- One error, but for the place that it points at. -/
def SameProblem (e e' : InvariantError) : Prop :=
  e.unplaced = e'.unplaced

theorem readRelation_alike (h : tokens.map Token.text = tokens'.map Token.text) :
    Result.Alike (fun r r' => r.1 = r'.1 ∧ r.2.map Token.text = r'.2.map Token.text) SameProblem
      (readRelation tokens) (readRelation tokens') := by
  cases tokens with
  | nil =>
    obtain rfl : tokens' = [] := List.map_eq_nil_iff.mp h.symm
    exact ⟨rfl, rfl⟩
  | cons t ts =>
    obtain ⟨t', ts', rfl, htext, hrest⟩ := List.map_eq_cons_iff.mp h.symm
    simp only [readRelation, Token.byteLength, htext]
    split
    · split
      · exact ⟨rfl, hrest.symm⟩
      · exact rfl
    · exact ⟨rfl, h⟩

theorem readBound_alike (kind : Kind) (offset offset' : Nat) (cs : List Char) :
    Result.Alike Eq SameProblem (readBound kind offset cs) (readBound kind offset' cs) := by
  by_cases hsign : ∃ d : Direction, ∃ value, cs = d.symbol.toList ++ value
  · obtain ⟨d, value, rfl⟩ := hsign
    rw [readBound_symbol, readBound_symbol]
    split
    · exact rfl
    · split
      · exact rfl
      · exact rfl
  · have hnone : ∀ d : Direction, ∀ value, cs ≠ d.symbol.toList ++ value :=
      fun d value h => hsign ⟨d, value, h⟩
    rw [readBound_unsigned hnone, readBound_unsigned hnone]
    exact rfl

theorem readOperator_alike (h : op.text = op'.text) :
    Result.Alike Eq SameProblem (readOperator op) (readOperator op') := by
  simp only [readOperator, h]
  split
  · exact rfl
  · split
    · exact rfl
    · refine (readBound_alike _ _ _ _).bind ?_
      rintro _ _ rfl
      exact rfl

/-- What words are read as does not depend on where they stand. -/
theorem ofTokens_alike (size size' : Nat) (h : tokens.map Token.text = tokens'.map Token.text) :
    Result.Alike Eq SameProblem (ofTokens size tokens) (ofTokens size' tokens') := by
  refine (readRelation_alike h).bind ?_
  rintro ⟨r, ws⟩ ⟨r', ws'⟩ ⟨hr, hws⟩
  dsimp only at hr hws ⊢
  subst hr
  split
  · next a op b =>
    obtain ⟨a', op', b', rfl, ha, hop, hb⟩ := three_of_texts hws.symm
    refine (readOperator_alike hop.symm).bind ?_
    rintro _ _ rfl
    rw [ha, hb]
    exact rfl
  · next hthree =>
    have hlength : ws.length = ws'.length := by simpa using congrArg List.length hws
    split
    · next a op b =>
      obtain ⟨a', op', b', rfl, _⟩ := three_of_texts hws
      exact absurd rfl (hthree a' op' b')
    · rw [hlength]
      exact rfl

theorem read_alike {s s' : String}
    (h : (Token.scan s.toList).map Token.text = (Token.scan s'.toList).map Token.text) :
    (read s).mapError InvariantError.unplaced = (read s').mapError InvariantError.unplaced :=
  (ofTokens_alike (Text.byteLength s.toList) (Text.byteLength s'.toList) h).mapError_eq

end Invariant

/-- Scanning is exact: it finds the longest words of a text and nothing else. Each is the part of
the text at its bytes, cutting no character. They come in order, one apart from the other, with
blanks and nothing else between neighbours; every character outside of them is blank. So two texts
with the same words are read as the same invariant, or refused for the same problem. -/
theorem scan_exact (s : String) :
    (∀ t, t ∈ Token.scan s.toList ↔ ∃ before after, s.toList = before ++ t.text ++ after ∧
        t.offset = byteLength before ∧ IsLongest before t.text after) ∧
      (∀ t ∈ Token.scan s.toList, String.Pos.Raw.IsValid s ⟨t.offset⟩ ∧
        String.Pos.Raw.extract s ⟨t.offset⟩ ⟨t.offset + t.byteLength⟩ = String.ofList t.text) ∧
      (Token.scan s.toList).Pairwise (fun t u => t.offset + t.byteLength < u.offset) ∧
      (Token.scan s.toList).IsChain (Token.Follows 0 s.toList) ∧
      (∀ before c after, s.toList = before ++ c :: after →
        (∀ t ∈ Token.scan s.toList,
          byteLength before < t.offset ∨ t.offset + t.byteLength ≤ byteLength before) →
        isBlank c = true) ∧
      ∀ s' : String,
        (Token.scan s.toList).map Token.text = (Token.scan s'.toList).map Token.text →
        (Invariant.read s).mapError InvariantError.unplaced =
          (Invariant.read s').mapError InvariantError.unplaced := by
  have hspells := Token.spells_scan s.toList
  refine ⟨fun t => Token.mem_scan_iff, fun t ht => ?_, hspells.apart, hspells.chain, ?_,
    fun s' => Invariant.read_alike⟩
  · obtain ⟨before, after, hs, hoffset⟩ := hspells.split ht
    rw [Nat.zero_add] at hoffset
    rw [hoffset]
    exact ⟨isValid_of_split (hs.trans (List.append_assoc _ _ _)), extract_of_split hs⟩
  · intro before c after hs houtside
    by_contra hc
    obtain ⟨t, ht, hle, hlt⟩ := hspells.covers hs hc
    have := houtside t ht
    omega

/-- Three words with blanks of one byte, two and three between them and around them. -/
def Text.spaced : String :=
  "\u3000é\u00a0 AFby<=\tb\n"

/-- The words of the spaced text start at other bytes than without the further blanks. The operator
is still found whole, and the value is still missing. -/
theorem spaced_scan_exact :
    Token.scan "é AFby<= b".toList = [⟨0, ['é']⟩, ⟨3, "AFby<=".toList⟩, ⟨10, ['b']⟩] ∧
      Token.scan spaced.toList = [⟨3, ['é']⟩, ⟨8, "AFby<=".toList⟩, ⟨15, ['b']⟩] ∧
      String.Pos.Raw.extract spaced ⟨8⟩ ⟨14⟩ = "AFby<=" ∧
      Invariant.read "é AFby<= b" = .error (.malformed "invalid time literal ''" ⟨9, 1⟩) ∧
      (Invariant.read spaced).mapError InvariantError.unplaced =
        .error (.malformed "invalid time literal ''" ⟨0, 1⟩) := by
  have hclose : Token.scan "é AFby<= b".toList =
      [⟨0, ['é']⟩, ⟨3, "AFby<=".toList⟩, ⟨10, ['b']⟩] := by
    simp [Token.scan_eq, Token.scanFrom, isBlank, Char.utf8Size]
  have hspaced : Token.scan spaced.toList =
      [⟨3, ['é']⟩, ⟨8, "AFby<=".toList⟩, ⟨15, ['b']⟩] := by
    simp [spaced, Token.scan_eq, Token.scanFrom, isBlank, Char.utf8Size]
  have hread : Invariant.read "é AFby<= b" =
      .error (.malformed "invalid time literal ''" ⟨9, 1⟩) := by
    rw [Invariant.read, Invariant.ofChars, hclose]
    rfl
  have hsame := (scan_exact "é AFby<= b").2.2.2.2.2 spaced (by rw [hclose, hspaced]; rfl)
  have hoperator := (scan_exact spaced).2.1 ⟨8, "AFby<=".toList⟩ (by simp [hspaced])
  refine ⟨hclose, hspaced, hoperator.2.trans String.ofList_toList, hread, ?_⟩
  rw [← hsame, hread]
  rfl

end EventInvariants
