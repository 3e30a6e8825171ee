import EventInvariants.Proofs.Grammar
import EventInvariants.Proofs.Literal

namespace EventInvariants

namespace Text
variable {word cs : List Char}

theorem isWord_of_mem_words (h : word ∈ words cs) : IsWord word := by
  have hspells := Token.spells_scan cs
  rw [hspells.words] at h
  obtain ⟨t, ht, rfl⟩ := List.mem_map.mp h
  exact hspells.isWord ht

end Text

namespace Relation.Opens
open Text
variable {words rest : List (List Char)} {r : Relation}

theorem subset (h : r.Opens words rest) : rest ⊆ words := by
  cases h with
  | omitted => exact List.Subset.refl _
  | named => exact List.subset_cons_self _ _

theorem isWord (h : r.Opens words rest) (hwords : ∀ word ∈ words, IsWord word) :
    r.name.toList ≠ [] ∧ IsWord ('[' :: r.name.toList ++ [']']) := by
  cases h with
  | omitted => exact ⟨by decide, by decide⟩
  | named hne =>
    rw [String.toList_ofList]
    exact ⟨hne, hwords _ List.mem_cons_self⟩

/-- If no word is taken off, the first one opens no bracket. -/
theorem head?_ne {word : List Char} (h : r.Opens (word :: words) rest)
    (hlength : rest.length = words.length + 1) : word.head? ≠ some '[' := by
  cases h with
  | omitted hfirst => exact hfirst word rfl
  | named => omega

end Relation.Opens

namespace Invariant
open Text
variable {inv : Invariant} {s : String}

/-- The bound is read back from its text, if there is one. -/
def HasLiteralBound (inv : Invariant) : Prop :=
  ∀ w, inv.bound = some w → w.value.IsLiteral

theorem operator_of_none (h : inv.bound = none) : inv.operator = inv.kind.name := by
  simp [operator, h]

theorem operator_of_some {w : Bound} (h : inv.bound = some w) :
    inv.operator.toList =
      inv.kind.name.toList ++ (w.direction.symbol.toList ++ w.value.toChars) := by
  simp [operator, h, ToString.toString, Time.render]

theorem isWord_operator (h : inv.HasLiteralBound) : IsWord inv.operator.toList := by
  have hname : IsWord inv.kind.name.toList := by
    cases inv.kind <;> decide
  cases hbound : inv.bound with
  | none => rwa [operator_of_none hbound]
  | some w =>
    have hsign : IsWord w.direction.symbol.toList := by
      cases w.direction <;> decide
    have hvalue := (h w hbound).isWord
    rw [operator_of_some hbound]
    refine ⟨by simp [hname.1], fun c hc => ?_⟩
    rcases List.mem_append.mp hc with hc | hc
    · exact hname.2 c hc
    · exact (List.mem_append.mp hc).elim (hsign.2 c) (hvalue.2 c)

/-- An operator that was read once is spelled by the text that writes it. -/
theorem spellsOperator_operator {word : List Char} (h : inv.HasLiteralBound)
    (hword : SpellsOperator inv.kind word inv.bound) :
    SpellsOperator inv.kind inv.operator.toList inv.bound := by
  cases hbound : inv.bound with
  | none => exact congrArg String.toList (operator_of_none hbound)
  | some w =>
    rw [hbound] at hword
    exact ⟨hword.1, w.value.toChars, operator_of_some hbound, (h w hbound).ofChars_toChars⟩

theorem hasLiteralBound_of_spells {word : List Char}
    (hword : SpellsOperator inv.kind word inv.bound)
    (h : ∀ w, inv.bound = some w → w.value.isFloat = false) : inv.HasLiteralBound := by
  intro w hw
  rw [hw] at hword
  obtain ⟨-, value, -, hvalue⟩ := hword
  exact Time.isLiteral_of_ofChars hvalue (h w hw)

theorem render_default (hr : inv.relation = .default) :
    inv.render.toList =
      inv.a.name.toList ++ ' ' :: (inv.operator.toList ++ ' ' :: inv.b.name.toList) := by
  simp [render, hr, Relation.isDefault, ToString.toString]

theorem render_named (hr : inv.relation ≠ .default) :
    inv.render.toList = '[' :: inv.relation.name.toList ++ [']'] ++
      ' ' :: (inv.a.name.toList ++ ' ' :: (inv.operator.toList ++ ' ' :: inv.b.name.toList)) := by
  simp [render, hr, Relation.isDefault, ToString.toString]

/-- What every invariant has that was read from a text. -/
structure Legible (inv : Invariant) : Prop where
  a : IsWord inv.a.name.toList
  b : IsWord inv.b.name.toList
  operator : IsWord inv.operator.toList
  spells : SpellsOperator inv.kind inv.operator.toList inv.bound
  relation : inv.relation.name.toList ≠ [] ∧ IsWord ('[' :: inv.relation.name.toList ++ [']'])

theorem legible_of_read (h : read s = .ok inv)
    (hfloat : ∀ w, inv.bound = some w → w.value.isFloat = false) : inv.Legible := by
  obtain ⟨word, hopens, hword⟩ := read_eq_ok_iff.mp h
  have hwords : ∀ word ∈ words s.toList, IsWord word := fun _ => isWord_of_mem_words
  have hbound := hasLiteralBound_of_spells hword hfloat
  exact {
    a := hwords _ (hopens.subset (by simp))
    b := hwords _ (hopens.subset (by simp))
    operator := isWord_operator hbound
    spells := spellsOperator_operator hbound hword
    relation := hopens.isWord hwords }

theorem Legible.words_default (h : inv.Legible) (hr : inv.relation = .default) :
    words inv.render.toList = [inv.a.name.toList, inv.operator.toList, inv.b.name.toList] := by
  rw [render_default hr, words_append_cons rfl, words_append_cons rfl, words_eq_singleton h.a,
    words_eq_singleton h.operator, words_eq_singleton h.b]
  rfl

theorem Legible.words_named (h : inv.Legible) (hr : inv.relation ≠ .default) :
    words inv.render.toList = ('[' :: inv.relation.name.toList ++ [']']) ::
      [inv.a.name.toList, inv.operator.toList, inv.b.name.toList] := by
  rw [render_named hr, words_append_cons (c := ' ') rfl, words_append_cons (c := ' ') rfl,
    words_append_cons (c := ' ') rfl, words_eq_singleton h.relation.2, words_eq_singleton h.a,
    words_eq_singleton h.operator, words_eq_singleton h.b]
  rfl

theorem Legible.read_named (h : inv.Legible) (hr : inv.relation ≠ .default) :
    read inv.render = .ok inv := by
  rw [read_eq_ok_iff, h.words_named hr]
  have hopens : Relation.Opens _ ⟨String.ofList inv.relation.name.toList⟩
      [inv.a.name.toList, inv.operator.toList, inv.b.name.toList] := .named h.relation.1
  rw [String.ofList_toList] at hopens
  exact ⟨_, hopens, h.spells⟩

theorem Legible.read_default (h : inv.Legible) (hr : inv.relation = .default)
    (ha : inv.a.name.toList.head? ≠ some '[') : read inv.render = .ok inv := by
  rw [read_eq_ok_iff, h.words_default hr]
  refine ⟨_, ?_, h.spells⟩
  rw [hr]
  exact .omitted (by simpa using ha)

theorem Legible.read_bracket {other : Invariant} (h : inv.Legible) (hr : inv.relation = .default)
    (ha : inv.a.name.toList.head? = some '[') : read inv.render ≠ .ok other := by
  rw [Ne, read_eq_ok_iff, h.words_default hr]
  rintro ⟨word, hopens, -⟩
  exact hopens.head?_ne rfl ha

end Invariant

/-- An invariant that was read from a text and has no double as its bound is read again from its own
text, unless it has the default relation, which is not written, and its first event opens a bracket.
Such a text is refused. -/
theorem read_render_iff {s : String} {inv : Invariant} (h : Invariant.read s = .ok inv)
    (hfloat : ∀ w, inv.bound = some w → w.value.isFloat = false) :
    (Invariant.read inv.render = .ok inv ↔
        ¬ (inv.relation = .default ∧ inv.a.name.toList.head? = some '[')) ∧
      (inv.relation = .default ∧ inv.a.name.toList.head? = some '[' →
        ∃ e, Invariant.read inv.render = .error e) := by
  have hlegible := Invariant.legible_of_read h hfloat
  refine ⟨⟨fun hread hexcept => ?_, fun hexcept => ?_⟩, fun hexcept => ?_⟩
  · exact hlegible.read_bracket hexcept.1 hexcept.2 hread
  · by_cases hr : inv.relation = .default
    · exact hlegible.read_default hr fun ha => hexcept ⟨hr, ha⟩
    · exact hlegible.read_named hr
  · cases hread : Invariant.read inv.render with
    | error e => exact ⟨e, rfl⟩
    | ok other => exact absurd hread (hlegible.read_bracket hexcept.1 hexcept.2)

/-- Brackets in the relation's name and at the start of an event's. -/
def Invariant.nested : Invariant :=
  ⟨.alwaysFollowedBy, ⟨"[a"⟩, ⟨"<=b"⟩, ⟨"[r]"⟩, some ⟨.lower, .vector [-1, 2]⟩⟩

/-- The name of the first event is what a relation would be written as. -/
def Invariant.masked : Invariant :=
  ⟨.alwaysPrecedes, ⟨"[x]"⟩, ⟨"b"⟩, .default, none⟩

theorem nested_and_masked_read_render :
    Invariant.read " [[r]] [a AFby>=(-1,+02)  <=b" = .ok .nested ∧
      Invariant.read Invariant.nested.render = .ok .nested ∧
      Invariant.read "[t] [x] AP b" = .ok .masked ∧
      ∃ e, Invariant.read Invariant.masked.render = .error e := by
  have hnested : Invariant.read " [[r]] [a AFby>=(-1,+02)  <=b" = .ok .nested := by
    have hwords : Text.words " [[r]] [a AFby>=(-1,+02)  <=b".toList =
        ['[' :: "[r]".toList ++ [']'], "[a".toList, "AFby>=(-1,+02)".toList, "<=b".toList] := by
      decide
    rw [Invariant.read_eq_ok_iff, hwords]
    exact ⟨_, .named (by decide), rfl, "(-1,+02)".toList, rfl, rfl⟩
  have hmasked : Invariant.read "[t] [x] AP b" = .ok .masked := by
    have hwords : Text.words "[t] [x] AP b".toList =
        ['[' :: "t".toList ++ [']'], "[x]".toList, "AP".toList, "b".toList] := by
      decide
    rw [Invariant.read_eq_ok_iff, hwords]
    exact ⟨_, .named (by decide), rfl⟩
  refine ⟨hnested, ?_, hmasked, ?_⟩
  · refine (read_render_iff hnested fun w hw => ?_).1.mpr (by decide)
    obtain rfl := Option.some.inj hw
    rfl
  · exact (read_render_iff hmasked fun w hw => by cases hw).2 (by decide)

end EventInvariants
