import EventInvariants.Invariant.Text
import EventInvariants.Proofs.Result
import EventInvariants.Proofs.Words

namespace EventInvariants

/-- The words start with the relation, in brackets or left out, and `rest` follows. -/
inductive Relation.Opens : List (List Char) → Relation → List (List Char) → Prop where
  | omitted {words : List (List Char)} (h : ∀ word ∈ words.head?, word.head? ≠ some '[') :
      Opens words .default words
  | named {name : List Char} {rest : List (List Char)} (h : name ≠ []) :
      Opens (('[' :: name ++ [']']) :: rest) ⟨String.ofList name⟩ rest

namespace Invariant
variable {kind : Kind} {bound : Option Bound} {offset size : Nat} {op : Token}
  {cs name rest : List Char} {tokens : List Token} {words : List (List Char)} {r : Relation}
  {inv : Invariant} {e : InvariantError}

/-- The word is the name of the operator, and the sign and value of its bound if there is one. -/
def SpellsOperator (kind : Kind) (word : List Char) : Option Bound → Prop
  | none => word = kind.name.toList
  | some w => kind.supportsBound = true ∧ ∃ value,
      word = kind.name.toList ++ (w.direction.symbol.toList ++ value) ∧
        Time.ofChars value = .ok w.value

/-- The words are those of the invariant. -/
def Spelled (inv : Invariant) (words : List (List Char)) : Prop :=
  ∃ op, Relation.Opens words inv.relation [inv.a.name.toList, op, inv.b.name.toList] ∧
    SpellsOperator inv.kind op inv.bound

theorem bracketed?_eq_some_iff : bracketed? cs = some name ↔ name ≠ [] ∧ cs = name ++ [']'] := by
  constructor
  · intro h
    simp only [bracketed?, Bool.and_eq_true, decide_eq_true_eq, Bool.not_eq_true',
      Option.ite_none_right_eq_some, Option.some.injEq] at h
    obtain ⟨⟨hlast, hne⟩, rfl⟩ := h
    obtain ⟨name, rfl⟩ := List.getLast?_eq_some_iff.mp hlast
    simpa using hne
  · rintro ⟨hne, rfl⟩
    simp [bracketed?, hne]

theorem kind?_eq_some_iff : kind? name = some kind ↔ name = kind.name.toList := by
  constructor
  · intro h
    have hname : (kind.name.toList == name) = true := by
      rw [kind?] at h
      simpa using List.find?_some h
    exact (eq_of_beq hname).symm
  · rintro rfl
    cases kind <;> rfl

theorem readRelation_ends (tokens : List Token) :
    Result.Ends
      (fun p => p.1.Opens (tokens.map Token.text) (p.2.map Token.text) ∧ p.2 <:+ tokens)
      (fun e => ∃ t ∈ tokens, ∃ problem, e = malformedAt t.offset t.byteLength problem)
      (readRelation tokens) := by
  fun_cases readRelation tokens with
  | case1 => exact ⟨.omitted (by simp), List.suffix_refl _⟩
  | case2 first rest cs hfirst name hname =>
    obtain ⟨hne, rfl⟩ := bracketed?_eq_some_iff.mp hname
    rw [Result.ends_ok, List.map_cons, hfirst]
    exact ⟨.named hne, List.suffix_cons _ _⟩
  | case3 first rest cs hfirst hname => exact ⟨first, List.mem_cons_self, _, rfl⟩
  | case4 first rest hfirst =>
    refine ⟨.omitted fun word hword hhead => ?_, List.suffix_refl _⟩
    obtain rfl : first.text = word := by simpa using hword
    obtain ⟨cs, hcs⟩ := List.head?_eq_some_iff.mp hhead
    exact hfirst cs hcs

theorem readRelation_of_opens (h : r.Opens (tokens.map Token.text) words) :
    ∃ following, readRelation tokens = .ok (r, following) ∧ following.map Token.text = words := by
  generalize hopening : tokens.map Token.text = opening at h
  cases h with
  | omitted hfirst =>
    subst hopening
    refine ⟨tokens, ?_, rfl⟩
    cases tokens with
    | nil => rfl
    | cons first rest =>
      have hhead : first.text.head? ≠ some '[' := hfirst first.text rfl
      rw [readRelation]
      split
      · next htext => simp [htext] at hhead
      · rfl
  | named hne =>
    obtain ⟨first, rest, rfl, hfirst, rfl⟩ := List.map_eq_cons_iff.mp hopening
    refine ⟨rest, ?_, rfl⟩
    rw [readRelation, hfirst]
    simp [bracketed?_eq_some_iff.mpr ⟨hne, rfl⟩]

theorem readBound_symbol (kind : Kind) (offset : Nat) (d : Direction) (value : List Char) :
    readBound kind offset (d.symbol.toList ++ value) =
      match Time.ofChars value with
      | .error e => .error (malformedAt (offset + 2) (Text.byteLength value) e.message)
      | .ok t => if kind.supportsBound then .ok ⟨d, t⟩ else .error (.unsupportedBound kind) := by
  cases d <;> rfl

theorem readBound_unsigned (h : ∀ d : Direction, ∀ value, cs ≠ d.symbol.toList ++ value) :
    readBound kind offset cs =
      .error (malformedAt offset (Text.byteLength cs) "bound must start with '<=' or '>='") := by
  fun_cases readBound kind offset cs with
  | case1 _ value => exact absurd rfl (h .upper value)
  | case2 _ value => exact absurd rfl (h .lower value)
  | case3 => rfl

/-- The error points at a part, possibly empty, of a word that starts at byte `offset`. -/
def PartOf (offset : Nat) (cs : List Char) (e : InvariantError) : Prop :=
  ∃ before part after problem, cs = before ++ part ++ after ∧
    e = malformedAt (offset + Text.byteLength before) (Text.byteLength part) problem

theorem readBound_ends (kind : Kind) (offset : Nat) (cs : List Char) :
    Result.Ends
      (fun w => kind.supportsBound = true ∧ ∃ value, cs = w.direction.symbol.toList ++ value ∧
        Time.ofChars value = .ok w.value)
      (fun e => e = .unsupportedBound kind ∨ PartOf offset cs e)
      (readBound kind offset cs) := by
  by_cases hsign : ∃ d : Direction, ∃ value, cs = d.symbol.toList ++ value
  · obtain ⟨d, value, rfl⟩ := hsign
    rw [readBound_symbol]
    split
    · next e _ =>
      have hlength : Text.byteLength d.symbol.toList = 2 := by cases d <;> rfl
      exact .inr ⟨d.symbol.toList, value, [], e.message, by simp, by rw [hlength]⟩
    · next t ht =>
      split
      · next hkind => exact ⟨hkind, value, rfl, ht⟩
      · exact .inl rfl
  · rw [readBound_unsigned fun d value h => hsign ⟨d, value, h⟩]
    exact .inr ⟨[], cs, [], _, by simp, rfl⟩

theorem PartOf.append_left {before : List Char}
    (h : PartOf (offset + Text.byteLength before) cs e) : PartOf offset (before ++ cs) e := by
  obtain ⟨skipped, part, after, problem, rfl, rfl⟩ := h
  refine ⟨before ++ skipped, part, after, problem, by simp, ?_⟩
  rw [Text.byteLength_append, Nat.add_assoc]

theorem readOperator_ends (op : Token) :
    Result.Ends (fun p => SpellsOperator p.1 op.text p.2)
      (fun e => (∃ kind, e = .unsupportedBound kind) ∨ PartOf op.offset op.text e)
      (readOperator op) := by
  have hsplit := List.takeWhile_append_dropWhile (p := (!isBoundSign ·)) (l := op.text)
  fun_cases readOperator op with
  | case1 name => exact .inr ⟨[], name, _, _, hsplit.symm, rfl⟩
  | case2 name bound kind hkind hbound =>
    have htext : op.text = name ++ bound := hsplit.symm
    rw [List.isEmpty_iff.mp hbound, List.append_nil] at htext
    exact htext.trans (kind?_eq_some_iff.mp hkind)
  | case3 name bound kind hkind hbound =>
    have hname : name = kind.name.toList := kind?_eq_some_iff.mp hkind
    have htext : op.text = name ++ bound := hsplit.symm
    refine Result.Ends.bind ((readBound_ends kind _ bound).imp (fun _ => id) ?_) ?_
    · rintro e (he | he)
      · exact .inl ⟨kind, he⟩
      · exact .inr (htext ▸ he.append_left)
    · rintro w ⟨hsupports, value, hvalue, ht⟩
      exact ⟨hsupports, value, by rw [htext, hname, hvalue], ht⟩

/-- The name of an operator ends where the sign of its bound stands. -/
theorem readOperator_eq (htext : op.text = kind.name.toList ++ rest)
    (hrest : ∀ c ∈ rest.head?, isBoundSign c = true) :
    readOperator op =
      if rest.isEmpty then .ok (kind, none)
      else do
        let w ← readBound kind (op.offset + Text.byteLength kind.name.toList) rest
        return (kind, some w) := by
  have hname : ∀ c ∈ kind.name.toList, (!isBoundSign c) = true :=
    List.all_eq_true.mp (by cases kind <;> rfl)
  have htake : op.text.takeWhile (!isBoundSign ·) = kind.name.toList := by
    rw [htext, List.takeWhile_append_of_pos hname]
    cases rest with
    | nil => simp
    | cons c rest => simp [hrest c rfl]
  have hdrop : op.text.dropWhile (!isBoundSign ·) = rest := by
    rw [htext, List.dropWhile_append_of_pos hname]
    cases rest with
    | nil => rfl
    | cons c rest => simp [hrest c rfl]
  simp only [readOperator, htake, hdrop, kind?_eq_some_iff.mpr rfl]

theorem readOperator_of_spells (h : SpellsOperator kind op.text bound) :
    readOperator op = .ok (kind, bound) := by
  cases bound with
  | none =>
    have htext : op.text = kind.name.toList ++ [] := by simpa [SpellsOperator] using h
    rw [readOperator_eq htext (by simp)]
    rfl
  | some w =>
    obtain ⟨hsupports, value, htext, hvalue⟩ := h
    have hsign : ∀ c ∈ (w.direction.symbol.toList ++ value).head?, isBoundSign c = true := by
      cases w.direction <;> simp [Direction.symbol, isBoundSign]
    have hne : (w.direction.symbol.toList ++ value).isEmpty = false := by
      cases w.direction <;> rfl
    rw [readOperator_eq htext hsign, hne, readBound_symbol, hvalue]
    simp [hsupports]

theorem three_of_texts {a op b : List Char} (h : tokens.map Token.text = [a, op, b]) :
    ∃ x y z : Token, tokens = [x, y, z] ∧ x.text = a ∧ y.text = op ∧ z.text = b := by
  simp only [List.map_eq_cons_iff, List.map_eq_nil_iff] at h
  obtain ⟨x, _, rfl, hx, y, _, rfl, hy, z, _, rfl, hz, rfl⟩ := h
  exact ⟨x, y, z, rfl, hx, hy, hz⟩

theorem ofTokens_of_spelled (h : inv.Spelled (tokens.map Token.text)) :
    ofTokens size tokens = .ok inv := by
  obtain ⟨word, hopens, hop⟩ := h
  obtain ⟨following, hrelation, hfollowing⟩ := readRelation_of_opens hopens
  obtain ⟨a, op, b, rfl, ha, rfl, hb⟩ := three_of_texts hfollowing
  simp [ofTokens, hrelation, readOperator_of_spells hop, ha, hb]

theorem spelled_of_ofTokens (h : ofTokens size tokens = .ok inv) :
    inv.Spelled (tokens.map Token.text) := by
  obtain ⟨⟨r, following⟩, hrelation, h⟩ := Result.bind_ok.mp h
  obtain ⟨hopens, -⟩ := (readRelation_ends tokens).of_eq_ok hrelation
  dsimp only at h hopens
  split at h
  case h_2 => cases h
  case h_1 a op b =>
    obtain ⟨⟨kind, bound⟩, hop, h⟩ := Result.bind_ok.mp h
    obtain rfl := Except.ok.inj h
    exact ⟨op.text, by simpa using hopens, (readOperator_ends op).of_eq_ok hop⟩

/-- A text is read as an invariant just when its words spell the invariant. -/
theorem read_eq_ok_iff {s : String} : read s = .ok inv ↔ inv.Spelled (Text.words s.toList) := by
  rw [(Token.spells_scan s.toList).words]
  exact ⟨spelled_of_ofTokens, ofTokens_of_spelled⟩

end Invariant
end EventInvariants
