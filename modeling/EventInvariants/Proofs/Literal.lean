import EventInvariants.Proofs.Words
import EventInvariants.Time.Text

namespace EventInvariants

namespace Text
variable {sep : Char} {cs piece rest : List Char}

theorem trim_eq_self (h : ∀ c ∈ cs, isBlank c = false) : trim cs = cs := by
  have keep : ∀ ds : List Char, (∀ c ∈ ds, isBlank c = false) → ds.dropWhile isBlank = ds := by
    intro ds hds
    cases ds with
    | nil => rfl
    | cons d ds => simp [hds d]
  rw [trim, keep cs h, keep cs.reverse (by simpa using h), List.reverse_reverse]

theorem splitAt_ne_nil (sep : Char) (cs : List Char) : splitAt sep cs ≠ [] := by
  fun_cases splitAt sep cs <;> simp_all

theorem splitAt_piece (h : sep ∉ piece) : splitAt sep piece = [piece] := by
  induction piece with
  | nil => rfl
  | cons c piece ih =>
    simp only [List.mem_cons, not_or] at h
    simp [splitAt, Ne.symm h.1, ih h.2]

theorem splitAt_append (h : sep ∉ piece) :
    splitAt sep (piece ++ sep :: rest) = piece :: splitAt sep rest := by
  induction piece with
  | nil => simp [splitAt]
  | cons c piece ih =>
    simp only [List.mem_cons, not_or] at h
    simp [splitAt, Ne.symm h.1, ih h.2]

end Text

namespace Whole
variable {c : Char} {n : Int} {cs : List Char}

theorem isDigit_of_mem_digits {n : Nat} (h : c ∈ digits n) : isDigit c = true :=
  Nat.isDigit_of_mem_toDigits (by decide) (by decide) h

theorem readNat?_digits (n : Nat) : readNat? (digits n) = some n := by
  have hdigits : (digits n).all isDigit = true :=
    List.all_eq_true.mpr fun _ h => isDigit_of_mem_digits h
  have hne : digits n ≠ [] := Nat.toDigits_ne_nil
  have hvalue : ofDigits (digits n) = n := Nat.ofDigitChars_ten_toDigits
  simp [readNat?, hdigits, hne, hvalue]

theorem readInt?_digits (n : Nat) : readInt? (digits n) = some (n : Int) := by
  have hhead : ∀ {c : Char} {cs : List Char}, digits n = c :: cs → isDigit c = true :=
    fun h => isDigit_of_mem_digits (h ▸ List.mem_cons_self)
  rw [readInt?, readNat?_digits]
  · rfl
  · intro cs h
    exact absurd (hhead h) (by decide)
  · intro cs h
    exact absurd (hhead h) (by decide)

theorem readInt?_write (n : Int) : readInt? (write n) = some n := by
  cases n with
  | ofNat n => exact readInt?_digits n
  | negSucc n => simp [write, readInt?, readNat?_digits, Int.negSucc_eq]

theorem read?_write (h : fits n = true) : read? (write n) = some n := by
  simp [read?, readInt?_write, h]

theorem fits_of_read? (h : read? cs = some n) : fits n = true :=
  (Option.filter_eq_some_iff.mp h).2

theorem write_ne_nil (n : Int) : write n ≠ [] := by
  cases n with
  | ofNat n => exact Nat.toDigits_ne_nil
  | negSucc n => exact List.cons_ne_nil _ _

theorem mem_write (h : c ∈ write n) : c = '-' ∨ isDigit c = true := by
  cases n with
  | ofNat n => exact .inr (isDigit_of_mem_digits h)
  | negSucc n => exact (List.mem_cons.mp h).imp_right isDigit_of_mem_digits

theorem isBlank_of_mem_write (h : c ∈ write n) : Text.isBlank c = false := by
  rcases mem_write h with rfl | hc
  · rfl
  · obtain ⟨hlow, hhigh⟩ : '0' ≤ c ∧ c ≤ '9' := by simpa [isDigit] using hc
    have hlow : 48 ≤ c.toNat := UInt32.le_iff_toNat_le.mp hlow
    have hhigh : c.toNat ≤ 57 := UInt32.le_iff_toNat_le.mp hhigh
    simp [Text.isBlank]
    omega

theorem comma_not_mem_write (n : Int) : ',' ∉ write n := fun h =>
  absurd (mem_write h) (by decide)

end Whole

namespace Time
open Text
variable {c : Char} {cs : List Char} {v : List Int} {t : Time}

/-- A time that its text determines: a whole number in range, or a vector of them that has a
component. -/
def IsLiteral : Time → Prop
  | .integer n => Whole.fits n = true
  | .vector v => v ≠ [] ∧ ∀ n ∈ v, Whole.fits n = true
  | .zero | .float _ => False

theorem splitAt_joinComponents (hv : v ≠ []) :
    splitAt ',' (joinComponents v) = v.map Whole.write := by
  fun_induction joinComponents v with
  | case1 => exact absurd rfl hv
  | case2 n => exact splitAt_piece (Whole.comma_not_mem_write n)
  | case3 n rest hrest ih =>
    rw [splitAt_append (Whole.comma_not_mem_write n), ih (by simpa using hrest), List.map_cons]

theorem mem_joinComponents (h : c ∈ joinComponents v) : c = ',' ∨ ∃ n, c ∈ Whole.write n := by
  fun_induction joinComponents v with
  | case1 => cases h
  | case2 n => exact .inr ⟨n, h⟩
  | case3 n rest _ ih =>
    rcases List.mem_append.mp h with h | h
    · exact .inr ⟨n, h⟩
    · rcases List.mem_cons.mp h with rfl | h
      · exact .inl rfl
      · exact ih h

theorem trim_write (n : Int) : trim (Whole.write n) = Whole.write n :=
  trim_eq_self fun _ => Whole.isBlank_of_mem_write

theorem readVector?_joinComponents (hv : v ≠ []) (hfits : ∀ n ∈ v, Whole.fits n = true) :
    readVector? (joinComponents v) = some v := by
  rw [readVector?, splitAt_joinComponents hv]
  clear hv
  induction v with
  | nil => rfl
  | cons n v ih =>
    obtain ⟨hn, hv⟩ := List.forall_mem_cons.mp hfits
    simp [trim_write, Whole.read?_write hn, ih hv]

theorem fits_of_components {pieces : List (List Char)}
    (h : pieces.mapM (fun piece => Whole.read? (trim piece)) = some v) :
    v.length = pieces.length ∧ ∀ n ∈ v, Whole.fits n = true := by
  induction pieces generalizing v with
  | nil =>
    obtain rfl : [] = v := by simpa using h
    simp
  | cons piece pieces ih =>
    simp only [List.mapM_cons, Option.bind_eq_bind, Option.bind_eq_some_iff, Option.pure_def,
      Option.some.injEq] at h
    obtain ⟨n, hn, w, hw, rfl⟩ := h
    obtain ⟨hlength, hfits⟩ := ih hw
    exact ⟨by simp [hlength], List.forall_mem_cons.mpr ⟨Whole.fits_of_read? hn, hfits⟩⟩

theorem isLiteral_of_readVector? (h : readVector? cs = some v) : (Time.vector v).IsLiteral := by
  obtain ⟨hlength, hfits⟩ := fits_of_components h
  refine ⟨?_, hfits⟩
  rintro rfl
  exact splitAt_ne_nil ',' cs (List.eq_nil_of_length_eq_zero hlength.symm)

theorem isLiteral_of_ofChars (h : ofChars cs = .ok t) (ht : t.isFloat = false) : t.IsLiteral := by
  unfold ofChars at h
  split at h
  case h_2 => cases h
  case h_1 t' hread =>
    obtain rfl : t' = t := by simpa using h
    unfold readTrimmed? at hread
    split at hread
    · obtain ⟨v, hv, rfl⟩ := Option.map_eq_some_iff.mp hread
      exact isLiteral_of_readVector? hv
    · split at hread
      · next n hn =>
        obtain rfl : Time.integer n = t' := by simpa using hread
        exact Whole.fits_of_read? hn
      · obtain ⟨x, _, rfl⟩ := Option.map_eq_some_iff.mp hread
        cases ht

theorem IsLiteral.isWord (h : t.IsLiteral) : IsWord t.toChars := by
  cases t with
  | zero => exact h.elim
  | float => exact h.elim
  | integer n => exact ⟨Whole.write_ne_nil n, fun _ => Whole.isBlank_of_mem_write⟩
  | vector v =>
    refine ⟨by simp [toChars], fun c hc => ?_⟩
    simp only [toChars, List.mem_append, List.mem_cons, List.not_mem_nil, or_false] at hc
    rcases hc with (rfl | hc) | rfl
    · rfl
    · rcases mem_joinComponents hc with rfl | ⟨n, hn⟩
      · rfl
      · exact Whole.isBlank_of_mem_write hn
    · rfl

/-- A number does not start with a parenthesis. -/
theorem parenthesized?_write (n : Int) : parenthesized? (Whole.write n) = none := by
  rw [parenthesized?]
  intro cs h
  have hmem : '(' ∈ Whole.write n := h ▸ List.mem_cons_self
  exact absurd (Whole.mem_write hmem) (by decide)

theorem parenthesized?_join (cs : List Char) : parenthesized? ('(' :: cs ++ [')']) = some cs := by
  simp [parenthesized?]

/-- The text of a literal is read as the literal. -/
theorem IsLiteral.ofChars_toChars (h : t.IsLiteral) : ofChars t.toChars = .ok t := by
  have hread : readTrimmed? t.toChars = some t := by
    cases t with
    | zero => exact h.elim
    | float => exact h.elim
    | integer n => simp [toChars, readTrimmed?, parenthesized?_write, Whole.read?_write h]
    | vector v =>
      obtain ⟨hv, hfits⟩ := h
      simp only [toChars, readTrimmed?, parenthesized?_join, readVector?_joinComponents hv hfits,
        Option.map_some]
  rw [ofChars, trim_eq_self h.isWord.2, hread]

end Time
end EventInvariants
