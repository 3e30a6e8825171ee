import EventInvariants.Invariant.Token

namespace EventInvariants

namespace Text
variable {c : Char} {cs gap word rest before after : List Char} {s : String}

theorem byteLength_pos (h : cs ≠ []) : 0 < byteLength cs := by
  cases cs with
  | nil => exact absurd rfl h
  | cons c cs =>
    have := c.utf8Size_pos
    rw [byteLength_cons]
    omega

theorem utf8ByteSize_ofList (cs : List Char) : (String.ofList cs).utf8ByteSize = byteLength cs := by
  induction cs with
  | nil => rfl
  | cons c cs ih =>
    rw [String.ofList_cons, String.utf8ByteSize_append, String.utf8ByteSize_singleton, ih,
      byteLength_cons]

theorem utf8ByteSize_eq (s : String) : s.utf8ByteSize = byteLength s.toList := by
  rw [← utf8ByteSize_ofList, String.ofList_toList]

/-- Where a text splits, no character is cut. -/
theorem isValid_of_split (h : s.toList = before ++ after) :
    String.Pos.Raw.IsValid s ⟨byteLength before⟩ := by
  rw [String.Pos.Raw.isValid_iff_exists_take_toList]
  refine ⟨before.length, ?_⟩
  rw [h, List.take_left, utf8ByteSize_ofList]

/-- One character or more, and no blank. -/
def IsWord (cs : List Char) : Prop :=
  cs ≠ [] ∧ ∀ c ∈ cs, isBlank c = false

instance (cs : List Char) : Decidable (IsWord cs) :=
  decidable_of_iff ((!cs.isEmpty && cs.all (!isBlank ·)) = true) (by simp [IsWord])

theorem IsWord.not_blank (h : IsWord cs) (hc : c ∈ cs) : isBlank c ≠ true := by
  simp [h.2 c hc]

/-- In a text that starts with a blank, something comes before each word. -/
theorem ne_nil_of_blank (hstart : ∀ c ∈ cs.head?, isBlank c = true) (hword : IsWord word)
    (h : cs = before ++ word ++ after) : before ≠ [] := by
  rintro rfl
  obtain ⟨c, rest, rfl⟩ := List.exists_cons_of_ne_nil hword.1
  exact hword.not_blank List.mem_cons_self (hstart c (by simp [h]))

/-- What stands between the two parts of a text has a blank, or an end of the text, at each side. -/
structure Parted (before after : List Char) : Prop where
  left : ∀ c ∈ before.getLast?, isBlank c = true
  right : ∀ c ∈ after.head?, isBlank c = true

/-- The pieces between blanks, but for the empty ones. -/
def words (cs : List Char) : List (List Char) :=
  (cs.splitOnP isBlank).filter (!·.isEmpty)

@[simp] theorem words_nil : words [] = [] := by
  simp [words]

/-- A blank parts the words before it from those after it. -/
theorem words_append_cons (hc : isBlank c = true) :
    words (cs ++ c :: rest) = words cs ++ words rest := by
  rw [words, List.splitOnP_append_cons cs rest hc, List.filter_append, words, words]

theorem words_blank (hgap : ∀ c ∈ gap, isBlank c = true) : words (gap ++ cs) = words cs := by
  induction gap with
  | nil => rfl
  | cons c gap ih =>
    obtain ⟨hc, hgap⟩ := List.forall_mem_cons.mp hgap
    have hcons : words ([] ++ c :: (gap ++ cs)) = words [] ++ words (gap ++ cs) :=
      words_append_cons hc
    simpa [ih hgap] using hcons

theorem words_eq_singleton (hword : IsWord word) : words word = [word] := by
  simp [words, List.splitOnP_eq_singleton hword.2, hword.1]

/-- A word that ends at a blank, or with the text, is the first one. -/
theorem words_word (hword : IsWord word) (hend : ∀ c ∈ rest.head?, isBlank c = true) :
    words (word ++ rest) = word :: words rest := by
  cases rest with
  | nil => rw [List.append_nil, words_eq_singleton hword, words_nil]
  | cons c rest =>
    have hc := hend c rfl
    have hrest : words ([c] ++ rest) = words rest := words_blank (by simpa using hc)
    rw [words_append_cons hc, words_eq_singleton hword, ← hrest]
    rfl

end Text

namespace Token
open Text
variable {offset : Nat} {cs gap word rest : List Char} {tokens : List Token} {t u : Token}

/-- The words of a text that starts at byte `offset`, taken off one after another. -/
def scanFrom (offset : Nat) : List Char → List Token
  | [] => []
  | c :: rest =>
    if isBlank c then scanFrom (offset + c.utf8Size) rest
    else
      let word := c :: rest.takeWhile (!isBlank ·)
      ⟨offset, word⟩ :: scanFrom (offset + Text.byteLength word) (rest.dropWhile (!isBlank ·))
termination_by cs => cs.length
decreasing_by
  · simp
  · exact Nat.lt_succ_of_le (List.dropWhile_sublist _).length_le

theorem scanFrom_blank (hgap : ∀ c ∈ gap, isBlank c = true) :
    scanFrom offset (gap ++ cs) = scanFrom (offset + Text.byteLength gap) cs := by
  induction gap generalizing offset with
  | nil => rfl
  | cons c gap ih =>
    obtain ⟨hc, hgap⟩ := List.forall_mem_cons.mp hgap
    rw [List.cons_append, scanFrom, if_pos hc, ih hgap, byteLength_cons, Nat.add_assoc]

theorem scanFrom_word (hword : IsWord word) (hend : ∀ c ∈ rest.head?, isBlank c = true) :
    scanFrom offset (word ++ rest) =
      ⟨offset, word⟩ :: scanFrom (offset + Text.byteLength word) rest := by
  obtain ⟨hne, hword⟩ := hword
  obtain ⟨c, cs, rfl⟩ := List.exists_cons_of_ne_nil hne
  obtain ⟨hc, hcs⟩ := List.forall_mem_cons.mp hword
  have hcs : ∀ x ∈ cs, (!isBlank x) = true := by simpa using hcs
  have htake : rest.takeWhile (!isBlank ·) = [] ∧ rest.dropWhile (!isBlank ·) = rest := by
    cases rest with
    | nil => exact ⟨rfl, rfl⟩
    | cons x rest => simp [hend x rfl]
  rw [List.cons_append, scanFrom, if_neg (by simp [hc]), List.takeWhile_append_of_pos hcs,
    List.dropWhile_append_of_pos hcs, htake.1, htake.2, List.append_nil]

namespace Scanner
variable {s : Scanner} {done : List Char} {c : Char}

/-- A word that has started goes up to the end of what is done. -/
def Reads (done : List Char) (s : Scanner) : Prop :=
  ∀ first ∈ s.start, ∃ before word, done = before ++ word ∧ first = Text.byteLength before ∧
    IsWord word

/-- What scanning comes to: the words found and those from the start of the word being read on. -/
def outcome (cs : List Char) (offset : Nat) (s : Scanner) : List Token :=
  s.found.toList ++ scanFrom (s.start.getD offset) (dropBytes (s.start.getD offset) cs)

theorem step_outcome (hcs : cs = done ++ c :: rest) (h : s.Reads done) :
    (s.step cs (Text.byteLength done, c)).Reads (done ++ [c]) ∧
      (s.step cs (Text.byteLength done, c)).outcome cs (Text.byteLength (done ++ [c])) =
        s.outcome cs (Text.byteLength done) := by
  have hhere : dropBytes (Text.byteLength done) cs = c :: rest := by rw [hcs, dropBytes_append]
  have hnext : dropBytes (Text.byteLength (done ++ [c])) cs = rest := by
    rw [hcs, List.append_cons done c rest, dropBytes_append]
  have hskip : isBlank c = true → scanFrom (Text.byteLength done) (c :: rest) =
      scanFrom (Text.byteLength (done ++ [c])) rest := by
    intro hc
    rw [scanFrom, if_pos hc, byteLength_append]
    rfl
  obtain ⟨start, found⟩ := s
  cases start with
  | none =>
    cases hc : isBlank c with
    | true =>
      simp only [step, hc, outcome, Option.getD_none, hhere, hnext, hskip hc]
      exact ⟨nofun, trivial⟩
    | false =>
      simp only [step, hc, outcome, Option.getD_some, Option.getD_none]
      refine ⟨fun first hfirst => ?_, trivial⟩
      cases hfirst
      exact ⟨done, [c], rfl, rfl, by simpa [IsWord] using hc⟩
  | some first =>
    obtain ⟨before, word, rfl, rfl, hword⟩ := h first rfl
    cases hc : isBlank c with
    | true =>
      have hslice :
          slice cs (Text.byteLength before) (Text.byteLength (before ++ word)) = word := by
        rw [hcs, byteLength_append, slice_append]
      have hscan : scanFrom (Text.byteLength before) (dropBytes (Text.byteLength before) cs) =
          ⟨Text.byteLength before, word⟩ ::
            scanFrom (Text.byteLength (before ++ word ++ [c])) rest := by
        rw [hcs, List.append_assoc, dropBytes_append, scanFrom_word hword (by simpa using hc),
          ← hskip hc, byteLength_append]
      simp only [step, hc, outcome, Option.getD_some, Option.getD_none, hslice, hscan, hnext]
      exact ⟨nofun, by simp⟩
    | false =>
      simp only [step, hc, outcome, Option.getD_some]
      refine ⟨fun first hfirst => ?_, trivial⟩
      cases hfirst
      refine ⟨before, word ++ [c], by simp, rfl, by simp, fun x hx => ?_⟩
      rcases List.mem_append.mp hx with hx | hx
      · exact hword.2 x hx
      · rw [List.mem_singleton.mp hx, hc]

theorem run_outcome (hcs : cs = done ++ rest) (h : s.Reads done) :
    ((charOffsets (Text.byteLength done) rest).foldl (step cs) s).finish cs =
      s.outcome cs (Text.byteLength done) := by
  induction rest generalizing s done with
  | nil =>
    rw [List.append_nil] at hcs
    subst hcs
    obtain ⟨start, found⟩ := s
    cases start with
    | none =>
      have hend : dropBytes (Text.byteLength cs) cs = [] := by
        simpa using dropBytes_append cs []
      simp [charOffsets, finish, outcome, hend, scanFrom]
    | some first =>
      obtain ⟨before, word, rfl, rfl, hword⟩ := h first rfl
      have hscan : scanFrom (Text.byteLength before) (word ++ []) =
          [⟨Text.byteLength before, word⟩] := by
        rw [scanFrom_word hword (by simp), scanFrom]
      rw [List.append_nil] at hscan
      simp [charOffsets, finish, outcome, dropBytes_append, hscan]
  | cons c rest ih =>
    obtain ⟨hreads, houtcome⟩ := step_outcome hcs h
    have hrest := ih (hcs.trans (List.append_cons ..)) hreads
    rw [byteLength_append] at hrest
    rw [← houtcome, byteLength_append, ← hrest]
    rfl

end Scanner

/-- One pass over the text finds the words that can be taken off it one after another. -/
theorem scan_eq (cs : List Char) : scan cs = scanFrom 0 cs := by
  have hrun : scan cs = Scanner.outcome cs 0 ⟨none, #[]⟩ :=
    Scanner.run_outcome (List.nil_append cs).symm nofun
  have hwhole : dropBytes 0 cs = cs := dropBytes_append [] cs
  rw [hrun, Scanner.outcome, Option.getD_none, hwhole, List.nil_append]

/-- A text that starts at byte `offset` consists of the words, with blanks between them and around
them. -/
inductive Spells : Nat → List Char → List Token → Prop where
  | blank {offset : Nat} {gap : List Char} (hgap : ∀ c ∈ gap, isBlank c = true) :
      Spells offset gap []
  | word {offset : Nat} {gap word rest : List Char} {tokens : List Token}
      (hgap : ∀ c ∈ gap, isBlank c = true) (hword : IsWord word)
      (hend : ∀ c ∈ rest.head?, isBlank c = true)
      (h : Spells (offset + Text.byteLength gap + Text.byteLength word) rest tokens) :
      Spells offset (gap ++ word ++ rest) (⟨offset + Text.byteLength gap, word⟩ :: tokens)

theorem Spells.cons_blank {c : Char} (hc : isBlank c = true)
    (h : Spells (offset + c.utf8Size) cs tokens) : Spells offset (c :: cs) tokens := by
  have more : ∀ {gap : List Char}, (∀ x ∈ gap, isBlank x = true) →
      ∀ x ∈ c :: gap, isBlank x = true := fun hgap => List.forall_mem_cons.mpr ⟨hc, hgap⟩
  cases h with
  | blank hgap => exact .blank (more hgap)
  | @word _ gap word rest tokens hgap hword hend h =>
    have hoffset : offset + c.utf8Size + Text.byteLength gap =
        offset + Text.byteLength (c :: gap) := by
      rw [byteLength_cons]
      omega
    rw [hoffset] at h ⊢
    show Spells offset (c :: gap ++ word ++ rest) _
    exact .word (more hgap) hword hend h

theorem spells_scanFrom (offset : Nat) (cs : List Char) :
    Spells offset cs (scanFrom offset cs) := by
  fun_induction scanFrom offset cs with
  | case1 offset => exact .blank (by simp)
  | case2 offset c rest hc ih => exact ih.cons_blank hc
  | case3 offset c rest hc word ih =>
    have hword : IsWord word := by
      refine ⟨by simp [word], fun x hx => ?_⟩
      rcases List.mem_cons.mp hx with rfl | hx
      · simpa using hc
      · simpa using List.all_eq_true.mp List.all_takeWhile x hx
    have hend : ∀ x ∈ (rest.dropWhile (!isBlank ·)).head?, isBlank x = true := by
      intro x hx
      have := List.head?_dropWhile_not (!isBlank ·) rest
      rw [hx] at this
      simpa using this
    have hsplit : c :: rest = [] ++ word ++ rest.dropWhile (!isBlank ·) := by
      simp [word, List.takeWhile_append_dropWhile]
    rw [hsplit]
    exact .word (by simp) hword hend ih

theorem spells_scan (cs : List Char) : Spells 0 cs (scan cs) :=
  scan_eq cs ▸ spells_scanFrom 0 cs

theorem Spells.words (h : Spells offset cs tokens) : words cs = tokens.map Token.text := by
  induction h with
  | @blank _ gap hgap => rw [← List.append_nil gap, words_blank hgap, words_nil, List.map_nil]
  | word hgap hword hend _ ih =>
    rw [List.append_assoc, words_blank hgap, words_word hword hend, ih, List.map_cons]

theorem Spells.isWord (h : Spells offset cs tokens) (ht : t ∈ tokens) : IsWord t.text := by
  induction h with
  | blank => cases ht
  | word _ hword _ _ ih =>
    rcases List.mem_cons.mp ht with rfl | ht
    · exact hword
    · exact ih ht

/-- Each word stands in the text between blanks, after as many bytes as its offset says. -/
theorem Spells.parted (h : Spells offset cs tokens) (ht : t ∈ tokens) :
    ∃ before after, cs = before ++ t.text ++ after ∧
      t.offset = offset + Text.byteLength before ∧ Parted before after := by
  induction h with
  | blank => cases ht
  | @word offset gap word rest _ hgap _ hend h ih =>
    rcases List.mem_cons.mp ht with rfl | ht
    · exact ⟨gap, rest, rfl, rfl, fun c hc => hgap c (List.mem_of_getLast? hc), hend⟩
    · obtain ⟨before, after, hrest, hoffset, hparted⟩ := ih ht
      have hbefore := ne_nil_of_blank hend (h.isWord ht) hrest
      refine ⟨gap ++ word ++ before, after, by simp [hrest], ?_, fun c hc => ?_, hparted.right⟩
      · rw [hoffset, byteLength_append, byteLength_append]
        omega
      · rw [List.getLast?_append, Option.or_of_isSome (List.getLast?_isSome.mpr hbefore)] at hc
        exact hparted.left c hc

theorem Spells.split (h : Spells offset cs tokens) (ht : t ∈ tokens) :
    ∃ before after, cs = before ++ t.text ++ after ∧
      t.offset = offset + Text.byteLength before := by
  obtain ⟨before, after, hcs, hoffset, _⟩ := h.parted ht
  exact ⟨before, after, hcs, hoffset⟩

/-- The bytes of a word lie after those of every word before it, and a blank lies between. -/
theorem Spells.apart (h : Spells offset cs tokens) :
    tokens.Pairwise fun t u => t.offset + t.byteLength < u.offset := by
  induction h with
  | blank => exact .nil
  | @word offset gap word rest tokens _ _ hend h ih =>
    refine .cons (fun u hu => ?_) ih
    obtain ⟨before, after, hrest, hoffset⟩ := h.split hu
    have := byteLength_pos (ne_nil_of_blank hend (h.isWord hu) hrest)
    rw [hoffset]
    simp only [byteLength]
    omega

end Token
end EventInvariants
