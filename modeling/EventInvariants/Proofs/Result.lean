namespace EventInvariants.Result
variable {ε α β : Type}

theorem bind_ok {x : Except ε α} {f : α → Except ε β} {b : β} :
    (x >>= f) = .ok b ↔ ∃ a, x = .ok a ∧ f a = .ok b := by
  cases x with
  | error e => simp [bind, Except.bind]
  | ok a => simp [bind, Except.bind]

@[simp] theorem ok_bind (a : α) (f : α → Except ε β) : (Except.ok a >>= f) = f a := rfl

@[simp] theorem error_bind (e : ε) (f : α → Except ε β) :
    ((Except.error e : Except ε α) >>= f) = .error e := rfl

@[simp] theorem pure_eq (a : α) : (pure a : Except ε α) = .ok a := rfl

theorem map_ok {f : α → β} {x : Except ε α} {b : β} :
    x.map f = .ok b ↔ ∃ a, x = .ok a ∧ f a = b := by
  cases x <;> simp [Except.map]

theorem mapError_ok {ε' : Type} {f : ε → ε'} {x : Except ε α} {a : α} :
    x.mapError f = .ok a ↔ x = .ok a := by
  cases x with
  | error e => exact ⟨nofun, nofun⟩
  | ok b => exact ⟨fun h => by cases h; rfl, fun h => by cases h; rfl⟩

/-- The result is good, or the computation fails in a way that it may. -/
def Ends (good : α → Prop) (bad : ε → Prop) : Except ε α → Prop
  | .ok a => good a
  | .error e => bad e

section
variable {good : α → Prop} {good' : β → Prop} {bad : ε → Prop} {x : Except ε α}

@[simp] theorem ends_ok {a : α} : Ends good bad (.ok a) ↔ good a := Iff.rfl

@[simp] theorem ends_error {e : ε} : Ends good bad (.error e) ↔ bad e := Iff.rfl

theorem ends_of_ok (h : ∀ a, x = .ok a → good a) : Ends good (fun _ => True) x := by
  cases x with
  | error e => trivial
  | ok a => exact h a rfl

theorem Ends.of_eq_ok {a : α} (h : Ends good bad x) (hx : x = .ok a) : good a := by
  subst hx
  exact h

theorem Ends.of_eq_error {e : ε} (h : Ends good bad x) (hx : x = .error e) : bad e := by
  subst hx
  exact h

theorem Ends.total (h : Ends good (fun _ => False) x) : ∃ a, x = .ok a ∧ good a := by
  cases x with
  | error e => exact h.elim
  | ok a => exact ⟨a, rfl, h⟩

theorem Ends.imp {good₁ : α → Prop} {bad₁ : ε → Prop} (h : Ends good bad x)
    (hgood : ∀ a, good a → good₁ a) (hbad : ∀ e, bad e → bad₁ e) : Ends good₁ bad₁ x := by
  cases x with
  | error e => exact hbad e h
  | ok a => exact hgood a h

theorem Ends.bind {f : α → Except ε β} (hx : Ends good bad x)
    (hf : ∀ a, good a → Ends good' bad (f a)) : Ends good' bad (x >>= f) := by
  cases x with
  | error e => exact hx
  | ok a => exact hf a hx

theorem Ends.mapError {ε' : Type} {bad' : ε' → Prop} {f : ε → ε'} (hx : Ends good bad x)
    (hf : ∀ e, bad e → bad' (f e)) : Ends good bad' (x.mapError f) := by
  cases x with
  | error e => exact hf e hx
  | ok a => exact hx

end

/-- A fold ends well if every step of it does. The predicate sees what has been folded in so far. -/
theorem Ends.foldlM {f : β → α → Except ε β} {I : List α → β → Prop} {bad : ε → Prop} (l : List α)
    {b : β} (h0 : I [] b)
    (hstep : ∀ done a rest b, l = done ++ a :: rest → I done b →
      Ends (I (done ++ [a])) bad (f b a)) : Ends (I l) bad (l.foldlM f b) := by
  suffices ∀ (done rest : List α) (c : β), l = done ++ rest → I done c →
      Ends (I (done ++ rest)) bad (rest.foldlM f c) from this [] l b rfl h0
  intro done rest
  induction rest generalizing done with
  | nil =>
    intro c _ hc
    rw [List.append_nil]
    exact hc
  | cons a rest ih =>
    intro c hl hc
    rw [List.foldlM_cons]
    apply (hstep done a rest c hl hc).bind
    intro d hd
    have := ih (done ++ [a]) d (by simp [hl]) hd
    simpa using this

theorem foldlM_keeps {f : β → α → Except ε β} {I : List α → β → Prop} (l : List α) {b b' : β}
    (h0 : I [] b)
    (hstep : ∀ done a rest b b', l = done ++ a :: rest → I done b → f b a = .ok b' →
      I (done ++ [a]) b')
    (h : l.foldlM f b = .ok b') : I l b' :=
  (Ends.foldlM l h0 fun done a rest b hl hb =>
    ends_of_ok fun b' => hstep done a rest b b' hl hb).of_eq_ok h

theorem foldlM_total {f : β → α → Except ε β} (l : List α)
    (hstep : ∀ a ∈ l, ∀ b, ∃ b', f b a = .ok b') (b : β) : ∃ b', l.foldlM f b = .ok b' := by
  induction l generalizing b with
  | nil => exact ⟨b, rfl⟩
  | cons a l ih =>
    obtain ⟨c, hc⟩ := hstep a List.mem_cons_self b
    rw [List.foldlM_cons, hc]
    exact ih (fun x hx => hstep x (List.mem_cons_of_mem a hx)) c

theorem anyM_cons (p : α → Except ε Bool) (a : α) (l : List α) :
    (a :: l).anyM p = (do if ← p a then return true else l.anyM p) := by
  rw [List.anyM]
  congr 1
  funext b
  cases b <;> rfl

theorem anyM_true {p : α → Except ε Bool} {l : List α} (h : l.anyM p = .ok true) :
    ∃ a ∈ l, p a = .ok true := by
  induction l with
  | nil => cases h
  | cons a l ih =>
    rw [anyM_cons, bind_ok] at h
    obtain ⟨b, hb, h⟩ := h
    cases b with
    | true => exact ⟨a, List.mem_cons_self, hb⟩
    | false =>
      obtain ⟨x, hx, hp⟩ := ih h
      exact ⟨x, List.mem_cons_of_mem a hx, hp⟩

theorem anyM_false {p : α → Except ε Bool} {l : List α} (h : l.anyM p = .ok false) :
    ∀ a ∈ l, p a = .ok false := by
  induction l with
  | nil => simp
  | cons a l ih =>
    rw [anyM_cons, bind_ok] at h
    obtain ⟨b, hb, h⟩ := h
    cases b with
    | true => cases h
    | false =>
      intro x hx
      rcases List.mem_cons.mp hx with rfl | hx
      · exact hb
      · exact ih h x hx

/-- A search with a test that never fails is the search with a plain test. -/
theorem anyM_eq {p : α → Except ε Bool} {q : α → Bool} {l : List α}
    (h : ∀ a ∈ l, p a = .ok (q a)) : l.anyM p = .ok (l.any q) := by
  induction l with
  | nil => rfl
  | cons a l ih =>
    rw [anyM_cons, h a List.mem_cons_self, ok_bind, List.any_cons]
    cases q a with
    | true => rfl
    | false => simpa using ih (fun x hx => h x (List.mem_cons_of_mem a hx))

theorem allM_cons (p : α → Except ε Bool) (a : α) (l : List α) :
    (a :: l).allM p = (do if ← p a then l.allM p else return false) := by
  rw [List.allM]
  congr 1
  funext b
  cases b <;> rfl

theorem allM_true {p : α → Except ε Bool} {l : List α} :
    l.allM p = .ok true ↔ ∀ a ∈ l, p a = .ok true := by
  induction l with
  | nil => simp [List.allM]
  | cons a l ih =>
    rw [allM_cons, bind_ok, List.forall_mem_cons, ← ih]
    constructor
    · rintro ⟨b, hb, h⟩
      cases b with
      | true => exact ⟨hb, h⟩
      | false => cases h
    · rintro ⟨ha, h⟩
      exact ⟨true, ha, h⟩

/-- A test that is never answered with no is passed by all, or it fails at one. -/
theorem allM_error {p : α → Except ε Bool} {l : List α}
    (h : ∀ a ∈ l, p a = .ok true ∨ ∃ e, p a = .error e) :
    l.allM p = .ok true ∨ ∃ a ∈ l, ∃ e, p a = .error e ∧ l.allM p = .error e := by
  induction l with
  | nil => exact .inl rfl
  | cons a l ih =>
    obtain ⟨ha, hl⟩ := List.forall_mem_cons.mp h
    rw [allM_cons]
    rcases ha with ha | ⟨e, ha⟩
    · rw [ha, ok_bind, if_pos rfl]
      rcases ih hl with ih | ⟨x, hx, e, he, ih⟩
      · exact .inl ih
      · exact .inr ⟨x, List.mem_cons_of_mem a hx, e, he, ih⟩
    · exact .inr ⟨a, List.mem_cons_self, e, ha, by rw [ha, error_bind]⟩

theorem findM?_eq {p : α → Except ε Bool} {q : α → Bool} {l : List α}
    (h : ∀ a ∈ l, p a = .ok (q a)) : l.findM? p = .ok (l.find? q) := by
  induction l with
  | nil => rfl
  | cons a l ih =>
    rw [List.findM?, h a List.mem_cons_self, ok_bind, List.find?_cons]
    cases q a with
    | true => rfl
    | false => simpa using ih (fun x hx => h x (List.mem_cons_of_mem a hx))

end EventInvariants.Result
