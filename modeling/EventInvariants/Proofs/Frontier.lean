import EventInvariants.StateSet
import EventInvariants.Proofs.Moves

namespace EventInvariants

namespace Entry

theorem beats_iff {m : Monitor} {x y : Entry} {v : Bool} (hx : x.clock.IsExact)
    (hy : y.clock.IsExact) (h : beats m x y = .ok v) :
    v = true ↔ x.length ≤ y.length ∧ m.Leads x.clock y.clock := by
  unfold beats at h
  by_cases hl : x.length ≤ y.length
  · rw [if_pos hl, Result.bind_ok] at h
    obtain ⟨o, ho, h⟩ := h
    cases h
    rw [bne_iff_ne, Monitor.severity_leads hx hy ho]
    simp [hl]
  · rw [if_neg hl] at h
    cases h
    simp [hl]

end Entry

namespace Frontier
variable {m : Monitor} {new : Entry} {f kept : Frontier}

theorem survivors_none (h : survivors? m new f = .ok none) :
    ∃ x ∈ f, Entry.beats m x new = .ok true := by
  induction f with
  | nil => cases h
  | cons old rest ih =>
    rw [survivors?, Result.bind_ok] at h
    obtain ⟨won, hwon, h⟩ := h
    cases won with
    | true => exact ⟨old, List.mem_cons_self, hwon⟩
    | false =>
      obtain ⟨lost, _, h⟩ := Result.bind_ok.mp h
      obtain ⟨r, hr, h⟩ := Result.bind_ok.mp h
      cases r with
      | some kept => cases h
      | none =>
        obtain ⟨x, hx, hb⟩ := ih hr
        exact ⟨x, List.mem_cons_of_mem old hx, hb⟩

/-- Entries that do not survive are beaten by the new one, and none of the old ones beats it. -/
theorem survivors_some (h : survivors? m new f = .ok (some kept)) :
    kept.Sublist f ∧ (∀ x ∈ f, Entry.beats m x new = .ok false) ∧
      ∀ x ∈ f, x ∈ kept ∨ Entry.beats m new x = .ok true := by
  induction f generalizing kept with
  | nil =>
    cases h
    simp
  | cons old rest ih =>
    rw [survivors?, Result.bind_ok] at h
    obtain ⟨won, hwon, h⟩ := h
    cases won with
    | true => cases h
    | false =>
      obtain ⟨lost, hlost, h⟩ := Result.bind_ok.mp h
      obtain ⟨r, hr, h⟩ := Result.bind_ok.mp h
      cases r with
      | none => cases h
      | some others =>
        cases h
        obtain ⟨hsub, hbeat, hkept⟩ := ih hr
        refine ⟨?_, ?_, ?_⟩
        · cases lost with
          | true => exact hsub.cons old
          | false => exact hsub.cons_cons old
        · intro x hx
          rcases List.mem_cons.mp hx with rfl | hx
          · exact hwon
          · exact hbeat x hx
        · intro x hx
          rcases List.mem_cons.mp hx with rfl | hx
          · cases lost with
            | true => exact .inr hlost
            | false => exact .inl List.mem_cons_self
          · rcases hkept x hx with hin | hlose
            · left
              cases lost with
              | true => exact hin
              | false => exact List.mem_cons_of_mem old hin
            · exact .inr hlose

theorem insert_cons (new e : Entry) (f : Frontier) :
    insert new (e :: f) =
      if e.length ≤ new.length then e :: insert new f else new :: e :: f := by
  by_cases h : e.length ≤ new.length <;> simp [insert, h]

theorem mem_insert {x : Entry} : x ∈ insert new f ↔ x = new ∨ x ∈ f := by
  induction f with
  | nil => simp [insert]
  | cons e f ih =>
    rw [insert_cons]
    split
    · simp only [List.mem_cons, ih]
      exact or_left_comm
    · simp only [List.mem_cons]

/-- The shortest history stands first. -/
def Sorted (f : Frontier) : Prop :=
  f.Pairwise fun x y => x.length ≤ y.length

theorem insert_sorted (h : Sorted f) : Sorted (insert new f) := by
  induction f with
  | nil => simp [insert, Sorted]
  | cons e f ih =>
    obtain ⟨hhead, htail⟩ := List.pairwise_cons.mp h
    rw [insert_cons]
    split
    · rename_i hle
      refine List.pairwise_cons.mpr ⟨?_, ih htail⟩
      intro x hx
      rcases mem_insert.mp hx with rfl | hx
      · exact hle
      · exact hhead x hx
    · refine List.pairwise_cons.mpr ⟨?_, h⟩
      intro x hx
      rcases List.mem_cons.mp hx with rfl | hx
      · omega
      · have := hhead x hx
        omega

theorem offer_none (h : f.offer? m new = .ok none) : ∃ x ∈ f, Entry.beats m x new = .ok true := by
  rw [offer?, Result.bind_ok] at h
  obtain ⟨r, hr, h⟩ := h
  cases r with
  | none => exact survivors_none hr
  | some kept => cases h

theorem offer_some {f' : Frontier} (h : f.offer? m new = .ok (some f')) :
    (∀ x ∈ f, Entry.beats m x new = .ok false) ∧
      (∀ x ∈ f, x ∈ f' ∨ Entry.beats m new x = .ok true) ∧ new ∈ f' ∧
      (∀ x ∈ f', x = new ∨ x ∈ f) ∧ (Sorted f → Sorted f') := by
  rw [offer?, Result.bind_ok] at h
  obtain ⟨r, hr, h⟩ := h
  cases r with
  | none => cases h
  | some kept =>
    cases h
    obtain ⟨hsub, hbeat, hkept⟩ := survivors_some hr
    refine ⟨hbeat, ?_, mem_insert.mpr (.inl rfl), ?_, fun hs => insert_sorted (hs.sublist hsub)⟩
    · intro x hx
      rcases hkept x hx with hin | hlose
      · exact .inl (mem_insert.mpr (.inr hin))
      · exact .inr hlose
    · intro x hx
      rcases mem_insert.mp hx with rfl | hx
      · exact .inl rfl
      · exact .inr (hsub.subset hx)

end Frontier

namespace StateSet
variable {m : Monitor} {s t u : StateSet} {p q : Phase} {n : Nat} {c : Clock} {e : Entry}

theorem frontier_update (s : StateSet) (f : Frontier) (p q : Phase) :
    (s.update f p).frontier q = if q = p then f else s.frontier q := by
  cases p <;> cases q <;> rfl

@[simp] theorem frontier_empty (p : Phase) : empty.frontier p = [] := by
  cases p <;> rfl

theorem mem_entries : (p, e) ∈ s.entries ↔ e ∈ s.frontier p := by
  cases p <;> simp [entries, phases, frontier]

def IsExact (s : StateSet) : Prop :=
  ∀ p, ∀ e ∈ s.frontier p, e.clock.IsExact

def Sorted (s : StateSet) : Prop :=
  ∀ p, Frontier.Sorted (s.frontier p)

/-- Some entry makes a path of length `n` superfluous that arrives in state `p` with clock `c`. -/
def Covers (m : Monitor) (s : StateSet) (p : Phase) (n : Nat) (c : Clock) : Prop :=
  ∃ x ∈ s.frontier p, x.length ≤ n ∧ m.Leads x.clock c

theorem covers_of_mem (m : Monitor) (h : e ∈ s.frontier p) : s.Covers m p e.length e.clock :=
  ⟨e, h, Nat.le_refl _, Monitor.Leads.refl m e.clock⟩

theorem Covers.mono {n' : Nat} {c' : Clock} (h : s.Covers m p n c) (hn : n ≤ n')
    (hc : m.Leads c c') : s.Covers m p n' c' := by
  obtain ⟨x, hx, hlen, hlead⟩ := h
  exact ⟨x, hx, Nat.le_trans hlen hn, hlead.trans hc⟩

def Grows (m : Monitor) (s t : StateSet) : Prop :=
  ∀ p n c, s.Covers m p n c → t.Covers m p n c

theorem Grows.refl (m : Monitor) (s : StateSet) : Grows m s s :=
  fun _ _ _ h => h

theorem Grows.trans (hst : Grows m s t) (htu : Grows m t u) : Grows m s u :=
  fun p n c h => htu p n c (hst p n c h)

/-- The second set comes of offering entries to the first. Those that are kept were not covered. -/
structure Learns (m : Monitor) (s : StateSet) (offered : List (Phase × Entry)) (t : StateSet) :
    Prop where
  mem : ∀ p, ∀ e ∈ t.frontier p,
    e ∈ s.frontier p ∨ (p, e) ∈ offered ∧ ¬ s.Covers m p e.length e.clock
  grows : Grows m s t
  covers : ∀ p e, (p, e) ∈ offered → t.Covers m p e.length e.clock
  sorted : s.Sorted → t.Sorted

theorem Learns.nil (m : Monitor) (s : StateSet) : Learns m s [] s where
  mem _ _ he := .inl he
  grows := .refl m s
  covers _ _ h := by cases h
  sorted h := h

theorem Learns.append {l l' : List (Phase × Entry)} (hst : Learns m s l t)
    (htu : Learns m t l' u) : Learns m s (l ++ l') u where
  mem p e he := by
    rcases htu.mem p e he with he | ⟨he, hnew⟩
    · rcases hst.mem p e he with he | ⟨he, hnew⟩
      · exact .inl he
      · exact .inr ⟨List.mem_append_left l' he, hnew⟩
    · exact .inr ⟨List.mem_append_right l he, fun h => hnew (hst.grows p _ _ h)⟩
  grows := hst.grows.trans htu.grows
  covers p e he := by
    rcases List.mem_append.mp he with he | he
    · exact htu.grows p _ _ (hst.covers p e he)
    · exact htu.covers p e he
  sorted h := htu.sorted (hst.sorted h)

theorem Learns.exact {l : List (Phase × Entry)} (h : Learns m s l t) (hs : s.IsExact)
    (hl : ∀ p e, (p, e) ∈ l → e.clock.IsExact) : t.IsExact := by
  intro p e he
  rcases h.mem p e he with he | ⟨he, _⟩
  · exact hs p e he
  · exact hl p e he

theorem offer_sorted {r : Option StateSet} (h : s.offer? m p e = .ok r) (hs : s.Sorted) :
    (r.getD s).Sorted := by
  rw [offer?, Result.bind_ok] at h
  obtain ⟨r, hr, h⟩ := h
  cases h
  cases r with
  | none => exact hs
  | some f =>
    obtain ⟨_, _, _, _, hsorted⟩ := Frontier.offer_some hr
    intro q
    simp only [Option.map_some, Option.getD_some, frontier_update]
    split
    · exact hsorted (hs p)
    · exact hs q

/-- An entry is kept if and only if it was not covered. -/
theorem offer_learns {r : Option StateSet} (hs : s.IsExact) (he : e.clock.IsExact)
    (h : s.offer? m p e = .ok r) :
    Learns m s [(p, e)] (r.getD s) ∧ (r ≠ none → ¬ s.Covers m p e.length e.clock) := by
  have hsorted := offer_sorted h
  rw [offer?, Result.bind_ok] at h
  obtain ⟨r, hr, h⟩ := h
  cases h
  cases r with
  | none =>
    obtain ⟨x, hx, hb⟩ := Frontier.offer_none hr
    have hcov : s.Covers m p e.length e.clock := ⟨x, hx, (Entry.beats_iff (hs p x hx) he hb).mp rfl⟩
    refine ⟨⟨fun _ _ h => .inl h, .refl m s, ?_, fun h => h⟩, fun h => absurd rfl h⟩
    intro q y hy
    cases List.mem_singleton.mp hy
    exact hcov
  | some f' =>
    obtain ⟨hbeat, hkept, hnew, hmem, _⟩ := Frontier.offer_some hr
    have hunc : ¬ s.Covers m p e.length e.clock := by
      intro h
      obtain ⟨x, hx, hlead⟩ := h
      have := (Entry.beats_iff (hs p x hx) he (hbeat x hx)).mpr hlead
      cases this
    refine ⟨⟨?_, ?_, ?_, hsorted⟩, fun _ => hunc⟩
    · intro q x hx
      simp only [Option.map_some, Option.getD_some, frontier_update] at hx
      split at hx
      · rename_i hq
        subst hq
        rcases hmem x hx with rfl | hx
        · exact .inr ⟨List.mem_singleton.mpr rfl, hunc⟩
        · exact .inl hx
      · exact .inl hx
    · intro q n c h
      obtain ⟨x, hx, hlen, hlead⟩ := h
      simp only [Covers, Option.map_some, Option.getD_some, frontier_update]
      split
      · rename_i hq
        subst hq
        -- an entry that was dropped is beaten by the new one, which covers all that it covered
        rcases hkept x hx with hin | hlose
        · exact ⟨x, hin, hlen, hlead⟩
        · obtain ⟨hle, hl⟩ := (Entry.beats_iff he (hs q x hx) hlose).mp rfl
          exact ⟨e, hnew, Nat.le_trans hle hlen, hl.trans hlead⟩
      · exact ⟨x, hx, hlen, hlead⟩
    · intro q x hx
      cases List.mem_singleton.mp hx
      apply covers_of_mem
      simpa [frontier_update] using hnew

/-- Offering entries one after another. If none was kept, the set is as before. -/
theorem offerAll_learns {l : List (Phase × Entry)} {added : Bool} (hs : s.IsExact)
    (hl : ∀ p e, (p, e) ∈ l → e.clock.IsExact) (h : s.offerAll m l = (t, .ok added)) :
    Learns m s l t ∧ (added = false → t = s) ∧
      (added = true → ∃ p e, (p, e) ∈ l ∧ ¬ s.Covers m p e.length e.clock) := by
  induction l generalizing s added with
  | nil =>
    cases h
    exact ⟨.nil m _, fun _ => rfl, by simp⟩
  | cons first rest ih =>
    obtain ⟨p, e⟩ := first
    have hrest : ∀ q x, (q, x) ∈ rest → x.clock.IsExact :=
      fun q x hx => hl q x (List.mem_cons_of_mem _ hx)
    rw [offerAll] at h
    split at h
    · cases h
    · rename_i hr
      obtain ⟨hfirst, _⟩ := offer_learns hs (hl p e List.mem_cons_self) hr
      obtain ⟨hlearn, hsame, hgain⟩ := ih hs hrest h
      refine ⟨hfirst.append hlearn, hsame, fun ha => ?_⟩
      obtain ⟨q, x, hx, hnew⟩ := hgain ha
      exact ⟨q, x, List.mem_cons_of_mem _ hx, hnew⟩
    · rename_i s' hr
      obtain ⟨hfirst, hnew⟩ := offer_learns hs (hl p e List.mem_cons_self) hr
      have hs' : s'.IsExact := hfirst.exact hs (by
        intro q x hx
        cases List.mem_singleton.mp hx
        exact hl p e List.mem_cons_self)
      cases hrec : s'.offerAll m rest with
      | mk u answer =>
        rw [hrec] at h
        cases answer with
        | error fault => cases h
        | ok b =>
          cases h
          obtain ⟨hlearn, _, _⟩ := ih hs' hrest hrec
          refine ⟨hfirst.append hlearn, by simp, fun _ => ?_⟩
          exact ⟨p, e, List.mem_cons_self, hnew (by simp)⟩

theorem merge_learns {improved : Bool} (hs : s.IsExact) (ht : t.IsExact)
    (h : s.merge m t = (u, .ok improved)) :
    Learns m s t.entries u ∧ (improved = false → u = s) ∧
      (improved = true → ∃ p, ∃ e ∈ t.frontier p, ¬ s.Covers m p e.length e.clock) := by
  have hl : ∀ p e, (p, e) ∈ t.entries → e.clock.IsExact :=
    fun p e he => ht p e (mem_entries.mp he)
  obtain ⟨hlearn, hsame, hgain⟩ := offerAll_learns hs hl h
  refine ⟨hlearn, hsame, fun hi => ?_⟩
  obtain ⟨p, e, he, hnew⟩ := hgain hi
  exact ⟨p, e, mem_entries.mp he, hnew⟩

/-- A set that offers a state which the other lacks is kept at least in part. -/
theorem merge_grew {improved : Bool} (hs : s.IsExact) (ht : t.IsExact)
    (h : s.merge m t = (u, .ok improved)) (hgrew : t.isSubset s = false) : improved = true := by
  obtain ⟨hlearn, hsame, _⟩ := merge_learns hs ht h
  cases improved with
  | true => rfl
  | false =>
    rw [hsame rfl] at hlearn
    obtain ⟨p, _, hp⟩ := List.all_eq_false.mp hgrew
    simp only [Bool.or_eq_true, Bool.not_eq_true', not_or, List.isEmpty_iff, Bool.not_eq_false]
      at hp
    obtain ⟨hp, hempty⟩ := hp
    obtain ⟨e, he⟩ := List.exists_mem_of_ne_nil _ hp
    obtain ⟨x, hx, _⟩ := hlearn.covers p e (mem_entries.mpr he)
    rw [hempty] at hx
    cases hx

theorem begin_learns {v : Nat} {l : Letter} {r : Option StateSet} (hs : s.IsExact)
    (h : s.begin? m v l = .ok r) :
    ∃ p c, m.initial l = .ok (p, c) ∧ Learns m s [(p, ⟨.root v, c⟩)] (r.getD s) := by
  rw [begin?, Result.bind_ok] at h
  obtain ⟨⟨p, c⟩, hi, h⟩ := h
  have hc : c.IsExact := Monitor.enter_exact (c := .idle) trivial hi
  exact ⟨p, c, hi, (offer_learns (e := ⟨.root v, c⟩) hs hc h).1⟩

/-- What an edge makes of a set: every entry takes a step, and all that the new set holds comes
from such a step. -/
theorem transition_spec {v : Nat} {l : Letter} {delta : Option Time} (hs : s.IsExact)
    (hd : m.window ≠ none → (delta.getD .zero).isFloat = false)
    (h : s.transition m v l delta = .ok t) :
    t.IsExact ∧
      (∀ q, ∀ x ∈ t.frontier q, ∃ p, ∃ e ∈ s.frontier p, ∃ c,
        m.step p e.clock l (delta.getD .zero) = .ok (q, c) ∧ x = ⟨e.history.extend v delta, c⟩) ∧
      ∀ p, ∀ e ∈ s.frontier p, ∃ q c,
        m.step p e.clock l (delta.getD .zero) = .ok (q, c) ∧ t.Covers m q (e.length + 1) c := by
  suffices t.IsExact ∧
      (∀ q, ∀ x ∈ t.frontier q, ∃ p e c, (p, e) ∈ s.entries ∧
        m.step p e.clock l (delta.getD .zero) = .ok (q, c) ∧ x = ⟨e.history.extend v delta, c⟩) ∧
      ∀ p e, (p, e) ∈ s.entries → ∃ q c,
        m.step p e.clock l (delta.getD .zero) = .ok (q, c) ∧ t.Covers m q (e.length + 1) c by
    obtain ⟨hexact, hfrom, hto⟩ := this
    refine ⟨hexact, ?_, fun p e he => hto p e (mem_entries.mpr he)⟩
    intro q x hx
    obtain ⟨p, e, c, he, hstep, hx⟩ := hfrom q x hx
    exact ⟨p, e, mem_entries.mp he, c, hstep, hx⟩
  refine Result.foldlM_keeps (I := fun done t => t.IsExact ∧
      (∀ q, ∀ x ∈ t.frontier q, ∃ p e c, (p, e) ∈ done ∧
        m.step p e.clock l (delta.getD .zero) = .ok (q, c) ∧ x = ⟨e.history.extend v delta, c⟩) ∧
      ∀ p e, (p, e) ∈ done → ∃ q c,
        m.step p e.clock l (delta.getD .zero) = .ok (q, c) ∧ t.Covers m q (e.length + 1) c)
    s.entries ⟨by simp [IsExact], by simp, by simp⟩ ?_ h
  intro done pe rest t u hsplit hI h
  obtain ⟨p, e⟩ := pe
  obtain ⟨hexact, hfrom, hto⟩ := hI
  obtain ⟨⟨q, c⟩, hstep, h⟩ := Result.bind_ok.mp h
  obtain ⟨r, hr, h⟩ := Result.bind_ok.mp h
  cases h
  have he := hs p e (mem_entries.mp (by simp [hsplit]))
  have hc : c.IsExact := (Monitor.moves_of_step hd he hstep).exact he
  obtain ⟨hlearn, _⟩ := offer_learns hexact (e := ⟨e.history.extend v delta, c⟩) hc hr
  refine ⟨hlearn.exact hexact ?_, ?_, ?_⟩
  · intro q' x hx
    cases List.mem_singleton.mp hx
    exact hc
  · intro q' x hx
    rcases hlearn.mem q' x hx with hx | ⟨hx, _⟩
    · obtain ⟨p', e', c', he', hrest⟩ := hfrom q' x hx
      exact ⟨p', e', c', List.mem_append_left _ he', hrest⟩
    · cases List.mem_singleton.mp hx
      exact ⟨p, e, c, List.mem_append_right _ (List.mem_singleton.mpr rfl), hstep, rfl⟩
  · intro p' e' he'
    rcases List.mem_append.mp he' with he' | he'
    · obtain ⟨q', c', hstep', hcov⟩ := hto p' e' he'
      exact ⟨q', c', hstep', hlearn.grows _ _ _ hcov⟩
    · cases List.mem_singleton.mp he'
      exact ⟨q, c, hstep, hlearn.covers q _ (List.mem_singleton.mpr rfl)⟩

end StateSet
end EventInvariants
