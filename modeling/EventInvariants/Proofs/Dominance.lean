import EventInvariants.Proofs.Arithmetic

namespace EventInvariants

namespace Time
variable {b s t delta : Time} {o : Ordering}

/-- What compares with a bound of whole numbers or of vectors is no double. -/
theorem not_float_of_order (hb : (∃ n, b = .integer n) ∨ ∃ v, b = .vector v)
    (h : s.order b = .ok o) : s.isFloat = false := by
  rcases hb with ⟨n, rfl⟩ | ⟨v, rfl⟩
  · exact (scalar_of_order h).not_float
  · exact (inDimension_of_order h).not_float

theorem not_float_of_add (h : s.add delta = .ok t) (ht : t.isFloat = false) :
    s.isFloat = false ∧ delta.isFloat = false := by
  cases s with
  | zero =>
    cases h
    exact ⟨rfl, ht⟩
  | integer m | vector v =>
    cases delta with
    | float x => cases h
    | zero | integer n | vector w => exact ⟨rfl, rfl⟩
  | float x =>
    cases delta with
    | integer n | vector w => cases h
    | zero =>
      cases h
      cases ht
    | float y =>
      simp only [add] at h
      split at h
      · cases h
      · cases h
        cases ht

end Time

namespace Bound
variable {w : Bound} {delta : Time} {c c' : Clock}

/-- A clock that advances shows an exact time and advances by an exact sum. -/
theorem advances_of_advance (hb : (∃ n, w.value = .integer n) ∨ ∃ v, w.value = .vector v)
    (h : w.advance delta c = .ok c') : c.IsExact ∧ w.Advances delta c c' := by
  cases c with
  | idle | saturated =>
    cases h
    exact ⟨trivial, rfl⟩
  | running s =>
    obtain ⟨t, hadd, hset⟩ := Result.bind_ok.mp h
    obtain ⟨o, ho, _⟩ := settle_ok hset
    have ht := Time.not_float_of_order hb ho
    obtain ⟨hs, hdelta⟩ := Time.not_float_of_add hadd ht
    exact ⟨hs, t, ht, (Time.add_part hs hdelta hadd).2, hset⟩

theorem settled_of_advance (h : w.advance delta c = .ok c') : c'.IsSettled w := by
  cases c with
  | idle | saturated =>
    cases h
    trivial
  | running s =>
    obtain ⟨t, _, hset⟩ := Result.bind_ok.mp h
    exact settle_settled hset

theorem exact_of_settled (hb : (∃ n, w.value = .integer n) ∨ ∃ v, w.value = .vector v)
    (hc : c.IsSettled w) : c.IsExact := by
  cases c with
  | idle | saturated => trivial
  | running s =>
    obtain ⟨o, ho, _⟩ := settled_order hc
    exact Time.not_float_of_order hb ho

end Bound

namespace Monitor
variable {m : Monitor} {w : Bound} {p q q' : Phase} {c x y x' y' : Clock} {l : Letter}
  {delta : Time} {steps : List (Letter × Time)}

/-- The first clock is told to be as near to violating the bound as the second, or nearer. -/
def AsSevere (m : Monitor) (x y : Clock) : Prop :=
  m.severity x y = .ok .eq ∨ m.severity x y = .ok .gt

theorem AsSevere.leads (h : m.AsSevere x y) (hx : x.IsExact) (hy : y.IsExact) : m.Leads x y := by
  rcases h with h | h
  · exact (severity_leads hx hy h).mp nofun
  · exact (severity_leads hx hy h).mp nofun

section
variable (hw : m.window = some w) (hb : (∃ n, w.value = .integer n) ∨ ∃ v, w.value = .vector v)
include hw hb

theorem asSevere_of_leads (hx : x.IsSettled w) (hy : y.IsSettled w) (h : m.Leads x y) :
    m.AsSevere x y := by
  refine severity_of_leads (Bound.exact_of_settled hb hx) (Bound.exact_of_settled hb hy) ?_ ?_ h
  · intro w' hw'
    obtain rfl : w = w' := Option.some.inj (hw.symm.trans hw')
    exact ⟨hx, hy⟩
  · intro w' hw'
    obtain rfl : w = w' := Option.some.inj (hw.symm.trans hw')
    exact hb

/-- One step: the severer clock fails, or both take the same way and it stays as severe. -/
theorem AsSevere.step (h : m.AsSevere x y) (hx : m.step p x l delta = .ok (q, x'))
    (hy : m.step p y l delta = .ok (q', y')) : q = .failed ∨ q = q' ∧ m.AsSevere x' y' := by
  obtain ⟨b, hxb, hx⟩ := Result.bind_ok.mp hx
  obtain ⟨b', hyb, hy⟩ := Result.bind_ok.mp hy
  simp only [advance, hw, lift_ok] at hxb hyb
  obtain ⟨hxe, hxa⟩ := Bound.advances_of_advance hb hxb
  obtain ⟨hye, hya⟩ := Bound.advances_of_advance hb hyb
  have hm : m.IsExact := by
    intro w' hw'
    obtain rfl : w = w' := Option.some.inj (hw.symm.trans hw')
    rcases hb with ⟨n, hn⟩ | ⟨v, hv⟩
    · rw [hn]
      rfl
    · rw [hv]
      rfl
  have hadvances : m.Advances delta x b ∧ m.Advances delta y b' := by
    simpa only [Advances, hw] using And.intro hxa hya
  have hadvanced : m.Leads b b' := Advances.leads hm (h.leads hxe hye) hadvances.1 hadvances.2
  rcases enter_leads hadvanced hx hy with hfailed | ⟨hsame, hlead⟩
  · exact .inl hfailed
  · have hxs := enter_settled hw (Bound.settled_of_advance hxb) hx
    have hys := enter_settled hw (Bound.settled_of_advance hyb) hy
    exact .inr ⟨hsame, asSevere_of_leads hw hb hxs hys hlead⟩

end

/-- The monitor goes on from a state and a clock: each step is a letter, with the time of the edge
that leads to it. -/
def resume (m : Monitor) (p : Phase) (c : Clock) (steps : List (Letter × Time)) :
    Except Fault (Phase × Clock) :=
  steps.foldlM (fun r s => m.step r.1 r.2 s.1 s.2) (p, c)

theorem resume_cons (m : Monitor) (p : Phase) (c : Clock) (l : Letter) (delta : Time)
    (steps : List (Letter × Time)) : m.resume p c ((l, delta) :: steps) = (do
      let (q, c') ← m.step p c l delta
      m.resume q c' steps) :=
  List.foldlM_cons

theorem resume_failed (h : m.resume .failed c steps = .ok (q, x')) : q = .failed := by
  refine Result.foldlM_keeps (I := fun _ r => r.1 = .failed) steps rfl ?_ h
  intro done s rest r r' _ hr hstep
  obtain ⟨b, _, henter⟩ := Result.bind_ok.mp hstep
  rw [hr] at henter
  exact enter_failed henter

theorem AsSevere.resume (hw : m.window = some w)
    (hb : (∃ n, w.value = .integer n) ∨ ∃ v, w.value = .vector v) (h : m.AsSevere x y)
    (hx : m.resume p x steps = .ok (q, x')) (hy : m.resume p y steps = .ok (q', y')) :
    q = .failed ∨ q = q' ∧ m.AsSevere x' y' := by
  induction steps generalizing p x y with
  | nil =>
    cases hx
    cases hy
    exact .inr ⟨rfl, h⟩
  | cons s steps ih =>
    obtain ⟨l, delta⟩ := s
    rw [resume_cons] at hx hy
    obtain ⟨⟨r, b⟩, hxstep, hx⟩ := Result.bind_ok.mp hx
    obtain ⟨⟨r', b'⟩, hystep, hy⟩ := Result.bind_ok.mp hy
    rcases h.step hw hb hxstep hystep with hfailed | ⟨hsame, hsevere⟩
    · -- the run that has failed stays so, wherever the other one goes
      subst hfailed
      exact .inl (resume_failed hx)
    · subst hsame
      exact ih hsevere hx hy

end Monitor

/-- Under a bound of whole numbers or of vectors, a clock that is as severe as another one stays so
on every continuation that both can take, however the two came to their state: its run ends in
failure, or both runs end in one state and its clock is still as severe. So it has failed wherever
the other one has. -/
theorem dominance_preserved {m : Monitor} {w : Bound} (hw : m.window = some w)
    (hb : (∃ n, w.value = .integer n) ∨ ∃ v, w.value = .vector v) {p : Phase} {x y : Clock}
    (hsevere : m.severity x y = .ok .eq ∨ m.severity x y = .ok .gt)
    {steps : List (Letter × Time)} {q q' : Phase} {x' y' : Clock}
    (hx : m.resume p x steps = .ok (q, x')) (hy : m.resume p y steps = .ok (q', y')) :
    (q = .failed ∨
        q = q' ∧ (m.severity x' y' = .ok .eq ∨ m.severity x' y' = .ok .gt)) ∧
      (q' = .failed → q = .failed) := by
  have hend := Monitor.AsSevere.resume hw hb hsevere hx hy
  refine ⟨hend, fun hfailed => ?_⟩
  rcases hend with hq | ⟨hsame, _⟩
  · exact hq
  · exact hsame.trans hfailed

/-- A `b` comes within five of each of two times after the `a` before it. -/
def Monitor.closely : Monitor :=
  .timedPrecedes ⟨.upper, .vector [5, 5]⟩

/-- One more of both times takes `(5,4)` past the bound, and `(3,4)` not. The first clock is then
saturated in the same state, and a `b` makes its run fail and not the other one. -/
theorem overdue_dominance :
    Monitor.closely.severity (.running (.vector [5, 4])) (.running (.vector [3, 4])) = .ok .gt ∧
      Monitor.closely.resume .seen (.running (.vector [5, 4]))
        [(⟨false, false, false⟩, .vector [1, 1])] = .ok (.matched, .saturated) ∧
      Monitor.closely.resume .seen (.running (.vector [3, 4]))
        [(⟨false, false, false⟩, .vector [1, 1])] = .ok (.matched, .running (.vector [4, 5])) ∧
      (Monitor.closely.severity .saturated (.running (.vector [4, 5])) = .ok .eq ∨
        Monitor.closely.severity .saturated (.running (.vector [4, 5])) = .ok .gt) ∧
      Monitor.closely.resume .matched .saturated [(⟨false, true, false⟩, .zero)] =
        .ok (.failed, .idle) ∧
      Monitor.closely.resume .matched (.running (.vector [4, 5])) [(⟨false, true, false⟩, .zero)] =
        .ok (.matched, .running (.vector [4, 5])) := by
  have hsevere : Monitor.closely.severity (.running (.vector [5, 4])) (.running (.vector [3, 4])) =
      .ok .gt := rfl
  have hx : Monitor.closely.resume .seen (.running (.vector [5, 4]))
      [(⟨false, false, false⟩, .vector [1, 1])] = .ok (.matched, .saturated) := rfl
  have hy : Monitor.closely.resume .seen (.running (.vector [3, 4]))
      [(⟨false, false, false⟩, .vector [1, 1])] = .ok (.matched, .running (.vector [4, 5])) := rfl
  refine ⟨hsevere, hx, hy, ?_, rfl, rfl⟩
  rcases (dominance_preserved rfl (.inr ⟨[5, 5], rfl⟩) (.inr hsevere) hx hy).1 with
    hfailed | ⟨_, hstill⟩
  · cases hfailed
  · exact hstill

end EventInvariants
