import EventInvariants.Proofs.Built

namespace EventInvariants

namespace Frontier
variable {m : Monitor} {new : Entry} {f : Frontier} {n : Nat}

/-- For each entry whether a new one beats it; none if some entry makes the new one superfluous. -/
def flags? (m : Monitor) (new : Entry) : Frontier → Except Fault (Option (List Bool))
  | [] => .ok (some [])
  | old :: rest => do
    if ← Entry.beats m old new then return none
    let beaten ← Entry.beats m new old
    return (← flags? m new rest).map (beaten :: ·)

/-- The entries whose flags are not set. -/
def retain : List Bool → Frontier → Frontier
  | flag :: flags, e :: rest => if flag then retain flags rest else e :: retain flags rest
  | _, f => f

/-- Bisects the places from `lo` to `hi` for the first entry with a longer history than `n`. -/
def bisect (f : Frontier) (n lo hi : Nat) : Nat :=
  if lo < hi then
    match f[lo + (hi - lo) / 2]? with
    | some e =>
      if e.length ≤ n then bisect f n (lo + (hi - lo) / 2 + 1) hi
      else bisect f n lo (lo + (hi - lo) / 2)
    | none => lo
  else lo
termination_by hi - lo

/-- The frontier with a new entry, by changes in place: what the flags tell is taken out, and then
the new entry is put in. -/
def offerInPlace? (m : Monitor) (new : Entry) (f : Frontier) : Except Fault (Option Frontier) := do
  match ← flags? m new f with
  | none => return none
  | some flags =>
    let f := retain flags f
    return some (f.insertIdx (bisect f new.length 0 f.length) new)

theorem survivors_eq (m : Monitor) (new : Entry) (f : Frontier) :
    survivors? m new f = do return (← flags? m new f).map (retain · f) := by
  induction f with
  | nil => rfl
  | cons old rest ih =>
    rw [survivors?, flags?, ih]
    cases Entry.beats m old new with
    | error e => rfl
    | ok won =>
      cases won with
      | true => rfl
      | false =>
        cases Entry.beats m new old with
        | error e => rfl
        | ok beaten =>
          rcases flags? m new rest with e | _ | flags
          · rfl
          · rfl
          · rfl

theorem retain_sublist (flags : List Bool) (f : Frontier) : (retain flags f).Sublist f := by
  fun_induction retain flags f with
  | case1 flags e rest ih => exact ih.cons e
  | case2 flag flags e rest _ ih => exact ih.cons_cons e
  | case3 => exact .refl _

/-- In a sorted frontier, the entries that are no longer than `n` are those before a place. -/
theorem Sorted.length_le_iff (h : f.Sorted) {i : Nat} (hi : i < f.length) :
    f[i].length ≤ n ↔ i < (f.takeWhile (·.length ≤ n)).length := by
  induction f generalizing i with
  | nil => cases hi
  | cons e f ih =>
    obtain ⟨hhead, htail⟩ := List.pairwise_cons.mp h
    by_cases he : e.length ≤ n
    · cases i with
      | zero => simp [he]
      | succ i => simpa [he] using ih htail (Nat.lt_of_succ_lt_succ hi)
    · cases i with
      | zero => simp [he]
      | succ i =>
        have := hhead _ (List.getElem_mem (Nat.lt_of_succ_lt_succ hi))
        simp only [List.getElem_cons_succ, List.takeWhile_cons, he, decide_false,
          Bool.false_eq_true, if_false, List.length_nil, Nat.not_lt_zero, iff_false]
        omega

/-- The place stays between the ends of the bisection. -/
theorem Sorted.bisect_eq (h : f.Sorted) {lo hi : Nat}
    (hlo : lo ≤ (f.takeWhile (·.length ≤ n)).length)
    (hhi : (f.takeWhile (·.length ≤ n)).length ≤ hi) (hlen : hi ≤ f.length) :
    f.bisect n lo hi = (f.takeWhile (·.length ≤ n)).length := by
  fun_induction bisect f n lo hi with
  | case1 lo hi hlt e he hle ih =>
    obtain ⟨hmid, rfl⟩ := List.getElem?_eq_some_iff.mp he
    have := (h.length_le_iff hmid).mp hle
    exact ih (by omega) hhi hlen
  | case2 lo hi hlt e he hgt ih =>
    obtain ⟨hmid, rfl⟩ := List.getElem?_eq_some_iff.mp he
    have := mt (h.length_le_iff hmid).mpr hgt
    exact ih hlo (by omega) (by omega)
  | case3 lo hi hlt he =>
    have := List.getElem?_eq_none_iff.mp he
    omega
  | case4 lo hi hge => omega

theorem insertIdx_takeWhile (new : Entry) (f : Frontier) :
    f.insertIdx (f.takeWhile (·.length ≤ new.length)).length new = insert new f := by
  rw [insert]
  induction f with
  | nil => rfl
  | cons e f ih =>
    by_cases he : e.length ≤ new.length
    · simpa [he] using ih
    · simp [he]

/-- On a sorted frontier the changes in place come to the same as an offer. -/
theorem Sorted.offerInPlace_eq (h : f.Sorted) (m : Monitor) (new : Entry) :
    f.offerInPlace? m new = f.offer? m new := by
  rw [offerInPlace?, offer?, survivors_eq]
  rcases flags? m new f with e | _ | flags
  · rfl
  · rfl
  · have hkept : Sorted (retain flags f) := h.sublist (retain_sublist flags f)
    have hplace := hkept.bisect_eq (n := new.length) (Nat.zero_le _)
      (List.takeWhile_sublist _).length_le (Nat.le_refl _)
    exact congrArg (fun f => Except.ok (some f)) (hplace ▸ insertIdx_takeWhile new _)

end Frontier

namespace StateSet
variable {m : Monitor} {allowed : Time → Prop} {s : StateSet}

theorem Built.sorted (hs : s.Built m allowed) : s.Sorted := by
  have hupheld : Upheld m allowed (fun _ _ => True) (fun _ => True) Sorted :=
    { empty := fun p => by simp [Frontier.Sorted]
      clock := fun _ _ => trivial
      read := fun _ => Result.ends_of_ok fun _ _ => trivial
      step := fun _ _ _ _ => Result.ends_of_ok fun _ _ => trivial
      offer := fun hs _ => Result.ends_of_ok fun _ hr => offer_sorted hr hs }
  exact hupheld.built hs

/-- In every set that is built, offers can be made in place. -/
theorem Built.offer_eq (hs : s.Built m allowed) (p : Phase) (e : Entry) : s.offer? m p e = do
    return (← (s.frontier p).offerInPlace? m e).map fun f => s.update f p := by
  rw [offer?, (hs.sorted p).offerInPlace_eq]

end StateSet
end EventInvariants
