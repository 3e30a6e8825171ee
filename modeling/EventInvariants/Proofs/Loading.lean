import EventInvariants.GraphFile
import EventInvariants.Proofs.Construction

namespace EventInvariants

namespace GraphFile

def ids (f : GraphFile) : List String :=
  f.nodes.map NodeSpec.id

/-- The keys that edges name, in file order; of each edge the source is first. -/
def endsOf (edges : List EdgeSpec) : List String :=
  edges.flatMap fun e => [e.source, e.target]

/-- The first id that repeats an earlier one. -/
def FirstRepeated (f : GraphFile) (key : String) : Prop :=
  ∃ before after, f.ids = before ++ key :: after ∧ before.Nodup ∧ key ∈ before

/-- The first end of an edge that is no id. -/
def FirstUndeclared (f : GraphFile) (key : String) : Prop :=
  ∃ before after, endsOf f.edges = before ++ key :: after ∧ (∀ other ∈ before, other ∈ f.ids) ∧
    key ∉ f.ids

variable {f : GraphFile} {b : Builder} {done rest : List EdgeSpec} {e : EdgeSpec} {n : NodeSpec}

/-- There is one place at most at which a property of the beginnings of a list is lost. -/
theorem first_unique {Q : List String → Prop} (hQ : ∀ l l', Q (l ++ l') → Q l)
    {before after before' after' : List String} {key key' : String}
    (h : before ++ key :: after = before' ++ key' :: after') (hbefore : Q before)
    (hkey : ¬ Q (before ++ [key])) (hbefore' : Q before') (hkey' : ¬ Q (before' ++ [key'])) :
    key = key' := by
  rcases List.append_eq_append_iff.mp h with ⟨between, rfl, hrest⟩ | ⟨between, rfl, hrest⟩
  · cases between with
    | nil => exact (List.cons.inj hrest).1
    | cons first between =>
      cases hrest
      exact absurd (hQ (before ++ [key]) between (by simpa using hbefore')) hkey
  · cases between with
    | nil => exact (List.cons.inj hrest).1.symm
    | cons first between =>
      cases hrest
      exact absurd (hQ (before' ++ [key']) between (by simpa using hbefore)) hkey'

theorem not_nodup_of_mem {before after : List String} {key : String} (h : key ∈ before) :
    ¬ (before ++ key :: after).Nodup := by
  rw [List.nodup_append]
  intro hnodup
  exact hnodup.2.2 key h key List.mem_cons_self rfl

theorem FirstRepeated.unique {key key' : String} (h : f.FirstRepeated key)
    (h' : f.FirstRepeated key') : key = key' := by
  obtain ⟨before, after, hsplit, hbefore, hkey⟩ := h
  obtain ⟨before', after', hsplit', hbefore', hkey'⟩ := h'
  exact first_unique (fun _ _ hnodup => (List.nodup_append.mp hnodup).1) (hsplit.symm.trans hsplit')
    hbefore (not_nodup_of_mem hkey) hbefore' (not_nodup_of_mem hkey')

theorem FirstUndeclared.unique {key key' : String} (h : f.FirstUndeclared key)
    (h' : f.FirstUndeclared key') : key = key' := by
  obtain ⟨before, after, hsplit, hbefore, hkey⟩ := h
  obtain ⟨before', after', hsplit', hbefore', hkey'⟩ := h'
  refine first_unique (Q := fun l => ∀ other ∈ l, other ∈ f.ids)
    (fun l l' hall other hother => hall other (List.mem_append_left l' hother))
    (hsplit.symm.trans hsplit') hbefore ?_ hbefore' ?_
  · exact fun hall => hkey (hall key (by simp))
  · exact fun hall => hkey' (hall key' (by simp))

end GraphFile

/-- Three nodes, the last with a given id; an edge that is there twice, with others in between; and
an edge to a given key. -/
def GraphFile.twofold (id target : String) : GraphFile where
  nodes := [⟨"p", "a", true, false⟩, ⟨"q", "b", false, true⟩, ⟨id, "x", false, false⟩]
  edges := [⟨"p", "q", "t", some (.integer 2)⟩, ⟨"q", "p", "u", some (.vector [1, 0])⟩,
    ⟨"p", "p", "u", some (.float 0.5)⟩, ⟨"p", "q", "t", some (.integer 2)⟩,
    ⟨"q", target, "t", none⟩]
  invariants := ["a AP b"]

end EventInvariants
