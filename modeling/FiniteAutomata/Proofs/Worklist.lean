import FiniteAutomata.Search.Lemmas

/-!
# The loop of a search

A search is given a bound so that its definition is structural. The loop that it stands for has none:
as long as a node waits, it takes the one that waits first. A run of the loop is told by the nodes that
it takes. Only one node can be taken at a time, so of two runs from the same search one continues the
other, and where one run has come to an end no run goes on. A search whose bound suffices is a run that
has come to its end, and it takes every node that it finds, in the order in which they were found.
-/

namespace FiniteAutomata.Search

universe u

variable {α : Type u} [BEq α] {next : α → List α} {start : OrderedSet α} {s t r : Search α} {a : α}
  {l m : List α} {bound : Nat}

/-- The loop takes the nodes of a list one after the other, each at a time when it waits first. -/
inductive Takes (next : α → List α) : Search α → List α → Search α → Prop where
  | nil (s : Search α) : Takes next s [] s
  | cons {s t : Search α} {a : α} {l rest : List α} (hwaiting : s.waiting = a :: rest)
      (hrest : Takes next (s.expand next a) l t) : Takes next s (a :: l) t

/-- A bounded search is the beginning of the loop. -/
theorem exists_takes_run (next : α → List α) (n : Nat) (s : Search α) :
    ∃ l, Takes next s l (run next n s) := by
  induction n generalizing s with
  | zero => exact ⟨[], .nil s⟩
  | succ n ih =>
      cases hw : s.waiting with
      | nil =>
          rw [run_of_waiting_eq_nil hw]
          exact ⟨[], .nil s⟩
      | cons a rest =>
          obtain ⟨l, hl⟩ := ih (s.expand next a)
          rw [run_succ_of_waiting hw]
          exact ⟨a :: l, .cons hw hl⟩

/-- What the loop takes joins the nodes that have been expanded. -/
theorem Takes.take_found (h : Takes next s l t) :
    t.found.toList.take t.expanded = s.found.toList.take s.expanded ++ l := by
  induction h with
  | nil s => rw [List.append_nil]
  | cons hwaiting _ ih => rw [ih, take_found_expand hwaiting, List.append_assoc, List.singleton_append]

/-- No run goes beyond the end of another. -/
theorem Takes.isPrefix (h : Takes next s l t) (hend : Takes next s m r) (hr : r.waiting = []) :
    l <+: m := by
  induction h generalizing m with
  | nil s => exact List.nil_prefix
  | cons hwaiting _ ih =>
      cases hend with
      | nil =>
          rw [hwaiting] at hr
          cases hr
      | cons hwaiting' hrest' =>
          obtain ⟨rfl, -⟩ := List.cons.inj (hwaiting.symm.trans hwaiting')
          exact List.cons_prefix_cons.2 ⟨rfl, ih hrest'⟩

/-- A run of the loop that has come to its end: no node waits, and every run from the same start is a
beginning of this one. -/
structure Exhausts (next : α → List α) (start : OrderedSet α) (taken : List α) (last : Search α) :
    Prop where
  takes : Takes next { found := start, expanded := 0 } taken last
  ended : last.waiting = []
  longest : ∀ l s, Takes next { found := start, expanded := 0 } l s → l <+: taken

/-- A search that comes to an end takes the nodes that it finds. -/
theorem exhausts_explore (hend : (explore next bound start).waiting = []) :
    Exhausts next start (explore next bound start).found.toList (explore next bound start) := by
  obtain ⟨l, hl⟩ := exists_takes_run next bound { found := start, expanded := 0 }
  have htaken : (explore next bound start).found.toList.take (explore next bound start).expanded = l :=
    hl.take_found
  rw [List.take_of_length_le (waiting_eq_nil_iff.1 hend)] at htaken
  rw [htaken]
  exact ⟨hl, hend, fun m s hm => hm.isPrefix hl hend⟩

end FiniteAutomata.Search
