import FiniteAutomata.Proofs.Frontier

/-!
# Reachable states

A walk counts its steps and reads nothing, while a path spells a word. Every step can be read on its
own label, so a walk is a path of some word, and reachability by walks is reachability by words. The
search that visits the states finds the walks from the initial ones, so what it visits is what some
word leads to.
-/

namespace FiniteAutomata.Automaton

universe u

variable {L : Type u} [BEq L] {A : Automaton L} {p : Transition L → Bool} {s r : StateId}
  {w : List L} {n : Nat}

theorem mem_reachable_iff : s ∈ A.reachable ↔ A.Reachable s := mem_search_iff

instance : Decidable (A.Reachable s) := decidable_of_iff (s ∈ A.reachable) mem_reachable_iff

theorem Path.exists_walk (h : A.Path s w r) : ∃ n, A.Walk (fun _ => true) n s r := by
  induction h using Path.step_induction with
  | nil s => exact ⟨0, .nil s⟩
  | step t v w r ht _ _ ih =>
      obtain ⟨n, hwalk⟩ := ih
      exact ⟨n + 1, .cons ht rfl hwalk⟩

theorem Reachable.of_path (hs : A.Reachable s) (hpath : A.Path s w r) : A.Reachable r := by
  induction hpath using Path.step_induction with
  | nil s => exact hs
  | step t v w r ht _ _ ih =>
      obtain ⟨i, hi, n, hwalk⟩ := hs
      exact ih ⟨i, hi, n + 1, hwalk.snoc ht rfl⟩

section Spelled

variable [EquivBEq L]

/-- A step spells its own label. -/
theorem exists_spelled (t : Transition L) : ∃ v, t.Spells v := by
  obtain ⟨s, label, r⟩ := t
  cases label with
  | none => exact ⟨[], rfl⟩
  | some label => exact ⟨[label], label, rfl, BEq.rfl⟩

theorem Walk.exists_path (h : A.Walk p n s r) : ∃ w, A.Path s w r := by
  induction h with
  | nil s => exact ⟨[], .nil s⟩
  | @cons n t r ht _ _ ih =>
      obtain ⟨v, hv⟩ := exists_spelled t
      obtain ⟨w, hw⟩ := ih
      exact ⟨v ++ w, .step ht hv hw⟩

theorem exists_walk_iff_exists_path :
    (∃ n, A.Walk (fun _ => true) n s r) ↔ ∃ w, A.Path s w r := by
  refine ⟨fun h => ?_, fun h => ?_⟩
  · obtain ⟨_, hwalk⟩ := h
    exact hwalk.exists_path
  · obtain ⟨_, hpath⟩ := h
    exact hpath.exists_walk

theorem reachable_iff_exists_leadsTo : A.Reachable s ↔ ∃ w, A.LeadsTo w s := by
  simp only [Reachable, exists_walk_iff_exists_path, LeadsTo]
  exact ⟨fun ⟨i, hi, w, h⟩ => ⟨w, i, hi, h⟩, fun ⟨w, i, hi, h⟩ => ⟨i, hi, w, h⟩⟩

theorem accessible_iff_reachable : A.Accessible ↔ ∀ s ∈ A.states, A.Reachable s := by
  simp only [Accessible, reachable_iff_exists_leadsTo]

/-- A final state can be reached from a state exactly if the state accepts some word. -/
theorem exists_walk_final_iff :
    (∃ t ∈ A.finals, ∃ n, A.Walk (fun _ => true) n s t) ↔ ∃ w, A.AcceptsFrom s w := by
  simp only [exists_walk_iff_exists_path, AcceptsFrom]
  exact ⟨fun ⟨t, ht, w, h⟩ => ⟨w, t, ht, h⟩, fun ⟨w, t, ht, h⟩ => ⟨t, ht, w, h⟩⟩

end Spelled

end FiniteAutomata.Automaton
