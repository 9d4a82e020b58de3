import FiniteAutomata.Proofs.Layers
import FiniteAutomata.Proofs.Numbering
import Mathlib.Order.Lattice.Nat

/-!
# The order of a traversal

A traversal visits the states that a breadth-first search finds, in the order in which it finds them.
Each state is found once, so it is visited once; the search begins with the initial states, so they are
visited first; and it finds nearer states earlier, so no state is visited before one that is nearer to
the initial states.
-/

namespace FiniteAutomata.Automaton

universe u v

variable {L : Type u} [BEq L] {A : Automaton L} {p : Transition L → Bool} {core : StateSet}
  {s r : StateId} {n : Nat}

/-- The number of steps on a shortest walk from a state of `core`, all of whose steps satisfy `p`; 0 if
there is no such walk. -/
noncomputable def distance (A : Automaton L) (p : Transition L → Bool) (core : StateSet)
    (s : StateId) : Nat :=
  sInf {n | ∃ i ∈ core, A.Walk p n i s}

theorem within_iff :
    Search.Within (A.successors p) core n s ↔ ∃ i ∈ core, ∃ m ≤ n, A.Walk p m i s := by
  simp only [Search.Within, walk_iff_chain]

theorem within_distance (hs : s ∈ (A.search p core).found) :
    Search.Within (A.successors p) core (A.distance p core s) s := by
  obtain ⟨i, hi, n, hwalk⟩ := mem_search_iff.1 hs
  have hnonempty : {n | ∃ i ∈ core, A.Walk p n i s}.Nonempty := ⟨n, i, hi, hwalk⟩
  obtain ⟨j, hj, hshortest⟩ := Nat.sInf_mem hnonempty
  exact within_iff.2 ⟨j, hj, _, Nat.le_refl _, hshortest⟩

theorem distance_le_of_within (h : Search.Within (A.successors p) core n s) :
    A.distance p core s ≤ n := by
  obtain ⟨i, hi, m, hm, hwalk⟩ := within_iff.1 h
  have hmem : m ∈ {n | ∃ i ∈ core, A.Walk p n i s} := ⟨i, hi, hwalk⟩
  exact (Nat.sInf_le hmem).trans hm

/-- A search finds nearer states earlier. -/
theorem pairwise_distance_search (A : Automaton L) (p : Transition L → Bool) (core : StateSet) :
    (A.search p core).found.toList.Pairwise fun s r => A.distance p core s ≤ A.distance p core r := by
  refine (Search.pairwise_notAfter_explore _ _ _).imp_of_mem fun {s r} _ hr hnear => ?_
  exact distance_le_of_within (hnear _ (within_distance hr))

/-- Every visitor is led through the same states in the same order: the states that can be reached and
no others, which are those in the frontier after some word; each once, the initial states first and in
their order, and none before one that is nearer to the initial states. -/
theorem traverse_exact [EquivBEq L] (A : Automaton L) :
    ∃ order : List StateId,
      (∀ (σ : Type v) (visit : σ → StateId → Automaton L → σ) (start : σ),
        A.traverse visit start = order.foldl (fun result s => visit result s A) start) ∧
      (∀ s, s ∈ order ↔ A.Reachable s) ∧
      (∀ s, s ∈ order ↔ ∃ w F, (A.reset.feed w).frontier = some F ∧ s ∈ F) ∧
      order.Nodup ∧ A.initials.toList <+: order ∧
      order.Pairwise fun s r =>
        A.distance (fun _ => true) A.initials s ≤ A.distance (fun _ => true) A.initials r := by
  have hreachable : ∀ s, s ∈ A.reachable.toList ↔ A.Reachable s := fun s => mem_reachable_iff
  refine ⟨A.reachable.toList, fun σ visit start => rfl, hreachable, fun s => ?_,
    A.reachable.nodup_toList, Search.start_isPrefix_explore _ _ A.initials,
    pairwise_distance_search A _ _⟩
  rw [hreachable, reachable_iff_exists_leadsTo]
  refine exists_congr fun w => ?_
  rw [feed_reset, ← mem_after_iff]
  simp

/-- Two initial states out of order, a circle back to the first, and a state without a way to it. The
state 1 is two steps from the first initial state and one from the second. -/
def twoSources : Automaton Char where
  initials := OrderedSet.ofList [4, 2]
  transitions := OrderedSet.ofList
    [⟨4, none, 3⟩, ⟨3, some 'a', 1⟩, ⟨1, some 'b', 4⟩, ⟨1, none, 6⟩, ⟨2, some 'a', 1⟩, ⟨9, none, 2⟩]
  finals := OrderedSet.ofList [6]
  frontier := none
  nextId := 10

theorem traverse_exact_twoSources :
    twoSources.traverse (fun visited s _ => visited ++ [s]) [] = [4, 2, 3, 1, 6] ∧
      ¬ twoSources.Reachable 9 ∧
      twoSources.distance (fun _ => true) twoSources.initials 3 ≤
        twoSources.distance (fun _ => true) twoSources.initials 1 := by
  obtain ⟨order, hvisit, hmem, -, -, -, hsorted⟩ := traverse_exact.{0, 0} twoSources
  have hvisited : twoSources.traverse (fun visited s _ => visited ++ [s]) [] = [4, 2, 3, 1, 6] := by
    decide +kernel
  have horder : order = [4, 2, 3, 1, 6] := by
    rw [← hvisited, hvisit, foldl_note]
  subst horder
  refine ⟨hvisited, fun h => ?_, ?_⟩
  · exact absurd ((hmem 9).2 h) (by decide)
  · exact List.pairwise_iff_forall_sublist.1 hsorted (by decide)

end FiniteAutomata.Automaton
