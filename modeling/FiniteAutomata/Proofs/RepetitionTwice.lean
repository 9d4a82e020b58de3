import FiniteAutomata.Automaton.Regular
import FiniteAutomata.Proofs.Copies
import FiniteAutomata.Proofs.Fusion

/-!
# Repeating a repetition

Repetition joins the ends of a copy. The joining mentions no state that the copy does not have, and it
mentions the final states in their order, after all those that are listed before them. So the list of
the states stays as it is in the copy, in the order of their numbers, and a repetition is its own copy.
Its ends are those of the copy, and they are joined already: repeating it joins nothing new.
-/

namespace FiniteAutomata.Automaton

universe u

variable {L : Type u} [BEq L] {A : Automaton L} {sources destinations : StateSet} {s : StateId}

/-! ### The states of a joined automaton -/

/-- Both ends of each step, the source first. -/
def endStates (steps : List (Transition L)) : List StateId :=
  steps.flatMap fun t => [t.source, t.destination]

/-- The states that are listed before the final ones. -/
def listed (A : Automaton L) : StateSet := A.initials.insertAll (endStates A.transitions.toList)

theorem states_eq_listed (A : Automaton L) : A.states = A.listed.insertAll A.finals.toList := rfl

theorem mem_listed_of_mem_initials (h : s ∈ A.initials) : s ∈ A.listed :=
  OrderedSet.mem_insertAll.2 (.inl h)

/-- A step that is not added because an equal one is there would not have added a state either. -/
theorem insertAll_endStates_insert (S : StateSet) (T : OrderedSet (Transition L))
    (t : Transition L) :
    S.insertAll (endStates (T.insert t).toList) =
      (S.insertAll (endStates T.toList)).insertAll [t.source, t.destination] := by
  cases h : T.contains t with
  | true =>
      obtain ⟨u, hu, heq⟩ := OrderedSet.contains_iff_exists.1 h
      obtain ⟨hsource, -, hdestination⟩ := Transition.beq_iff.1 heq
      have hends : ∀ s ∈ [t.source, t.destination], s ∈ endStates T.toList := by
        intro s hs
        rw [← hsource, ← hdestination] at hs
        exact List.mem_flatMap.2 ⟨u, hu, hs⟩
      rw [OrderedSet.insert_of_contains h, OrderedSet.insertAll_of_mem (l := [_, _])]
      intro s hs
      exact OrderedSet.mem_insertAll.2 (.inr (hends s hs))
  | false =>
      rw [OrderedSet.toList_insert_of_not_contains h, endStates, List.flatMap_append,
        List.flatMap_singleton]
      exact OrderedSet.insertAll_append

theorem insertAll_endStates_insertAll (S : StateSet) (T : OrderedSet (Transition L))
    (l : List (Transition L)) :
    S.insertAll (endStates (T.insertAll l).toList) =
      (S.insertAll (endStates T.toList)).insertAll (endStates l) := by
  induction l generalizing T with
  | nil => rfl
  | cons t l ih =>
      rw [OrderedSet.insertAll_cons, ih, insertAll_endStates_insert, ← OrderedSet.insertAll_append]
      rfl

theorem listed_fuse (A : Automaton L) (sources destinations : StateSet) :
    (A.fuse sources destinations).listed = A.listed.insertAll
      (sources.toList.flatMap fun p => destinations.toList.flatMap fun q => [p, q]) := by
  have hadded : endStates (sources.toList.flatMap fun p =>
      destinations.toList.map fun q => (Transition.silent p q : Transition L)) =
      sources.toList.flatMap fun p => destinations.toList.flatMap fun q => [p, q] := by
    simp only [endStates, List.flatMap_assoc, List.flatMap_map]
    rfl
  rw [← hadded]
  exact insertAll_endStates_insertAll _ _ _

/-- Joining states to the final ones lists no state at another place. -/
theorem states_fuse_finals (hsources : ∀ s ∈ sources, s ∈ A.listed) :
    (A.fuse sources A.finals).states = A.states := by
  rw [states_eq_listed, listed_fuse, states_eq_listed]
  exact OrderedSet.insertAll_pairs_left hsources

theorem states_finals_fuse (hdestinations : ∀ s ∈ destinations, s ∈ A.listed) :
    (A.fuse A.finals destinations).states = A.states := by
  rw [states_eq_listed, listed_fuse, states_eq_listed]
  exact OrderedSet.insertAll_pairs_right hdestinations

/-! ### Repetition -/

theorem states_star (A : Automaton L) : A.star.states = A.copy.states := by
  let joined := A.copy.fuse A.copy.initials A.copy.finals
  calc A.star.states
      = (joined.fuse joined.finals joined.initials).states := rfl
    _ = joined.states := states_finals_fuse fun _ => mem_listed_of_mem_initials
    _ = A.copy.states := states_fuse_finals fun _ => mem_listed_of_mem_initials

theorem toList_states_star (A : Automaton L) :
    A.star.states.toList = StateId.below A.numStates := by
  rw [states_star, toList_states_copy]

theorem val_nextId_star (A : Automaton L) : A.star.nextId.val = A.numStates :=
  val_nextId_copy A

theorem copy_star (A : Automaton L) : A.star.copy = A.star := by
  apply copy_eq_self
  · rw [toList_states_star, val_nextId_star]
  · rfl

variable [EquivBEq L]

theorem initials_fuse_finals_star (A : Automaton L) :
    A.star.fuse A.star.initials A.star.finals = A.star := by
  apply fuse_eq_self
  · intro p hp q hq
    exact mem_transitions_fuse_of_mem (silent_mem_fuse hp hq)
  · rfl

theorem finals_fuse_initials_star (A : Automaton L) :
    A.star.fuse A.star.finals A.star.initials = A.star := by
  apply fuse_eq_self
  · intro p hp q hq
    exact silent_mem_fuse hp hq
  · rfl

/-- Repeating a repetition gives it back as it is, in all its parts and with no match in progress.
Repetition neither adds nor drops a state, and lists them in the order of their numbers. -/
theorem star_star (A : Automaton L) :
    A.star.star = A.star ∧ A.star.frontier = none ∧
      A.star.states.toList = StateId.below A.numStates ∧ A.star.nextId.val = A.numStates := by
  refine ⟨?_, rfl, toList_states_star A, val_nextId_star A⟩
  calc A.star.star
      = (A.star.copy.fuse A.star.copy.initials A.star.copy.finals).fuse
          A.star.copy.finals A.star.copy.initials := rfl
    _ = (A.star.fuse A.star.initials A.star.finals).fuse A.star.finals A.star.initials := by
        rw [copy_star]
    _ = A.star.fuse A.star.finals A.star.initials := by rw [initials_fuse_finals_star]
    _ = A.star := finals_fuse_initials_star A

/-- An initial state that is final, a final one that no step touches, a silent step between ends, and a
match in progress. -/
def looseEnds : Automaton Char where
  initials := OrderedSet.ofList [6, 2]
  transitions := OrderedSet.ofList [⟨4, some 'a', 2⟩, ⟨6, none, 2⟩]
  finals := OrderedSet.ofList [9, 2]
  frontier := some (OrderedSet.ofList [4])
  nextId := 5

/-- Joining the ends of the copy adds six steps, and joining them once more adds none. -/
theorem star_star_looseEnds :
    looseEnds.star.star = looseEnds.star ∧ looseEnds.copy.transitions.size = 2 ∧
      looseEnds.star.transitions.size = 8 ∧ looseEnds.star.states.toList = [0, 1, 2, 3] := by
  obtain ⟨hsame, -, hstates, -⟩ := star_star looseEnds
  refine ⟨hsame, by decide +kernel, by decide +kernel, hstates.trans ?_⟩
  decide +kernel

end FiniteAutomata.Automaton
