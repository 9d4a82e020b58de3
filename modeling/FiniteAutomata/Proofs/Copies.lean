import FiniteAutomata.Proofs.Correspondence
import FiniteAutomata.Proofs.Placement

/-!
# How a copy is numbered

A copy gives the states of an automaton the numbers 0, 1 and so on, in the order in which they are
listed. Different states get different numbers, so no two steps of the copy become one and the copy's
sets are the original ones, element by element. Its own list of states is made by scanning these sets:
what is new to the scan of the original is new to the scan of the copy, and the other way round, so the
copy lists its states in the order of their numbers. An automaton that does so is its own copy, which
is why copying twice is copying once.
-/

namespace FiniteAutomata.Automaton

universe u v

variable {L : Type u} [BEq L] {A B : Automaton L} {s : StateId}

/-! ### Places as numbers -/

theorem map_idxOf_eq_below {α : Type v} [BEq α] [LawfulBEq α] {l : List α} (hl : l.Nodup) :
    l.map (fun a => (⟨l.idxOf a⟩ : StateId)) = StateId.below l.length := by
  apply List.ext_getElem
  · simp
  · intro n hn _
    have hlt : n < l.length := by simpa using hn
    simp [StateId.below, hl.idxOf_getElem n hlt]

/-- The states of an order get the ids from `first` on, one after the other. -/
theorem map_renumber (order : StateSet) (first : StateId) :
    order.toList.map (renumber order first) = (List.range order.size).map (first + ·) := by
  calc order.toList.map (renumber order first)
      = (order.toList.map fun s => (⟨order.toList.idxOf s⟩ : StateId)).map (first + ·.val) := by
        rw [List.map_map]
        rfl
    _ = (StateId.below order.size).map (first + ·.val) := by
        rw [map_idxOf_eq_below order.nodup_toList, OrderedSet.size]
    _ = (List.range order.size).map (first + ·) := by
        rw [StateId.below, List.map_map]
        rfl

theorem idxOf_below {n : Nat} (h : s.val < n) : (StateId.below n).idxOf s = s.val := by
  have hlt : s.val < (StateId.below n).length := by rwa [StateId.length_below]
  have hget : (StateId.below n)[s.val] = s := by simp [StateId.below]
  have hindex := (StateId.nodup_below n).idxOf_getElem s.val hlt
  rwa [hget] at hindex

theorem copyId_eq (A : Automaton L) (s : StateId) : A.copyId s = ⟨A.states.toList.idxOf s⟩ := by
  rw [StateId.ext_iff, copyId, val_renumber]
  exact Nat.zero_add _

/-- The states get their places as numbers. -/
theorem map_copyId_states (A : Automaton L) :
    A.states.toList.map A.copyId = StateId.below A.numStates := by
  rw [List.map_congr_left fun s _ => copyId_eq A s]
  exact map_idxOf_eq_below A.states.nodup_toList

theorem bijOn_copyId (A : Automaton L) :
    Set.BijOn A.copyId {s | s ∈ A.states} {r | r.val < A.numStates} := by
  have hrange : ∀ r : StateId, r.val < A.numStates ↔
      (0 : StateId).val ≤ r.val ∧ r.val < (0 : StateId).val + A.states.size := by
    intro r
    rw [show (0 : StateId).val = 0 from rfl, Nat.zero_add]
    exact (and_iff_right (Nat.zero_le _)).symm
  simp only [hrange]
  exact bijOn_renumber A.states 0

/-! ### The lists of a copy -/

theorem toList_initials_copy (A : Automaton L) :
    A.copy.initials.toList = A.initials.toList.map A.copyId :=
  toList_map_renumber fun _ => mem_states_of_mem_initials

theorem toList_finals_copy (A : Automaton L) :
    A.copy.finals.toList = A.finals.toList.map A.copyId :=
  toList_map_renumber fun _ => mem_states_of_mem_finals

/-- If the sets of an automaton are renamed element by element, so is the list of its states. -/
theorem toList_states_of_toList_eq {f : StateId → StateId}
    (hinj : ∀ s ∈ A.states, ∀ t ∈ A.states, f s = f t → s = t)
    (hinitials : B.initials.toList = A.initials.toList.map f)
    (hsteps : B.transitions.toList = A.transitions.toList.map (·.mapStates f))
    (hfinals : B.finals.toList = A.finals.toList.map f) :
    B.states.toList = A.states.toList.map f := by
  have hends : (B.transitions.toList.flatMap fun t => [t.source, t.destination]) =
      (A.transitions.toList.flatMap fun t => [t.source, t.destination]).map f := by
    rw [hsteps, List.flatMap_map, List.map_flatMap]
    rfl
  simp only [states, ← OrderedSet.insertAll_append] at hinj ⊢
  rw [hends, hfinals, ← List.map_append]
  exact OrderedSet.toList_insertAll_map hinj hinitials

theorem toList_states_copy (A : Automaton L) :
    A.copy.states.toList = StateId.below A.numStates := by
  have hinj : ∀ s ∈ A.states, ∀ t ∈ A.states, A.copyId s = A.copyId t → s = t :=
    fun s hs t _ h => (copyId_inj hs).1 h
  rw [toList_states_of_toList_eq hinj (toList_initials_copy A) toList_transitions_copy
    (toList_finals_copy A)]
  exact map_copyId_states A

theorem val_nextId_copy (A : Automaton L) : A.copy.nextId.val = A.numStates :=
  Nat.zero_add _

/-! ### Automata that list their states in order -/

theorem copyId_eq_self {n : Nat} (hstates : A.states.toList = StateId.below n) (hs : s ∈ A.states) :
    A.copyId s = s := by
  rw [OrderedSet.mem_iff, hstates, StateId.mem_below] at hs
  rw [StateId.ext_iff, copyId_eq, hstates, idxOf_below hs]

theorem map_eq_self {f : StateId → StateId} {S : StateSet} (h : ∀ s ∈ S, f s = s) : S.map f = S := by
  rw [OrderedSet.map, List.map_congr_left h, List.map_id', OrderedSet.ofList_toList]

/-- Where the states are listed as 0, 1 and so on, renumbering them changes nothing. -/
theorem copy_eq_self (hstates : A.states.toList = StateId.below A.nextId.val)
    (hfrontier : A.frontier = none) : A.copy = A := by
  have hsame : ∀ s ∈ A.states, A.copyId s = s := fun s hs => copyId_eq_self hstates hs
  have hsteps : A.copy.transitions = A.transitions := by
    refine OrderedSet.ext (toList_transitions_copy.trans ?_)
    refine (List.map_congr_left fun t ht => ?_).trans (List.map_id' _)
    rw [Transition.mapStates, hsame _ (source_mem_states ht), hsame _ (destination_mem_states ht)]
  have hinitials : A.copy.initials = A.initials :=
    map_eq_self fun s hs => hsame s (mem_states_of_mem_initials hs)
  have hfinals : A.copy.finals = A.finals :=
    map_eq_self fun s hs => hsame s (mem_states_of_mem_finals hs)
  have hnext : A.copy.nextId = A.nextId := by
    rw [StateId.ext_iff, val_nextId_copy, numStates, OrderedSet.size, hstates, StateId.length_below]
  exact Automaton.ext hinitials hsteps hfinals hfrontier.symm hnext

theorem copy_copy (A : Automaton L) : A.copy.copy = A.copy := by
  apply copy_eq_self
  · rw [toList_states_copy, val_nextId_copy]
  · rfl

/-- A copy numbers the states of an automaton one to one in the order of their list. Its sets are the
original ones under these numbers, in the same order and element by element, it lists its own states in
the order of the numbers, and the next number is free. Copying it once more changes nothing. -/
theorem copy_numbered_in_order (A : Automaton L) :
    Set.BijOn A.copyId {s | s ∈ A.states} {r | r.val < A.numStates} ∧
      A.states.toList.map A.copyId = StateId.below A.numStates ∧
      A.copy.initials.toList = A.initials.toList.map A.copyId ∧
      A.copy.transitions.toList = A.transitions.toList.map (·.mapStates A.copyId) ∧
      A.copy.finals.toList = A.finals.toList.map A.copyId ∧
      A.copy.states.toList = StateId.below A.numStates ∧
      A.copy.nextId.val = A.numStates ∧ A.copy.frontier = none ∧ A.copy.copy = A.copy :=
  ⟨bijOn_copyId A, map_copyId_states A, toList_initials_copy A, toList_transitions_copy,
    toList_finals_copy A, toList_states_copy A, val_nextId_copy A, rfl, copy_copy A⟩

/-- An isolated initial state, an isolated final one, ids beyond the next free one and a match in
progress. -/
def scattered : Automaton Char where
  initials := OrderedSet.ofList [7, 3]
  transitions := OrderedSet.ofList [⟨12, none, 3⟩, ⟨3, some 'a', 12⟩, ⟨12, none, 9⟩]
  finals := OrderedSet.ofList [5, 9]
  frontier := some (OrderedSet.ofList [3])
  nextId := 4

theorem copy_numbered_in_order_scattered :
    scattered.copy.initials.toList = [0, 1] ∧
      scattered.copy.transitions.toList = [⟨2, none, 1⟩, ⟨1, some 'a', 2⟩, ⟨2, none, 3⟩] ∧
      scattered.copy.finals.toList = [4, 3] ∧ scattered.copy.states.toList = [0, 1, 2, 3, 4] ∧
      scattered.copy.copy = scattered.copy := by
  obtain ⟨-, -, hinitials, hsteps, hfinals, hstates, -, -, hcopy⟩ := copy_numbered_in_order scattered
  refine ⟨hinitials.trans ?_, hsteps.trans ?_, hfinals.trans ?_, hstates.trans ?_, hcopy⟩ <;>
    decide +kernel

end FiniteAutomata.Automaton
