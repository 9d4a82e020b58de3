import FiniteAutomata.Automaton.Regular
import FiniteAutomata.Label
import FiniteAutomata.Proofs.Frontier
import FiniteAutomata.Proofs.Placement

/-!
# Reversed automata

Reversal copies an automaton and turns every step around. A path of the copy, read from its end, is a
path of the reversed automaton that spells the reversed word. So the two languages of a state change
places: the words that lead to it become those it accepts, read backwards. Turning the steps around
is undone by doing it again, and the copies do no more than rename, so an automaton reversed twice is
itself under other names.
-/

namespace FiniteAutomata.Automaton

universe u

variable {L : Type u} [BEq L] {A B : Automaton L} {s r : StateId} {t : Transition L} {w : List L}

theorem toList_transitions_reverse :
    A.reverse.transitions.toList = A.copy.transitions.toList.map (·.reverse) := by
  refine OrderedSet.toList_map_of_distinct fun t _ u _ h => ?_
  obtain ⟨hdestination, hlabel, hsource⟩ := Transition.beq_iff.1 h
  exact Transition.beq_iff.2 ⟨hsource, hlabel, hdestination⟩

theorem mem_transitions_reverse_iff :
    t ∈ A.reverse.transitions ↔ t.reverse ∈ A.copy.transitions := by
  rw [OrderedSet.mem_iff, toList_transitions_reverse, List.mem_map]
  refine ⟨fun h => ?_, fun ht => ?_⟩
  · obtain ⟨u, hu, rfl⟩ := h
    exact hu
  · exact ⟨t.reverse, ht, rfl⟩

theorem mem_initials_reverse_iff : r ∈ A.reverse.initials ↔ ∃ s ∈ A.finals, A.copyId s = r :=
  OrderedSet.mem_map

theorem mem_finals_reverse_iff : r ∈ A.reverse.finals ↔ ∃ s ∈ A.initials, A.copyId s = r :=
  OrderedSet.mem_map

theorem size_transitions_reverse (A : Automaton L) :
    A.reverse.transitions.size = A.transitions.size := by
  simp only [OrderedSet.size, toList_transitions_reverse, toList_transitions_copy, List.length_map]

/-- Turned around twice, every step leads as before, between the copies of the copies of its ends. -/
theorem toList_transitions_reverse_reverse :
    A.reverse.reverse.transitions.toList =
      A.transitions.toList.map (·.mapStates (A.reverse.copyId ∘ A.copyId)) := by
  simp only [toList_transitions_reverse, toList_transitions_copy, List.map_map]
  rfl

/-- Where every step is turned around, so is every path. -/
theorem Path.reverse (hsteps : ∀ t ∈ A.transitions, t.reverse ∈ B.transitions)
    (h : A.Path s w r) : B.Path r w.reverse s := by
  induction h using Path.step_induction with
  | nil s => exact .nil s
  | step t v w r ht hv _ ih =>
      rw [List.reverse_append]
      exact ih.append (.single (hsteps t ht) hv.reverse)

theorem path_reverse_iff : A.reverse.Path r w s ↔ A.copy.Path s w.reverse r := by
  refine ⟨fun h => ?_, fun h => ?_⟩
  · exact h.reverse fun t ht => mem_transitions_reverse_iff.1 ht
  · have hreversed : A.reverse.Path r w.reverse.reverse s :=
      h.reverse fun t ht => mem_transitions_reverse_iff.2 ht
    rwa [List.reverse_reverse] at hreversed

variable [EquivBEq L]

/-! ### States -/

theorem mem_states_reverse_iff : r ∈ A.reverse.states ↔ ∃ s ∈ A.states, A.copyId s = r := by
  have hcopy : r ∈ A.reverse.states ↔ r ∈ A.copy.states := by
    rw [mem_states_iff, mem_states_iff]
    refine ⟨fun h => ?_, fun h => ?_⟩
    · rcases h with h | ⟨t, ht, h⟩ | h
      · exact .inr (.inr h)
      · exact .inr (.inl ⟨t.reverse, mem_transitions_reverse_iff.1 ht, h.symm⟩)
      · exact .inl h
    · rcases h with h | ⟨t, ht, h⟩ | h
      · exact .inr (.inr h)
      · exact .inr (.inl ⟨t.reverse, mem_transitions_reverse_iff.2 ht, h.symm⟩)
      · exact .inl h
  rw [hcopy, (renaming_copy A).mem_states_iff]

theorem numStates_reverse (A : Automaton L) : A.reverse.numStates = A.numStates :=
  OrderedSet.size_eq_of_mem_iff_image (fun _ hs _ _ h => (copyId_inj hs).1 h)
    fun _ => mem_states_reverse_iff

theorem renaming_reverse_reverse (A : Automaton L) :
    Renaming A A.reverse.reverse (A.reverse.copyId ∘ A.copyId) := by
  refine renaming_of_toList_eq (fun s hs t _ h => ?_) (fun r => ?_) (fun r => ?_)
    toList_transitions_reverse_reverse
  · exact (copyId_inj hs).1 ((copyId_inj (mem_states_reverse_iff.2 ⟨s, hs, rfl⟩)).1 h)
  · simp [mem_initials_reverse_iff, mem_finals_reverse_iff]
  · simp [mem_initials_reverse_iff, mem_finals_reverse_iff]

/-! ### Languages -/

theorem leadsTo_reverse_iff (hs : s ∈ A.states) :
    A.reverse.LeadsTo w (A.copyId s) ↔ A.AcceptsFrom s w.reverse := by
  rw [← (renaming_copy A).acceptsFrom_iff hs]
  exact exists_congr fun _ => and_congr_right fun _ => path_reverse_iff

theorem acceptsFrom_reverse_iff (hs : s ∈ A.states) :
    A.reverse.AcceptsFrom (A.copyId s) w ↔ A.LeadsTo w.reverse s := by
  rw [← (renaming_copy A).leadsTo_iff hs]
  exact exists_congr fun _ => and_congr_right fun _ => path_reverse_iff

theorem accepts_reverse_iff : A.reverse.Accepts w ↔ A.Accepts w.reverse := by
  rw [accepts_iff_exists_leadsTo]
  refine ⟨fun h => ?_, fun h => ?_⟩
  · obtain ⟨r, hr, hlead⟩ := h
    obtain ⟨s, hs, rfl⟩ := mem_finals_reverse_iff.1 hr
    exact ⟨s, hs, (leadsTo_reverse_iff (mem_states_of_mem_initials hs)).1 hlead⟩
  · obtain ⟨s, hs, haccepts⟩ := h
    exact ⟨A.copyId s, mem_finals_reverse_iff.2 ⟨s, hs, rfl⟩,
      (leadsTo_reverse_iff (mem_states_of_mem_initials hs)).2 haccepts⟩

/-! ### What reversal does -/

/-- The reversal accepts the reversed words, with as many states and transitions as the automaton
has. Reversed twice, the automaton is itself under other names: every transition is where it was in
the list and has kept the spelling of its label. -/
theorem reverse_exact (A : Automaton L) :
    (∀ w, A.reverse.accepts w = A.accepts w.reverse) ∧
      (A.reverse.numStates = A.numStates ∧ A.reverse.transitions.size = A.transitions.size) ∧
      (A.reverse.reverse.numStates = A.numStates ∧
        A.reverse.reverse.transitions.size = A.transitions.size) ∧
      ∃ f, Set.BijOn f {s | s ∈ A.states} {s | s ∈ A.reverse.reverse.states} ∧
        Renaming A A.reverse.reverse f ∧
        A.reverse.reverse.transitions.toList = A.transitions.toList.map (·.mapStates f) := by
  have hback := renaming_reverse_reverse A
  refine ⟨fun w => ?_, ⟨numStates_reverse A, size_transitions_reverse A⟩, ⟨?_, ?_⟩,
    _, hback.bijOn, hback, toList_transitions_reverse_reverse⟩
  · rw [Bool.eq_iff_iff, accepts_iff, accepts_iff]
    exact accepts_reverse_iff
  · exact (numStates_reverse A.reverse).trans (numStates_reverse A)
  · exact (size_transitions_reverse A.reverse).trans (size_transitions_reverse A)

/-- Steps on two spellings of a label lead to and fro between two states, and a match is in progress
in a state that is none of the automaton's. -/
def toAndFro : Automaton CaselessText where
  initials := OrderedSet.ofList [0, 2]
  transitions := OrderedSet.ofList
    [⟨0, some ⟨"A"⟩, 1⟩, ⟨1, some ⟨"a"⟩, 0⟩, ⟨0, none, 1⟩, ⟨2, some ⟨"b"⟩, 1⟩]
  finals := OrderedSet.ofList [1, 0]
  frontier := some (OrderedSet.ofList [9])
  nextId := 3

theorem reverse_exact_toAndFro :
    toAndFro.reverse.accepts [⟨"a"⟩, ⟨"b"⟩] = true ∧ toAndFro.accepts [⟨"a"⟩, ⟨"b"⟩] = false ∧
      toAndFro.reverse.numStates = 3 ∧ toAndFro.reverse.transitions.size = 4 ∧
      Isomorphic toAndFro toAndFro.reverse.reverse := by
  obtain ⟨hwords, ⟨hstates, hsteps⟩, -, f, -, hf, -⟩ := reverse_exact toAndFro
  refine ⟨(hwords _).trans (by decide +kernel), by decide +kernel, hstates.trans (by decide +kernel),
    hsteps.trans (by decide +kernel), f, hf⟩

end FiniteAutomata.Automaton
