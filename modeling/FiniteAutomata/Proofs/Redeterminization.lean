import FiniteAutomata.Proofs.Covering
import FiniteAutomata.Proofs.Numbering

/-!
# Determinizing a deterministic automaton

A word leads to at most one state of a deterministic automaton, so its blocks are single states. Two
words then name one state of the determinized automaton exactly if they lead to one state before, which
makes the two automata cover each other. What determinization changes is the numbers: they follow the
order in which the labels are first met, which determinization itself may change.
-/

namespace FiniteAutomata.Automaton

universe u

variable {L : Type u} [BEq L] [EquivBEq L] {A D : Automaton L} {v w : List L}

theorem meet_determinize_iff :
    A.determinize.Meet v w ↔ A.Live v ∧ A.blockAfter v = A.blockAfter w := by
  constructor
  · rintro ⟨s, hv, hw⟩
    obtain ⟨hlive, rfl⟩ := leadsTo_determinize_iff.1 hv
    obtain ⟨-, heq⟩ := leadsTo_determinize_iff.1 hw
    exact ⟨hlive, (stateAfter_inj hlive).1 heq.symm⟩
  · rintro ⟨hlive, hblock⟩
    refine ⟨A.stateAfter v, leadsTo_determinize_iff.2 ⟨hlive, rfl⟩, ?_⟩
    exact leadsTo_determinize_iff.2 ⟨hlive.congr hblock, ((stateAfter_inj hlive).2 hblock).symm⟩

/-- Words that meet in a deterministic automaton have one block, a single state. -/
theorem meet_iff_of_isDeterministic (hdet : D.isDeterministic = true) :
    D.Meet v w ↔ D.Live v ∧ D.blockAfter v = D.blockAfter w := by
  constructor
  · rintro ⟨s, hv, hw⟩
    refine ⟨⟨s, hv⟩, blockAfter_eq_iff.2 fun r => ⟨fun hr => ?_, fun hr => ?_⟩⟩
    · rwa [hr.eq_of_isDeterministic hdet hv]
    · rwa [hr.eq_of_isDeterministic hdet hw]
  · rintro ⟨⟨s, hs⟩, hblock⟩
    exact ⟨s, hs, (blockAfter_eq_iff.1 hblock s).1 hs⟩

theorem isomorphic_determinize (hdet : D.isDeterministic = true) (hacc : D.Accessible) :
    Isomorphic D D.determinize := by
  have hcovers : D.determinize.Covers D :=
    { live := fun _ h => live_determinize_iff.2 h
      meet := fun _ _ _ _ h => (meet_iff_of_isDeterministic hdet).2 (meet_determinize_iff.1 h) }
  have hcovered : D.Covers D.determinize :=
    { live := fun _ h => live_determinize_iff.1 h
      meet := fun _ _ _ _ h => meet_determinize_iff.2 ((meet_iff_of_isDeterministic hdet).1 h) }
  exact isomorphic_of_covers hdet isDeterministic_determinize hacc accessible_determinize hcovers
    hcovered fun w => accepts_determinize_iff.symm

/-- Deterministic, with every state in reach and already numbered as a search would number them. A match
cannot begin with the label that the list of the steps mentions first. -/
def lateLabel : Automaton Char where
  initials := OrderedSet.ofList [0]
  transitions := OrderedSet.ofList
    [⟨1, some 'a', 2⟩, ⟨0, some 'b', 1⟩, ⟨1, some 'b', 3⟩, ⟨2, some 'b', 2⟩]
  finals := OrderedSet.ofList [2]
  frontier := none
  nextId := 4

/-- Determinization gives the states of a deterministic automaton other names, if they can all be
reached, and changes nothing else. So determinizing twice is determinizing once up to names, but not
always to the letter. -/
theorem determinize_renames_deterministic (L : Type u) [BEq L] [EquivBEq L] :
    (∀ D : Automaton L, D.isDeterministic = true → (∀ s ∈ D.states, D.Reachable s) →
      ∃ f, Set.BijOn f {s | s ∈ D.states} {s | s ∈ D.determinize.states} ∧
        Renaming D D.determinize f) ∧
    (∀ A : Automaton L,
      ∃ f, Set.BijOn f {s | s ∈ A.determinize.states} {s | s ∈ A.determinize.determinize.states} ∧
        Renaming A.determinize A.determinize.determinize f) ∧
    ∃ A : Automaton Char, ∃ t ∈ A.determinize.determinize.transitions,
      t ∉ A.determinize.transitions := by
  have hrenamed : ∀ D : Automaton L, D.isDeterministic = true → D.Accessible →
      ∃ f, Set.BijOn f {s | s ∈ D.states} {s | s ∈ D.determinize.states} ∧
        Renaming D D.determinize f := by
    intro D hdet hacc
    obtain ⟨f, hf⟩ := isomorphic_determinize hdet hacc
    exact ⟨f, hf.bijOn, hf⟩
  refine ⟨fun D hdet hreach => ?_, fun A => ?_, lateLabel, ⟨1, some 'b', 2⟩, ?_, ?_⟩
  · exact hrenamed D hdet (accessible_iff_reachable.2 hreach)
  · exact hrenamed A.determinize isDeterministic_determinize accessible_determinize
  · exact OrderedSet.contains_iff.1 (by decide +kernel)
  · exact fun h => absurd (OrderedSet.contains_iff.2 h) (by decide +kernel)

theorem determinize_renames_deterministic_lateLabel :
    lateLabel.isDeterministic = true ∧ (∀ s ∈ lateLabel.states, lateLabel.Reachable s) ∧
      Isomorphic lateLabel lateLabel.determinize ∧
      Isomorphic lateLabel.determinize lateLabel.determinize.determinize := by
  have hdet : lateLabel.isDeterministic = true := by decide +kernel
  have hreach : ∀ s ∈ lateLabel.states, lateLabel.Reachable s := by decide +kernel
  obtain ⟨honce, htwice, -⟩ := determinize_renames_deterministic Char
  obtain ⟨f, -, hf⟩ := honce lateLabel hdet hreach
  obtain ⟨g, -, hg⟩ := htwice lateLabel
  exact ⟨hdet, hreach, ⟨f, hf⟩, ⟨g, hg⟩⟩

end FiniteAutomata.Automaton
