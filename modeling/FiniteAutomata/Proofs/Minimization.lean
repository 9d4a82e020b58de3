import FiniteAutomata.Proofs.Reachability
import FiniteAutomata.Proofs.Reduced
import FiniteAutomata.Proofs.Reversal
import FiniteAutomata.Proofs.SubsetConstruction

/-!
# Minimization

Determinizing an automaton gives a reduced one whenever each of its states accepts a word and no word
is accepted from two of them: then the set of states that a word leads to can be read off the words
that complete it. The reversal of a deterministic automaton whose states all have a word is of that
kind. Minimization makes such an automaton, reverses and determinizes it, so its result is reduced,
and every statement about reduced automata applies to it.
-/

namespace FiniteAutomata.Automaton

universe u

variable {L : Type u} [BEq L] [EquivBEq L] {A B D : Automaton L} {s : StateId} {v w : List L}

/-- No word is accepted from two states. -/
def Codeterministic (A : Automaton L) : Prop :=
  ∀ w s t, A.AcceptsFrom s w → A.AcceptsFrom t w → s = t

/-! ### One half of the minimization -/

omit [EquivBEq L] in
/-- A state that a word leads to is known by a word that it alone accepts. -/
theorem LeadsTo.of_accepts (hco : A.Coaccessible) (hone : A.Codeterministic)
    (hwords : ∀ x, A.Accepts (v ++ x) → A.Accepts (w ++ x)) (hs : A.LeadsTo v s) :
    A.LeadsTo w s := by
  obtain ⟨x, hx⟩ := hco s hs.mem_states
  obtain ⟨t, ht, htx⟩ := accepts_append_iff.1 (hwords x (accepts_append_iff.2 ⟨s, hs, hx⟩))
  exact hone x t s htx hx ▸ ht

theorem coaccessible_determinize (hco : A.Coaccessible) : A.determinize.Coaccessible := by
  intro q hq
  obtain ⟨w, hw⟩ := accessible_determinize q hq
  obtain ⟨⟨s, hs⟩, -⟩ := leadsTo_determinize_iff.1 hw
  obtain ⟨x, hx⟩ := hco s hs.mem_states
  refine ⟨x, (hw.acceptsFrom_iff isDeterministic_determinize).2 ?_⟩
  exact accepts_determinize_iff.2 (accepts_append_iff.2 ⟨s, hs, hx⟩)

theorem reduced_determinize (hco : A.Coaccessible) (hone : A.Codeterministic) :
    A.determinize.Reduced where
  isDeterministic := isDeterministic_determinize
  accessible := accessible_determinize
  coaccessible := coaccessible_determinize hco
  separated p hp q hq hsame := by
    obtain ⟨v, hv⟩ := accessible_determinize p hp
    obtain ⟨w, hw⟩ := accessible_determinize q hq
    have hwords : ∀ x, A.Accepts (v ++ x) ↔ A.Accepts (w ++ x) := by
      intro x
      rw [← accepts_determinize_iff, ← accepts_determinize_iff (w := w ++ x),
        ← hv.acceptsFrom_iff isDeterministic_determinize,
        ← hw.acceptsFrom_iff isDeterministic_determinize, hsame]
    obtain ⟨hlive, rfl⟩ := leadsTo_determinize_iff.1 hv
    obtain ⟨-, rfl⟩ := leadsTo_determinize_iff.1 hw
    refine (stateAfter_inj hlive).2 (blockAfter_eq_iff.2 fun s => ⟨?_, ?_⟩)
    · exact LeadsTo.of_accepts hco hone fun x => (hwords x).1
    · exact LeadsTo.of_accepts hco hone fun x => (hwords x).2

theorem coaccessible_reverse (hacc : D.Accessible) : D.reverse.Coaccessible := by
  intro r hr
  obtain ⟨s, hs, rfl⟩ := mem_states_reverse_iff.1 hr
  obtain ⟨w, hw⟩ := hacc s hs
  exact ⟨w.reverse, (acceptsFrom_reverse_iff hs).2 (w.reverse_reverse.symm ▸ hw)⟩

theorem codeterministic_reverse (hdet : D.isDeterministic = true) : D.reverse.Codeterministic := by
  intro w p q hp hq
  obtain ⟨s, hs, rfl⟩ := mem_states_reverse_iff.1 hp.mem_states
  obtain ⟨t, ht, rfl⟩ := mem_states_reverse_iff.1 hq.mem_states
  exact congrArg D.copyId (((acceptsFrom_reverse_iff hs).1 hp).eq_of_isDeterministic hdet
    ((acceptsFrom_reverse_iff ht).1 hq))

theorem reduced_determinize_reverse (hdet : D.isDeterministic = true) (hacc : D.Accessible) :
    D.reverse.determinize.Reduced :=
  reduced_determinize (coaccessible_reverse hacc) (codeterministic_reverse hdet)

/-- The step that minimization takes twice. A deterministic automaton whose states can all be reached,
reversed and determinized, has no state to spare: each can be reached, a final state can be reached
from each, and some word is accepted from the one and not from the other of any two. -/
theorem determinize_reverse_spares_none (hdet : D.isDeterministic = true)
    (hreach : ∀ s ∈ D.states, D.Reachable s) :
    let R := D.reverse.determinize
    (∀ s ∈ R.states, R.Reachable s) ∧
      (∀ s ∈ R.states, ∃ t ∈ R.finals, ∃ n, R.Walk (fun _ => true) n s t) ∧
      ∀ p ∈ R.states, ∀ q ∈ R.states, p ≠ q → ∃ w,
        R.AcceptsFrom p w ∧ ¬ R.AcceptsFrom q w ∨ R.AcceptsFrom q w ∧ ¬ R.AcceptsFrom p w := by
  intro R
  have hreduced : R.Reduced := reduced_determinize_reverse hdet (accessible_iff_reachable.2 hreach)
  refine ⟨accessible_iff_reachable.1 hreduced.accessible, fun s hs => ?_, fun p hp q hq hne => ?_⟩
  · exact exists_walk_final_iff.2 (hreduced.coaccessible s hs)
  · exact hreduced.exists_word_of_ne hp hq hne

/-- Two states from which the same words are accepted, which the reversal brings together. -/
def sharedEnd : Automaton Char where
  initials := OrderedSet.ofList [4]
  transitions := OrderedSet.ofList
    [⟨4, some 'a', 2⟩, ⟨4, some 'b', 7⟩, ⟨2, some 'c', 1⟩, ⟨7, some 'c', 1⟩]
  finals := OrderedSet.ofList [1]
  frontier := none
  nextId := 8

theorem determinize_reverse_spares_none_sharedEnd :
    sharedEnd.isDeterministic = true ∧ (∀ s ∈ sharedEnd.states, sharedEnd.Reachable s) ∧
      sharedEnd.reverse.determinize.states.toList = [0, 1, 2] ∧
      (∃ t ∈ sharedEnd.reverse.determinize.finals, ∃ n,
        sharedEnd.reverse.determinize.Walk (fun _ => true) n 0 t) ∧
      ∃ w, sharedEnd.reverse.determinize.AcceptsFrom 1 w ∧
          ¬ sharedEnd.reverse.determinize.AcceptsFrom 2 w ∨
        sharedEnd.reverse.determinize.AcceptsFrom 2 w ∧
          ¬ sharedEnd.reverse.determinize.AcceptsFrom 1 w := by
  have hdet : sharedEnd.isDeterministic = true := by decide +kernel
  have hfound : ∀ s ∈ sharedEnd.states.toList, s ∈ sharedEnd.reachable := by decide +kernel
  have hreach : ∀ s ∈ sharedEnd.states, sharedEnd.Reachable s := fun s hs =>
    mem_reachable_iff.1 (hfound s hs)
  have hstates : sharedEnd.reverse.determinize.states.toList = [0, 1, 2] := by decide +kernel
  have hmem : ∀ s ∈ [0, 1, 2], s ∈ sharedEnd.reverse.determinize.states := fun s hs =>
    OrderedSet.mem_iff.2 (hstates ▸ hs)
  obtain ⟨-, hfinal, hapart⟩ := determinize_reverse_spares_none hdet hreach
  exact ⟨hdet, hreach, hstates, hfinal 0 (hmem 0 (by decide)),
    hapart 1 (hmem 1 (by decide)) 2 (hmem 2 (by decide)) (by decide)⟩

/-! ### The minimized automaton -/

theorem reduced_minimize : A.minimize.Reduced :=
  reduced_determinize_reverse isDeterministic_determinize accessible_determinize

theorem accepts_minimize_iff : A.minimize.Accepts w ↔ A.Accepts w := by
  rw [minimize, accepts_determinize_iff, accepts_reverse_iff, accepts_determinize_iff,
    accepts_reverse_iff, List.reverse_reverse]

/-- Automata that accept the same words have the same minimized automaton, up to names. -/
theorem isomorphic_minimize (hwords : ∀ w, A.Accepts w ↔ B.Accepts w) :
    Isomorphic A.minimize B.minimize :=
  reduced_minimize.isomorphic reduced_minimize fun w =>
    accepts_minimize_iff.trans ((hwords w).trans accepts_minimize_iff.symm)

/-- Minimization changes the answer to no word. -/
theorem accepts_minimize (A : Automaton L) (w : List L) : A.minimize.accepts w = A.accepts w := by
  rw [Bool.eq_iff_iff, accepts_iff, accepts_iff]
  exact accepts_minimize_iff

/-- Repetition makes the final state initial and adds silent cycles. -/
theorem accepts_minimize_star :
    (star (alt (atom 'a') (seq (atom 'a') (atom 'b')))).minimize.accepts ['a', 'b', 'a'] = true :=
  (accepts_minimize _ _).trans (by decide +kernel)

/-- No deterministic automaton for the same words has fewer states or fewer transitions, and where
there is no word there is no state. -/
theorem minimize_le_of_isDeterministic (A : Automaton L) :
    (∀ D : Automaton L, D.isDeterministic = true → (∀ w, D.accepts w = A.accepts w) →
      A.minimize.numStates ≤ D.numStates ∧ A.minimize.transitions.size ≤ D.transitions.size) ∧
    ((∀ w, A.accepts w = false) → A.minimize.numStates = 0) := by
  have hreduced : A.minimize.Reduced := reduced_minimize
  refine ⟨fun D hD hsame => ?_, fun hnone => ?_⟩
  · have hwords : ∀ w, A.minimize.Accepts w ↔ D.Accepts w := by
      intro w
      rw [accepts_minimize_iff, ← accepts_iff, ← accepts_iff, hsame]
    exact ⟨hreduced.numStates_le hD hwords, hreduced.size_transitions_le hD hwords⟩
  · refine hreduced.numStates_eq_zero_iff.2 fun w hw => ?_
    rw [accepts_minimize_iff, ← accepts_iff, hnone] at hw
    cases hw

/-- The words `ab` and `cb`, one part for each. -/
def twoParts : Automaton Char := alt (seq (atom 'a') (atom 'b')) (seq (atom 'c') (atom 'b'))

/-- Determinized alone, the automaton keeps the two parts apart; without a final state nothing is
left of it. -/
theorem minimize_le_of_isDeterministic_twoParts :
    twoParts.minimize.numStates ≤ twoParts.determinize.numStates ∧
      twoParts.minimize.transitions.size ≤ twoParts.determinize.transitions.size ∧
      twoParts.minimize.numStates = 3 ∧ twoParts.determinize.numStates = 5 ∧
      { twoParts with finals := ∅ }.minimize.numStates = 0 := by
  have hwords : ∀ w, twoParts.determinize.accepts w = twoParts.accepts w := by
    intro w
    rw [Bool.eq_iff_iff, accepts_iff, accepts_iff, accepts_determinize_iff]
  have hnone : ∀ w, { twoParts with finals := ∅ }.accepts w = false := by
    refine fun w => Bool.eq_false_iff.2 fun h => ?_
    obtain ⟨t, ht, -⟩ := accepts_iff_exists_leadsTo.1 (accepts_iff.1 h)
    cases ht
  obtain ⟨hstates, htransitions⟩ := (minimize_le_of_isDeterministic twoParts).1 twoParts.determinize
    isDeterministic_determinize hwords
  exact ⟨hstates, htransitions, by decide +kernel, by decide +kernel,
    (minimize_le_of_isDeterministic _).2 hnone⟩

/-- The minimized automaton is a canonical form of the words that an automaton accepts, and is its
own minimized automaton, up to names. -/
theorem accepts_eq_iff_isomorphic_minimize (A B : Automaton L) :
    ((∀ w, A.accepts w = B.accepts w) ↔
      ∃ f, Set.BijOn f {s | s ∈ A.minimize.states} {s | s ∈ B.minimize.states} ∧
        Renaming A.minimize B.minimize f) ∧
    Isomorphic A.minimize.minimize A.minimize := by
  refine ⟨⟨fun hsame => ?_, fun h w => ?_⟩, isomorphic_minimize fun w => accepts_minimize_iff⟩
  · have hwords : ∀ w, A.Accepts w ↔ B.Accepts w := by
      intro w
      rw [← accepts_iff, ← accepts_iff, hsame]
    obtain ⟨f, hf⟩ := isomorphic_minimize hwords
    exact ⟨f, hf.bijOn, hf⟩
  · obtain ⟨f, -, hf⟩ := h
    rw [Bool.eq_iff_iff, accepts_iff, accepts_iff, ← accepts_minimize_iff, ← hf.accepts_iff,
      accepts_minimize_iff]

/-- The automaton and its determinization have other numbers of states, but one canonical form. -/
theorem accepts_eq_iff_isomorphic_minimize_twoParts :
    twoParts.numStates ≠ twoParts.determinize.numStates ∧
      Isomorphic twoParts.minimize twoParts.determinize.minimize := by
  have hwords : ∀ w, twoParts.accepts w = twoParts.determinize.accepts w := by
    intro w
    rw [Bool.eq_iff_iff, accepts_iff, accepts_iff, accepts_determinize_iff]
  obtain ⟨f, -, hf⟩ :=
    (accepts_eq_iff_isomorphic_minimize twoParts twoParts.determinize).1.1 hwords
  exact ⟨by decide +kernel, f, hf⟩

end FiniteAutomata.Automaton
