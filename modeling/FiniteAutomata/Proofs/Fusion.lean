import FiniteAutomata.Proofs.Frontier
import FiniteAutomata.Proofs.Joining

/-!
# What joining states adds

Joining adds a silent step from every source to every destination. A path that takes none of them is a
path of the original automaton. Any other path falls into pieces: it first comes to a source, then goes
from a destination to a source any number of times, and at last leaves from a destination. Conversely
such pieces can be put together, because each source is joined to each destination. Nothing is asked of
the two sets: they may overlap, be empty, or name states that no step touches.

Steps that are there already are not added again, so joining the same states once more has no effect.
-/

namespace FiniteAutomata.Automaton

universe u

variable {L : Type u} [BEq L] {A B : Automaton L} {s r p q : StateId} {w : List L}
  {X Y : StateId → Prop} {sources destinations : StateSet}

/-- Where each state of `X` is joined to each state of `Y`, the paths beside those of the original
automaton are its pieces put together. -/
theorem Joined.path_iff_pieces (h : Joined (fun p q => X p ∧ Y q) A B) :
    B.Path s w r ↔ A.Path s w r ∨
      ∃ u v x, w = u ++ (v ++ x) ∧ (∃ p, X p ∧ A.Path s u p) ∧ (A.between Y X).star v ∧
        ∃ q, Y q ∧ A.Path q x r := by
  constructor
  · intro hpath
    exact h.exists_pieces (fun p q hpq => hpq) hpath
  · rintro (hpath | ⟨u, v, x, rfl, ⟨p, hp, hu⟩, hv, q, hq, hx⟩)
    · exact h.path hpath
    · have hmiddle : B.Path p v q := h.path_of_star (fun p q hp hq => h.jump ⟨hp, hq⟩) hv hp hq
      exact (h.path hu).append (hmiddle.append (h.path hx))

section Fuse

variable [EquivBEq L]

theorem accepts_fuse_iff :
    (A.fuse sources destinations).Accepts w ↔ A.Accepts w ∨
      ((A.between (· ∈ A.initials) (· ∈ sources)).product
        ((A.between (· ∈ destinations) (· ∈ sources)).star.product
          (A.between (· ∈ destinations) (· ∈ A.finals)))) w := by
  have hjoined := joined_fuse A sources destinations
  constructor
  · rintro ⟨s, hs, r, hr, hpath⟩
    rcases hjoined.path_iff_pieces.1 hpath with hpath | ⟨u, v, x, rfl, ⟨p, hp, hu⟩, hv, q, hq, hx⟩
    · exact .inl ⟨s, hs, r, hr, hpath⟩
    · exact .inr ⟨u, v ++ x, rfl, ⟨s, p, hs, hp, hu⟩, v, x, rfl, hv, q, r, hq, hr, hx⟩
  · rintro (⟨s, hs, r, hr, hpath⟩ | ⟨u, y, rfl, ⟨s, p, hs, hp, hu⟩, v, x, rfl, hv, q, r, hq, hr, hx⟩)
    · exact ⟨s, hs, r, hr, hjoined.path hpath⟩
    · refine ⟨s, hs, r, hr, hjoined.path_iff_pieces.2 (.inr ?_)⟩
      exact ⟨u, v, x, rfl, ⟨p, hp, hu⟩, hv, q, hq, hx⟩

theorem mem_transitions_fuse_of_mem {t : Transition L} (ht : t ∈ A.transitions) :
    t ∈ (A.fuse sources destinations).transitions :=
  (joined_fuse A sources destinations t).2 (.inl ht)

theorem silent_mem_fuse (hp : p ∈ sources) (hq : q ∈ destinations) :
    Transition.silent p q ∈ (A.fuse sources destinations).transitions :=
  (joined_fuse A sources destinations _).2 (.inr ⟨p, q, ⟨hp, hq⟩, rfl⟩)

/-- Where all the steps are there and no match is in progress, joining has no effect. -/
theorem fuse_eq_self
    (hsteps : ∀ p ∈ sources, ∀ q ∈ destinations, Transition.silent p q ∈ A.transitions)
    (hfrontier : A.frontier = none) : A.fuse sources destinations = A := by
  have htransitions : (A.fuse sources destinations).transitions = A.transitions := by
    apply OrderedSet.insertAll_of_mem
    intro t ht
    simp only [List.mem_flatMap, List.mem_map] at ht
    obtain ⟨p, hp, q, hq, rfl⟩ := ht
    exact hsteps p hp q hq
  exact Automaton.ext rfl htransitions rfl hfrontier.symm rfl

/-- Joining adds the words that fall into a piece from an initial state to a source, any number of
pieces from a destination to a source, and a piece from a destination to a final state, where the
pieces are read in the automaton as it was. A second time it changes nothing. -/
theorem accepts_fuse (A : Automaton L) (sources destinations : StateSet) :
    (∀ w, (A.fuse sources destinations).accepts w = true ↔ A.accepts w = true ∨
      ((A.between (· ∈ A.initials) (· ∈ sources)).product
        ((A.between (· ∈ destinations) (· ∈ sources)).star.product
          (A.between (· ∈ destinations) (· ∈ A.finals)))) w) ∧
      (A.fuse sources destinations).fuse sources destinations = A.fuse sources destinations := by
  constructor
  · intro w
    rw [accepts_iff, accepts_iff]
    exact accepts_fuse_iff
  · apply fuse_eq_self
    · intro p hp q hq
      exact silent_mem_fuse hp hq
    · rfl

/-- A one and then a two, with a match in progress. -/
def midMatch : Automaton Nat where
  initials := OrderedSet.ofList [0]
  transitions := OrderedSet.ofList [⟨0, some 1, 1⟩, ⟨1, some 2, 2⟩, ⟨1, none, 1⟩]
  finals := OrderedSet.ofList [2]
  frontier := some (OrderedSet.ofList [1])
  nextId := 3

/-- The state 1 is a source and a destination, the step from it to itself is there already, and there
is no state 8. -/
theorem accepts_fuse_midMatch :
    let joined := midMatch.fuse (OrderedSet.ofList [1, 8]) (OrderedSet.ofList [1, 0])
    joined.accepts [1, 1, 1, 2] = true ∧ midMatch.accepts [1, 1, 1, 2] = false ∧
      joined.fuse (OrderedSet.ofList [1, 8]) (OrderedSet.ofList [1, 0]) = joined := by
  intro joined
  obtain ⟨hwords, hagain⟩ :=
    accepts_fuse midMatch (OrderedSet.ofList [1, 8]) (OrderedSet.ofList [1, 0])
  have hone : midMatch.Path 0 [1] 1 :=
    .read (by decide +kernel : ⟨0, some 1, 1⟩ ∈ midMatch.transitions) rfl (.nil 1)
  have htwo : midMatch.Path 1 [2] 2 :=
    .read (by decide +kernel : ⟨1, some 2, 2⟩ ∈ midMatch.transitions) rfl (.nil 2)
  have hzero : (0 : StateId) ∈ midMatch.initials := by decide +kernel
  have hsource : (1 : StateId) ∈ OrderedSet.ofList [(1 : StateId), 8] := by decide
  have hpiece : midMatch.between (· ∈ OrderedSet.ofList [1, 0]) (· ∈ OrderedSet.ofList [1, 8]) [1] :=
    ⟨0, 1, by decide, hsource, hone⟩
  have hlast : midMatch.between (· ∈ OrderedSet.ofList [1, 0]) (· ∈ midMatch.finals) [2] :=
    ⟨1, 2, by decide, by decide +kernel, htwo⟩
  refine ⟨(hwords _).2 (.inr ?_), by decide +kernel, hagain⟩
  refine ⟨[1], [1, 1, 2], rfl, ⟨0, 1, hzero, hsource, hone⟩, [1, 1], [2], rfl, ?_, hlast⟩
  exact Language.star_append hpiece (Language.star_of_mem hpiece)

end Fuse

end FiniteAutomata.Automaton
