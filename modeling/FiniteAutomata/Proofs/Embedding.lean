import FiniteAutomata.Proofs.Path

/-!
# Embedded automata

An automaton is embedded in another when it is there under other names and nothing else is attached
to it: its steps are there, and a step that touches one of its states is one of them. The other
automaton may have further states and steps beside it. Paths of the embedded automaton are then paths
of the other one, and a path that begins in it never leaves it.
-/

namespace FiniteAutomata.Automaton

universe u

variable {L : Type u} [BEq L] {A B C : Automaton L} {f : StateId → StateId} {s x y : StateId}
  {w : List L}

/-- `B` has `A` in it, with the names that `f` gives. -/
structure Embedding (A B : Automaton L) (f : StateId → StateId) : Prop where
  /-- Different states keep different names. -/
  injective : ∀ s ∈ A.states, ∀ t ∈ A.states, f s = f t → s = t
  transition_of_mem : ∀ t ∈ A.transitions, B.transitions.contains (t.mapStates f) = true
  /-- A step that touches the embedded automaton belongs to it. -/
  exists_of_touching : ∀ u ∈ B.transitions, ∀ s ∈ A.states, u.source = f s ∨ u.destination = f s →
    ∃ t ∈ A.transitions, (t.mapStates f == u) = true

namespace Embedding

theorem source_eq (hf : Embedding A B f) {t u : Transition L} (ht : t ∈ A.transitions)
    (hu : (t.mapStates f == u) = true) (hs : s ∈ A.states) (h : u.source = f s) : t.source = s :=
  hf.injective _ (source_mem_states ht) _ hs ((Transition.beq_iff.1 hu).1.trans h)

theorem destination_eq (hf : Embedding A B f) {t u : Transition L} (ht : t ∈ A.transitions)
    (hu : (t.mapStates f == u) = true) (hs : s ∈ A.states) (h : u.destination = f s) :
    t.destination = s :=
  hf.injective _ (destination_mem_states ht) _ hs ((Transition.beq_iff.1 hu).2.2.trans h)

theorem exists_image_of_mem (hf : Embedding A B f) {t : Transition L} (ht : t ∈ A.transitions) :
    ∃ u ∈ B.transitions, u.source = f t.source ∧ (u.label == t.label) = true ∧
      u.destination = f t.destination := by
  obtain ⟨u, hu, heq⟩ := OrderedSet.contains_iff_exists.1 (hf.transition_of_mem t ht)
  exact ⟨u, hu, Transition.beq_iff.1 heq⟩

/-- Steps that touch nothing of the embedded automaton do not disturb it. -/
theorem extend (hf : Embedding A B f) {l : List (Transition L)}
    (hl : C.transitions.toList = B.transitions.toList ++ l)
    (hapart : ∀ u ∈ l, ∀ s ∈ A.states, u.source ≠ f s ∧ u.destination ≠ f s) :
    Embedding A C f where
  injective := hf.injective
  transition_of_mem t ht := by
    obtain ⟨u, hu, heq⟩ := OrderedSet.contains_iff_exists.1 (hf.transition_of_mem t ht)
    refine OrderedSet.contains_iff_exists.2 ⟨u, ?_, heq⟩
    exact OrderedSet.mem_iff.2 (hl ▸ List.mem_append_left l hu)
  exists_of_touching u hu s hs htouch := by
    rw [OrderedSet.mem_iff, hl] at hu
    rcases List.mem_append.1 hu with hu | hu
    · exact hf.exists_of_touching u hu s hs htouch
    · obtain ⟨hsource, hdestination⟩ := hapart u hu s hs
      exact (htouch.elim hsource hdestination).elim

variable [EquivBEq L]

theorem path {r : StateId} (hf : Embedding A B f) (h : A.Path s w r) : B.Path (f s) w (f r) := by
  induction h using Path.step_induction with
  | nil s => exact .nil (f s)
  | step t v w r ht hv _ ih => exact .step_of_contains (hf.transition_of_mem t ht) hv ih

/-- A path that begins in the embedded automaton is one of its paths. -/
theorem exists_path (hf : Embedding A B f) (h : B.Path x w y) (hs : s ∈ A.states) (hx : f s = x) :
    ∃ r ∈ A.states, f r = y ∧ A.Path s w r := by
  induction h using Path.step_induction generalizing s with
  | nil => exact ⟨s, hs, hx, .nil s⟩
  | step u v w y hu hv _ ih =>
      obtain ⟨t, ht, heq⟩ := hf.exists_of_touching u hu s hs (.inl hx.symm)
      obtain ⟨-, hlabel, hdestination⟩ := Transition.beq_iff.1 heq
      obtain ⟨r, hr, hfr, hpath⟩ := ih (destination_mem_states ht) hdestination
      obtain rfl := hf.source_eq ht heq hs hx.symm
      exact ⟨r, hr, hfr, .step ht (hv.congr (PartialEquivBEq.symm hlabel)) hpath⟩

end Embedding

end FiniteAutomata.Automaton
