import FiniteAutomata.Automaton.Path

/-!
# Paths, one step at a time

A silent step and a step on a label differ only in what they spell. Said that way, a path grows by a
step of either kind in one rule, and a property of paths is proved in one case per rule. Renaming,
reversal and placement of automata keep or turn around what a step spells, so this is the form in
which they are shown to keep paths.

A state has two languages: the words that lead to it from an initial state, and the words that it
accepts. An automaton accepts a word when the two meet in a state at some point of the word.
-/

namespace FiniteAutomata

universe u

variable {L : Type u} [BEq L]

namespace Transition

variable {t u : Transition L} {v : List L}

/-- What a step reads: nothing if it is silent, else one symbol that equals its label. -/
def Spells (t : Transition L) (v : List L) : Prop :=
  match t.label with
  | none => v = []
  | some label => ∃ symbol, v = [symbol] ∧ (label == symbol) = true

/-- A step spells at most one symbol, so it spells the same whichever way it leads. -/
theorem Spells.reverse (h : t.Spells v) : t.reverse.Spells v.reverse := by
  obtain ⟨s, label, d⟩ := t
  cases label with
  | none =>
      obtain rfl : v = [] := h
      exact List.reverse_nil
  | some label =>
      obtain ⟨symbol, rfl, hlabel⟩ := h
      exact ⟨symbol, List.reverse_singleton, hlabel⟩

/-- Equal labels spell the same. -/
theorem Spells.congr [EquivBEq L] (h : t.Spells v) (heq : (t.label == u.label) = true) :
    u.Spells v := by
  obtain ⟨s, label, d⟩ := t
  obtain ⟨s', label', d'⟩ := u
  cases label with
  | none =>
      cases label' with
      | none => exact h
      | some _ => cases heq
  | some label =>
      cases label' with
      | none => cases heq
      | some label' =>
          obtain ⟨symbol, hv, hlabel⟩ := h
          exact ⟨symbol, hv, PartialEquivBEq.trans (PartialEquivBEq.symm heq) hlabel⟩

end Transition

namespace Automaton

variable {A : Automaton L} {s r i : StateId} {t : Transition L} {v w : List L}

theorem Path.step (ht : t ∈ A.transitions) (hv : t.Spells v) (hrest : A.Path t.destination w r) :
    A.Path t.source (v ++ w) r := by
  obtain ⟨s, label, d⟩ := t
  cases label with
  | none =>
      obtain rfl : v = [] := hv
      exact .silent ht hrest
  | some label =>
      obtain ⟨symbol, rfl, hlabel⟩ := hv
      exact .read ht hlabel hrest

/-- One step is a path. -/
theorem Path.single (ht : t ∈ A.transitions) (hv : t.Spells v) :
    A.Path t.source v t.destination := by
  simpa using Path.step ht hv (.nil _)

/-- A property of paths holds when it holds of the empty ones and every further step keeps it. -/
theorem Path.step_induction {motive : ∀ s w r, A.Path s w r → Prop}
    (nil : ∀ s, motive s [] s (.nil s))
    (step : ∀ (t : Transition L) (v w : List L) (r : StateId) (ht : t ∈ A.transitions)
      (hv : t.Spells v) (hrest : A.Path t.destination w r), motive t.destination w r hrest →
      motive t.source (v ++ w) r (.step ht hv hrest))
    {s : StateId} {w : List L} {r : StateId} (h : A.Path s w r) : motive s w r h := by
  induction h with
  | nil s => exact nil s
  | silent hstep hrest ih => exact step _ [] _ _ hstep rfl hrest ih
  | read hstep hlabel hrest ih => exact step _ [_] _ _ hstep ⟨_, rfl, hlabel⟩ hrest ih

/-- An automaton with more steps has more paths. -/
theorem Path.mono {B : Automaton L} (hsub : ∀ t ∈ A.transitions, t ∈ B.transitions)
    (h : A.Path s w r) : B.Path s w r := by
  induction h using Path.step_induction with
  | nil s => exact .nil s
  | step t v w r ht hv _ ih => exact .step (hsub t ht) hv ih

theorem path_congr {B : Automaton L} (h : A.transitions = B.transitions) :
    A.Path s w r ↔ B.Path s w r :=
  ⟨Path.mono fun _ ht => h ▸ ht, Path.mono fun _ ht => h.symm ▸ ht⟩

/-- A path may take any step that equals one of the automaton. -/
theorem Path.step_of_contains [EquivBEq L] (ht : A.transitions.contains t = true) (hv : t.Spells v)
    (hrest : A.Path t.destination w r) : A.Path t.source (v ++ w) r := by
  obtain ⟨u, hu, hut⟩ := OrderedSet.contains_iff_exists.1 ht
  obtain ⟨hsource, hlabel, hdestination⟩ := Transition.beq_iff.1 hut
  rw [← hsource]
  exact .step hu (hv.congr (PartialEquivBEq.symm hlabel)) (hdestination ▸ hrest)

/-! ### States on a path -/

theorem mem_states_iff : s ∈ A.states ↔
    s ∈ A.initials ∨ (∃ t ∈ A.transitions, s = t.source ∨ s = t.destination) ∨ s ∈ A.finals := by
  rw [states, OrderedSet.mem_insertAll, OrderedSet.mem_insertAll, or_assoc]
  simp [OrderedSet.mem_iff]

theorem mem_states_of_mem_initials (h : s ∈ A.initials) : s ∈ A.states :=
  mem_states_iff.2 (.inl h)

theorem mem_states_of_mem_finals (h : s ∈ A.finals) : s ∈ A.states :=
  mem_states_iff.2 (.inr (.inr h))

theorem source_mem_states (h : t ∈ A.transitions) : t.source ∈ A.states :=
  mem_states_iff.2 (.inr (.inl ⟨t, h, .inl rfl⟩))

theorem destination_mem_states (h : t ∈ A.transitions) : t.destination ∈ A.states :=
  mem_states_iff.2 (.inr (.inl ⟨t, h, .inr rfl⟩))

theorem numStates_eq_zero_iff : A.numStates = 0 ↔ ∀ s, s ∉ A.states := by
  rw [numStates, OrderedSet.size, List.length_eq_zero_iff, List.eq_nil_iff_forall_not_mem]
  rfl

theorem Path.mem_states (h : A.Path s w r) (hs : s ∈ A.states) : r ∈ A.states := by
  induction h using Path.step_induction with
  | nil s => exact hs
  | step t v w r ht _ _ ih => exact ih (destination_mem_states ht)

theorem Path.mem_states_left (h : A.Path s w r) (hr : r ∈ A.states) : s ∈ A.states := by
  induction h using Path.step_induction with
  | nil s => exact hr
  | step t v w r ht _ _ _ => exact source_mem_states ht

/-! ### The two languages of a state -/

theorem LeadsTo.mem_states (h : A.LeadsTo w s) : s ∈ A.states := by
  obtain ⟨i, hi, hpath⟩ := h
  exact hpath.mem_states (mem_states_of_mem_initials hi)

theorem AcceptsFrom.mem_states (h : A.AcceptsFrom s w) : s ∈ A.states := by
  obtain ⟨t, ht, hpath⟩ := h
  exact hpath.mem_states_left (mem_states_of_mem_finals ht)

theorem LeadsTo.append (h : A.LeadsTo v s) (hpath : A.Path s w r) : A.LeadsTo (v ++ w) r := by
  obtain ⟨i, hi, hv⟩ := h
  exact ⟨i, hi, hv.append hpath⟩

theorem leadsTo_append_iff : A.LeadsTo (v ++ w) r ↔ ∃ s, A.LeadsTo v s ∧ A.Path s w r := by
  refine ⟨fun h => ?_, fun h => ?_⟩
  · obtain ⟨i, hi, hpath⟩ := h
    obtain ⟨s, hv, hw⟩ := path_append_iff.1 hpath
    exact ⟨s, ⟨i, hi, hv⟩, hw⟩
  · obtain ⟨s, hv, hw⟩ := h
    exact hv.append hw

theorem accepts_append_iff : A.Accepts (v ++ w) ↔ ∃ s, A.LeadsTo v s ∧ A.AcceptsFrom s w := by
  refine ⟨fun h => ?_, fun h => ?_⟩
  · obtain ⟨i, hi, t, ht, hpath⟩ := h
    obtain ⟨s, hv, hw⟩ := path_append_iff.1 hpath
    exact ⟨s, ⟨i, hi, hv⟩, t, ht, hw⟩
  · obtain ⟨s, ⟨i, hi, hv⟩, t, ht, hw⟩ := h
    exact ⟨i, hi, t, ht, hv.append hw⟩

theorem accepts_iff_exists_leadsTo : A.Accepts w ↔ ∃ t ∈ A.finals, A.LeadsTo w t := by
  refine ⟨fun h => ?_, fun h => ?_⟩
  · obtain ⟨i, hi, t, ht, hpath⟩ := h
    exact ⟨t, ht, i, hi, hpath⟩
  · obtain ⟨t, ht, i, hi, hpath⟩ := h
    exact ⟨i, hi, t, ht, hpath⟩

/-- Some state is left after a word. -/
def Live (A : Automaton L) (w : List L) : Prop := ∃ s, A.LeadsTo w s

theorem Live.of_append (h : A.Live (v ++ w)) : A.Live v := by
  obtain ⟨s, hs⟩ := h
  obtain ⟨r, hr, _⟩ := leadsTo_append_iff.1 hs
  exact ⟨r, hr⟩

theorem Accepts.live (h : A.Accepts w) : A.Live w := by
  obtain ⟨t, _, ht⟩ := accepts_iff_exists_leadsTo.1 h
  exact ⟨t, ht⟩

/-- Some word leads to every state. -/
def Accessible (A : Automaton L) : Prop := ∀ s ∈ A.states, ∃ w, A.LeadsTo w s

/-- Every state accepts some word. -/
def Coaccessible (A : Automaton L) : Prop := ∀ s ∈ A.states, ∃ w, A.AcceptsFrom s w

end Automaton

end FiniteAutomata
