import FiniteAutomata.Automaton.Basic

/-!
# Paths

What an automaton accepts, said without a search: a word is accepted when it labels a path from an
initial to a final state. A path is a chain of transitions, and the word it spells is made of their
labels, with nothing for a silent step. A word may spell a label in any of its equal forms.

Paths are the other side of every statement about matching, determinization and the regular
operations. Walks, which count their steps and read nothing, are the other side of reachability.
-/

namespace FiniteAutomata.Automaton

universe u

variable {L : Type u} [BEq L] {A : Automaton L} {s t r : StateId} {v w : List L}

/-- A chain of transitions from one state to another that spells a word. -/
inductive Path (A : Automaton L) : StateId → List L → StateId → Prop where
  | nil (s : StateId) : Path A s [] s
  | silent {s r t : StateId} {w : List L} (hstep : Transition.silent s r ∈ A.transitions)
      (hrest : Path A r w t) : Path A s w t
  /-- A step on a label equal to the next symbol, then a path. -/
  | read {s r t : StateId} {label symbol : L} {w : List L}
      (hstep : ⟨s, some label, r⟩ ∈ A.transitions) (hlabel : (label == symbol) = true)
      (hrest : Path A r w t) : Path A s (symbol :: w) t

theorem Path.append (hv : A.Path s v r) (hw : A.Path r w t) : A.Path s (v ++ w) t := by
  induction hv with
  | nil => exact hw
  | silent hstep _ ih => exact .silent hstep (ih hw)
  | read hstep hlabel _ ih => exact .read hstep hlabel (ih hw)

/-- A path that spells two words in a row passes through a state between them. -/
theorem path_append_iff : A.Path s (v ++ w) t ↔ ∃ r, A.Path s v r ∧ A.Path r w t := by
  refine ⟨fun h => ?_, fun ⟨_, hv, hw⟩ => hv.append hw⟩
  generalize hvw : v ++ w = x at h
  induction h generalizing v with
  | nil s =>
      obtain ⟨rfl, rfl⟩ := List.append_eq_nil_iff.1 hvw
      exact ⟨s, .nil s, .nil s⟩
  | silent hstep _ ih =>
      obtain ⟨r, hv, hw⟩ := ih hvw
      exact ⟨r, .silent hstep hv, hw⟩
  | @read s _ _ _ _ _ hstep hlabel hrest ih =>
      cases v with
      | nil =>
          subst hvw
          exact ⟨s, .nil s, .read hstep hlabel hrest⟩
      | cons _ _ =>
          obtain ⟨rfl, htail⟩ := List.cons.inj hvw
          obtain ⟨r, hv, hw⟩ := ih htail
          exact ⟨r, .read hstep hlabel hv, hw⟩

/-- A word labels a path from an initial to a final state. -/
def Accepts (A : Automaton L) (w : List L) : Prop :=
  ∃ s ∈ A.initials, ∃ t ∈ A.finals, A.Path s w t

/-- A word labels a path from an initial state to `s`. -/
def LeadsTo (A : Automaton L) (w : List L) (s : StateId) : Prop := ∃ i ∈ A.initials, A.Path i w s

/-- A word labels a path from `s` to a final state. -/
def AcceptsFrom (A : Automaton L) (s : StateId) (w : List L) : Prop := ∃ t ∈ A.finals, A.Path s w t

/-- A chain of the given number of transitions, all of which satisfy `p`. -/
inductive Walk (A : Automaton L) (p : Transition L → Bool) : Nat → StateId → StateId → Prop where
  | nil (s : StateId) : Walk A p 0 s s
  | cons {n : Nat} {t : Transition L} {r : StateId} (hstep : t ∈ A.transitions)
      (hp : p t = true) (hrest : Walk A p n t.destination r) : Walk A p (n + 1) t.source r

theorem Walk.snoc {p : Transition L → Bool} {n : Nat} {t : Transition L}
    (h : A.Walk p n s t.source) (hstep : t ∈ A.transitions) (hp : p t = true) :
    A.Walk p (n + 1) s t.destination := by
  generalize hr : t.source = r at h
  induction h with
  | nil s => exact hr ▸ .cons hstep hp (.nil _)
  | cons hfirst hq _ ih => exact .cons hfirst hq (ih hr)

/-- Some walk leads from an initial state to `s`. -/
def Reachable (A : Automaton L) (s : StateId) : Prop :=
  ∃ i ∈ A.initials, ∃ n, A.Walk (fun _ => true) n i s

end FiniteAutomata.Automaton
