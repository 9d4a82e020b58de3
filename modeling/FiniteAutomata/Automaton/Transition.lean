import FiniteAutomata.StateId

/-!
# Transitions

A transition leads from a source to a destination, either on a label or silently. Two transitions
are the same when their ends are the same and their labels are equal by the label type's own `==`,
which may identify labels that look different.
-/

namespace FiniteAutomata

universe u

/-- A step from one state to another. -/
structure Transition (L : Type u) where
  source : StateId
  /-- What the step reads, or `none` for a silent step. -/
  label : Option L
  destination : StateId
deriving Repr, DecidableEq

/-- Optional labels are compared like labels, and an absent one equals only itself. -/
instance equivBEqOption {L : Type u} [BEq L] [EquivBEq L] : EquivBEq (Option L) where
  rfl {a} := by cases a <;> simp
  symm {a b} h := by
    cases a <;> cases b <;> simp_all [BEq.comm]
  trans {a b c} h h' := by
    match a, b, c with
    | none, none, none => rfl
    | some _, some _, some _ => exact PartialEquivBEq.trans (α := L) h h'

namespace Transition

variable {L : Type u}

instance [BEq L] : BEq (Transition L) where
  beq t u := t.source == u.source && t.label == u.label && t.destination == u.destination

/-- The silent step between two states. -/
def silent (source destination : StateId) : Transition L := ⟨source, none, destination⟩

/-- Whether the step reads nothing. -/
def isSilent (t : Transition L) : Bool := t.label.isNone

/-- Whether the step carries exactly `label`, where `none` asks for a silent step. -/
def hasLabel [BEq L] (t : Transition L) (label : Option L) : Bool := t.label == label

/-- The step that leads the other way. -/
def reverse (t : Transition L) : Transition L := ⟨t.destination, t.label, t.source⟩

/-- The step between the images of its ends. -/
def mapStates (f : StateId → StateId) (t : Transition L) : Transition L :=
  ⟨f t.source, t.label, f t.destination⟩

theorem beq_iff [BEq L] {t u : Transition L} :
    (t == u) = true ↔
      t.source = u.source ∧ (t.label == u.label) = true ∧ t.destination = u.destination := by
  simp [BEq.beq, and_assoc]

instance [BEq L] [EquivBEq L] : EquivBEq (Transition L) where
  rfl := beq_iff.2 ⟨rfl, BEq.rfl, rfl⟩
  symm h := by
    obtain ⟨hs, ha, hd⟩ := beq_iff.1 h
    exact beq_iff.2 ⟨hs.symm, BEq.symm ha, hd.symm⟩
  trans h h' := by
    obtain ⟨hs, ha, hd⟩ := beq_iff.1 h
    obtain ⟨hs', ha', hd'⟩ := beq_iff.1 h'
    exact beq_iff.2 ⟨hs.trans hs', PartialEquivBEq.trans ha ha', hd.trans hd'⟩

instance [BEq L] [LawfulBEq L] : LawfulBEq (Transition L) where
  eq_of_beq := fun {t u} h => by
    rcases t with ⟨s, a, d⟩; rcases u with ⟨s', b, d'⟩; simpa [beq_iff] using h

end Transition

end FiniteAutomata
