/-!
# Ordered sets

A finite set that remembers the order in which its elements arrived. Two elements are the same when
`==` says so, and inserting an element that is already present changes nothing: of two equal elements
the set keeps the one that came first. That shows when equal elements can look different.

The elements are carried with the proof that no two of them are equal, so no operation has to check
it and no theorem has to assume it.
-/

namespace FiniteAutomata

universe u v

/-- A finite set in order of arrival. -/
@[ext] structure OrderedSet (α : Type u) [BEq α] where
  toList : List α
  /-- No element equals a later one. -/
  distinct : toList.Pairwise fun a b => (a == b) = false

namespace OrderedSet

variable {α : Type u} [BEq α] {β : Type v} [BEq β]

instance : Membership α (OrderedSet α) where
  mem s a := a ∈ s.toList

instance [LawfulBEq α] (s : OrderedSet α) (a : α) : Decidable (a ∈ s) :=
  inferInstanceAs (Decidable (a ∈ s.toList))

instance (s : OrderedSet α) (p : α → Prop) [DecidablePred p] : Decidable (∀ a ∈ s, p a) :=
  inferInstanceAs (Decidable (∀ a ∈ s.toList, p a))

instance [DecidableEq α] : DecidableEq (OrderedSet α) := fun s t =>
  decidable_of_iff (s.toList = t.toList) OrderedSet.ext_iff.symm

instance : EmptyCollection (OrderedSet α) := ⟨⟨[], .nil⟩⟩

/-- The number of elements. -/
def size (s : OrderedSet α) : Nat := s.toList.length

/-- Whether the set has no elements. -/
def isEmpty (s : OrderedSet α) : Bool := s.toList.isEmpty

/-- Whether some element equals `a`. -/
def contains (s : OrderedSet α) (a : α) : Bool := s.toList.any (· == a)

/-- Whether the two sets have an element in common. -/
def meets (s t : OrderedSet α) : Bool := s.toList.any t.contains

theorem contains_eq_false_iff {s : OrderedSet α} {a : α} :
    s.contains a = false ↔ ∀ b ∈ s.toList, (b == a) = false := by
  simp [contains]

/-- Adds `a` after the other elements, unless an equal element is present. -/
def insert (s : OrderedSet α) (a : α) : OrderedSet α :=
  if h : s.contains a then s else
    { toList := s.toList ++ [a]
      distinct := by
        have hfresh := contains_eq_false_iff.1 (Bool.eq_false_iff.2 h)
        exact List.pairwise_append.2 ⟨s.distinct, by simp, by simpa using hfresh⟩ }

/-- Inserts the elements of a list, first to last. -/
def insertAll (s : OrderedSet α) (l : List α) : OrderedSet α := l.foldl insert s

/-- The distinct elements of a list, in the order in which they are first met. -/
def ofList (l : List α) : OrderedSet α := insertAll ∅ l

/-- The elements that satisfy `p`, in their order. -/
def filter (p : α → Bool) (s : OrderedSet α) : OrderedSet α where
  toList := s.toList.filter p
  distinct := s.distinct.filter p

/-- The images of the elements, in the order in which they are first met. -/
def map (f : α → β) (s : OrderedSet α) : OrderedSet β := ofList (s.toList.map f)

end OrderedSet

end FiniteAutomata
