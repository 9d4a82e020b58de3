import FiniteAutomata.Search.Lemmas
import Mathlib.Data.List.Forall2

/-!
# Sets and searches that correspond

Ordered sets of different things may still be the same list of things: element by element, related.
If the relation takes equal elements to equal ones and different elements to different ones, then what
is new to one of two corresponding sets is new to the other, and inserting related elements keeps them
in correspondence. A search inserts nothing but successors. Where related nodes have related
successors, in order, two searches therefore go side by side from related starts, and what they find
corresponds.
-/

namespace FiniteAutomata

universe u v w

variable {α : Type u} {β : Type v} {R : α → β → Prop} {a : α} {b : β} {l : List α} {m : List β}

/-- Where related elements have the same image, corresponding lists have. -/
theorem map_eq_map_of_forall₂ {γ : Type w} {g : α → γ} {g' : β → γ} (hg : ∀ a b, R a b → g a = g' b)
    (hlm : List.Forall₂ R l m) : l.map g = m.map g' := by
  have hmaps : List.Forall₂ (· = ·) (l.map g) (m.map g') := List.rel_map (fun a b => hg a b) hlm
  rwa [List.forall₂_eq_eq_eq] at hmaps

variable [BEq α] [BEq β]

/-- The relation takes equal elements to equal ones, and different elements to different ones. -/
def Faithful (R : α → β → Prop) : Prop :=
  ∀ a b a' b', R a b → R a' b' → (a == a') = (b == b')

theorem faithful_of_eq_iff [LawfulBEq α] [LawfulBEq β]
    (h : ∀ a b a' b', R a b → R a' b' → (a = a' ↔ b = b')) : Faithful R := by
  intro a b a' b' hab hab'
  rw [Bool.eq_iff_iff, beq_iff_eq, beq_iff_eq]
  exact h a b a' b' hab hab'

theorem faithful_beq [EquivBEq α] : Faithful fun a b : α => (a == b) = true := by
  intro a b a' b' hab hab'
  rw [BEq.congr_left hab, BEq.congr_right hab']

/-- A map that keeps different elements apart relates each to its image. -/
theorem faithful_image [LawfulBEq α] [LawfulBEq β] {P : α → Prop} {g : α → β}
    (hinj : ∀ a a', P a → P a' → g a = g a' → a = a') : Faithful fun a b => P a ∧ g a = b := by
  refine faithful_of_eq_iff ?_
  rintro a b a' b' ⟨ha, rfl⟩ ⟨ha', rfl⟩
  exact ⟨congrArg g, hinj a a' ha ha'⟩

omit [BEq α] [BEq β] in
theorem forall₂_image {P : α → Prop} {g : α → β} (hl : ∀ a ∈ l, P a) :
    List.Forall₂ (fun a b => P a ∧ g a = b) l (l.map g) :=
  List.forall₂_map_right_iff.2 (List.forall₂_same.2 fun a ha => ⟨hl a ha, rfl⟩)

theorem any_beq_eq (hR : Faithful R) (hlm : List.Forall₂ R l m) (hab : R a b) :
    l.any (· == a) = m.any (· == b) := by
  induction hlm with
  | nil => rfl
  | cons h _ ih => rw [List.any_cons, List.any_cons, hR _ _ _ _ h hab, ih]

/-- Related elements are at the same place of corresponding lists. -/
theorem idxOf_eq_idxOf (hR : Faithful R) (hlm : List.Forall₂ R l m) (hab : R a b) :
    l.idxOf a = m.idxOf b := by
  induction hlm with
  | nil => rfl
  | cons h _ ih => rw [List.idxOf_cons, List.idxOf_cons, hR _ _ _ _ h hab, ih]

namespace OrderedSet

variable {s : OrderedSet α} {t : OrderedSet β}

theorem forall₂_insert (hR : Faithful R) (hst : List.Forall₂ R s.toList t.toList) (hab : R a b) :
    List.Forall₂ R (s.insert a).toList (t.insert b).toList := by
  have hcontains : s.contains a = t.contains b := any_beq_eq hR hst hab
  cases h : s.contains a with
  | true => rwa [insert_of_contains h, insert_of_contains (hcontains ▸ h)]
  | false =>
      rw [toList_insert_of_not_contains h, toList_insert_of_not_contains (hcontains ▸ h)]
      exact List.rel_append hst (.cons hab .nil)

theorem forall₂_insertAll (hR : Faithful R) (hst : List.Forall₂ R s.toList t.toList)
    (hlm : List.Forall₂ R l m) : List.Forall₂ R (s.insertAll l).toList (t.insertAll m).toList := by
  induction hlm generalizing s t with
  | nil => exact hst
  | cons h _ ih => exact ih (forall₂_insert hR hst h)

theorem forall₂_ofList (hR : Faithful R) (hlm : List.Forall₂ R l m) :
    List.Forall₂ R (ofList l).toList (ofList m).toList :=
  forall₂_insertAll hR .nil hlm

/-- Images are inserted as their elements are, if different elements keep different images. -/
theorem toList_insertAll_map [LawfulBEq α] [LawfulBEq β] {g : α → β}
    (hinj : ∀ a ∈ s.insertAll l, ∀ a' ∈ s.insertAll l, g a = g a' → a = a')
    (hst : t.toList = s.toList.map g) :
    (t.insertAll (l.map g)).toList = (s.insertAll l).toList.map g := by
  have hstart : List.Forall₂ (fun a b => a ∈ s.insertAll l ∧ g a = b) s.toList t.toList := by
    rw [hst]
    exact forall₂_image fun a ha => mem_insertAll.2 (.inl ha)
  have hrest : List.Forall₂ (fun a b => a ∈ s.insertAll l ∧ g a = b) l (l.map g) :=
    forall₂_image fun a ha => mem_insertAll.2 (.inr ha)
  have hall := forall₂_insertAll (faithful_image fun a a' ha ha' => hinj a ha a' ha') hstart hrest
  have hmap : (s.insertAll l).toList.map g = (t.insertAll (l.map g)).toList.map id :=
    map_eq_map_of_forall₂ (fun a b hab => hab.2) hall
  rw [hmap, List.map_id]

end OrderedSet

namespace Search

variable {next : α → List α} {next' : β → List β} {s : Search α} {t : Search β}

/-- What two searches have found corresponds, and they have come equally far. -/
structure Corresponds (R : α → β → Prop) (s : Search α) (t : Search β) : Prop where
  found : List.Forall₂ R s.found.toList t.found.toList
  expanded : s.expanded = t.expanded

theorem Corresponds.waiting (h : Corresponds R s t) : List.Forall₂ R s.waiting t.waiting := by
  rw [Search.waiting, Search.waiting, h.expanded]
  exact List.forall₂_drop _ h.found

theorem Corresponds.waiting_eq_nil_iff (h : Corresponds R s t) :
    s.waiting = [] ↔ t.waiting = [] := by
  rw [← List.length_eq_zero_iff, h.waiting.length_eq, List.length_eq_zero_iff]

theorem Corresponds.expand (hR : Faithful R) (h : Corresponds R s t)
    (hnext : List.Forall₂ R (next a) (next' b)) :
    Corresponds R (s.expand next a) (t.expand next' b) where
  found := OrderedSet.forall₂_insertAll hR h.found hnext
  expanded := congrArg (· + 1) h.expanded

/-- Searches that correspond and make equally many steps still correspond. -/
theorem Corresponds.run (hR : Faithful R)
    (hnext : ∀ a b, R a b → List.Forall₂ R (next a) (next' b)) (h : Corresponds R s t) (n : Nat) :
    Corresponds R (run next n s) (run next' n t) := by
  induction n generalizing s t with
  | zero => exact h
  | succ n ih =>
      have hwaiting := h.waiting
      cases hs : s.waiting with
      | nil =>
          rw [run_of_waiting_eq_nil hs, run_of_waiting_eq_nil (h.waiting_eq_nil_iff.1 hs)]
          exact h
      | cons a l =>
          rw [hs] at hwaiting
          obtain ⟨b, m, hab, -, ht⟩ := List.forall₂_cons_left_iff.1 hwaiting
          rw [run_succ_of_waiting hs, run_succ_of_waiting ht]
          exact ih (h.expand hR (hnext a b hab))

/-- Searches that go side by side to their ends find what corresponds, whatever their bounds. -/
theorem forall₂_explore (hR : Faithful R)
    (hnext : ∀ a b, R a b → List.Forall₂ R (next a) (next' b)) {start : OrderedSet α}
    {start' : OrderedSet β} (hstart : List.Forall₂ R start.toList start'.toList) {m n : Nat}
    (hm : (explore next m start).waiting = []) (hn : (explore next' n start').waiting = []) :
    List.Forall₂ R (explore next m start).found.toList (explore next' n start').found.toList := by
  have hrun : Corresponds R (explore next n start) (explore next' n start') :=
    Corresponds.run hR hnext ⟨hstart, rfl⟩ n
  have hsame : explore next m start = explore next n start :=
    run_eq_run_of_waiting hm (hrun.waiting_eq_nil_iff.2 hn)
  exact hsame ▸ hrun.found

end Search

end FiniteAutomata
