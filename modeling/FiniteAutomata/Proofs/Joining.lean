import FiniteAutomata.Language
import FiniteAutomata.Proofs.Path

/-!
# Joined states

Concatenation and repetition add silent steps to an automaton and nothing else. A path of the joined
automaton is made of paths of the original one, with an added step between each and the next. Where
the added steps lead from some states to some others, the pieces in the middle run from the latter
to the former, and any number of them may follow one another.
-/

namespace FiniteAutomata.Automaton

universe u

variable {L : Type u} [BEq L] {A B C : Automaton L} {s r p q : StateId} {t : Transition L}
  {u v w : List L} {R R' : StateId → StateId → Prop} {X Y : StateId → Prop}

/-- `B` has the steps of `A` and a silent one between any two states that `R` relates. -/
def Joined (R : StateId → StateId → Prop) (A B : Automaton L) : Prop :=
  ∀ t, t ∈ B.transitions ↔ t ∈ A.transitions ∨ ∃ p q, R p q ∧ Transition.silent p q = t

/-- The words that lead from some state of `X` to some state of `Y`. -/
def between (A : Automaton L) (X Y : StateId → Prop) : Language L :=
  fun w => ∃ s r, X s ∧ Y r ∧ A.Path s w r

/-! ### Added steps -/

theorem eq_of_beq_silent (h : (t == Transition.silent p q) = true) : t = Transition.silent p q := by
  obtain ⟨source, label, destination⟩ := t
  obtain ⟨hsource, hlabel, hdestination⟩ := Transition.beq_iff.1 h
  cases label with
  | none => exact congr (congrArg (Transition.mk · none) hsource) hdestination
  | some label => cases hlabel

theorem joined_fuse [EquivBEq L] (A : Automaton L) (sources destinations : StateSet) :
    Joined (fun p q => p ∈ sources ∧ q ∈ destinations) A (A.fuse sources destinations) := by
  intro t
  let added : List (Transition L) :=
    sources.toList.flatMap fun s => destinations.toList.map fun d => Transition.silent s d
  have hadded : t ∈ added ↔
      ∃ p q, (p ∈ sources ∧ q ∈ destinations) ∧ Transition.silent p q = t := by
    simp [added, OrderedSet.mem_iff, and_assoc]
  rw [← hadded]
  refine ⟨fun h => OrderedSet.mem_or_mem_of_mem_insertAll h, fun h => ?_⟩
  rcases h with h | h
  · obtain ⟨l, hl⟩ := OrderedSet.exists_toList_insertAll A.transitions added
    exact OrderedSet.mem_iff.2 (hl ▸ List.mem_append_left l h)
  · -- What is kept in place of `t` equals it, so it is the same silent step.
    have hcontains : (A.transitions.insertAll added).contains t = true := by
      rw [OrderedSet.contains_insertAll, Bool.or_eq_true]
      exact .inr (List.any_eq_true.2 ⟨t, h, BEq.rfl⟩)
    obtain ⟨u, hu, heq⟩ := OrderedSet.contains_iff_exists.1 hcontains
    obtain ⟨p, q, -, rfl⟩ := hadded.1 h
    exact eq_of_beq_silent heq ▸ hu

theorem joined_self (A : Automaton L) (hR : ∀ p q, ¬ R p q) : Joined R A A := by
  intro t
  refine ⟨.inl, fun h => h.resolve_right ?_⟩
  rintro ⟨p, q, hpq, -⟩
  exact hR p q hpq

theorem Joined.trans (h : Joined R A B) (h' : Joined R' B C) :
    Joined (fun p q => R p q ∨ R' p q) A C := by
  intro t
  rw [h' t, h t, or_assoc]
  refine or_congr_right ⟨fun hadded => ?_, fun hadded => ?_⟩
  · rcases hadded with ⟨p, q, hpq, ht⟩ | ⟨p, q, hpq, ht⟩
    · exact ⟨p, q, .inl hpq, ht⟩
    · exact ⟨p, q, .inr hpq, ht⟩
  · obtain ⟨p, q, hpq | hpq, ht⟩ := hadded
    · exact .inl ⟨p, q, hpq, ht⟩
    · exact .inr ⟨p, q, hpq, ht⟩

theorem Joined.path (h : Joined R A B) (hpath : A.Path s w r) : B.Path s w r :=
  hpath.mono fun t ht => (h t).2 (.inl ht)

theorem Joined.jump (h : Joined R A B) (hpq : R p q) : B.Path p [] q :=
  .silent ((h _).2 (.inr ⟨p, q, hpq, rfl⟩)) (.nil q)

/-! ### Pieces of a path -/

/-- A property of the joined automaton's paths holds when it holds of the empty ones, and a further
step of the original automaton and a further added step keep it. -/
theorem Joined.path_induction (h : Joined R A B) {motive : StateId → List L → StateId → Prop}
    (nil : ∀ s, motive s [] s)
    (step : ∀ (t : Transition L) (v w : List L) (r : StateId), t ∈ A.transitions → t.Spells v →
      B.Path t.destination w r → motive t.destination w r → motive t.source (v ++ w) r)
    (jump : ∀ p q w r, R p q → B.Path q w r → motive q w r → motive p w r)
    (hpath : B.Path s w r) : motive s w r := by
  induction hpath using Path.step_induction with
  | nil s => exact nil s
  | step t v w r ht hv hrest ih =>
      rcases (h t).1 ht with ht | ⟨p, q, hpq, rfl⟩
      · exact step t v w r ht hv hrest ih
      · obtain rfl : v = [] := hv
        exact jump p q w r hpq hrest ih

/-- A path is one of the original automaton, or it follows one to its first added step. -/
theorem Joined.path_iff_first (h : Joined R A B) :
    B.Path s w r ↔ A.Path s w r ∨
      ∃ u v p q, w = u ++ v ∧ A.Path s u p ∧ R p q ∧ B.Path q v r := by
  refine ⟨fun hpath => ?_, fun hpath => ?_⟩
  · refine h.path_induction (motive := fun s w r => A.Path s w r ∨
      ∃ u v p q, w = u ++ v ∧ A.Path s u p ∧ R p q ∧ B.Path q v r) ?_ ?_ ?_ hpath
    · exact fun s => .inl (.nil s)
    · intro t v w r ht hv hrest ih
      rcases ih with ih | ⟨u, x, p, q, rfl, hu, hpq, hx⟩
      · exact .inl (.step ht hv ih)
      · exact .inr ⟨v ++ u, x, p, q, (List.append_assoc ..).symm, .step ht hv hu, hpq, hx⟩
    · exact fun p q w r hpq hrest _ => .inr ⟨[], w, p, q, rfl, .nil p, hpq, hrest⟩
  · rcases hpath with hpath | ⟨u, v, p, q, rfl, hu, hpq, hv⟩
    · exact h.path hpath
    · exact (h.path hu).append ((h.jump hpq).append hv)

/-- Where added steps lead from `X` to `Y`, a path that takes one is a piece that ends in `X`, any
number of pieces from `Y` to `X`, and a piece that begins in `Y`. -/
theorem Joined.exists_pieces (h : Joined R A B) (hR : ∀ p q, R p q → X p ∧ Y q)
    (hpath : B.Path s w r) : A.Path s w r ∨
      ∃ u v x, w = u ++ (v ++ x) ∧ (∃ p, X p ∧ A.Path s u p) ∧ (A.between Y X).star v ∧
        ∃ q, Y q ∧ A.Path q x r := by
  refine h.path_induction (motive := fun s w r => A.Path s w r ∨
    ∃ u v x, w = u ++ (v ++ x) ∧ (∃ p, X p ∧ A.Path s u p) ∧ (A.between Y X).star v ∧
      ∃ q, Y q ∧ A.Path q x r) ?_ ?_ ?_ hpath
  · exact fun s => .inl (.nil s)
  · intro t y w r ht hy _ ih
    rcases ih with ih | ⟨u, v, x, rfl, ⟨p, hp, hu⟩, hv, hx⟩
    · exact .inl (.step ht hy ih)
    · refine .inr ⟨y ++ u, v, x, (List.append_assoc ..).symm, ?_, hv, hx⟩
      exact ⟨p, hp, .step ht hy hu⟩
  · intro p q w r hpq _ ih
    obtain ⟨hp, hq⟩ := hR p q hpq
    rcases ih with ih | ⟨u, v, x, rfl, ⟨p', hp', hu⟩, hv, hx⟩
    · exact .inr ⟨[], [], w, rfl, ⟨p, hp, .nil p⟩, Language.star_nil, q, hq, ih⟩
    · refine .inr ⟨[], u ++ v, x, ?_, ⟨p, hp, .nil p⟩, ?_, hx⟩
      · rw [List.nil_append, List.append_assoc]
      · exact Language.star_append ⟨q, p', hq, hp', hu⟩ hv

/-- Pieces from `Y` to `X` follow one another where every state of `X` leads silently to all of
`Y`. -/
theorem Joined.path_of_star (h : Joined R A B) (hjump : ∀ p q, X p → Y q → B.Path p [] q)
    (hv : (A.between Y X).star v) (hp : X p) (hq : Y q) : B.Path p v q := by
  refine Language.star_induction (motive := fun v => ∀ p, X p → B.Path p v q) ?_ ?_ hv p hp
  · exact fun p hp => hjump p q hp hq
  · intro u v hu ih p hp
    obtain ⟨s, r, hs, hr, hpiece⟩ := hu
    exact (hjump p s hp hs).append ((h.path hpiece).append (ih r hr))

end FiniteAutomata.Automaton
