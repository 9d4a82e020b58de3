/-!
# Languages

Sets of words and the operations on them, said without automata.
-/

namespace FiniteAutomata

universe u

/-- A set of words. -/
abbrev Language (L : Type u) := List L → Prop

namespace Language

variable {L : Type u}

/-- The words of either language. -/
def union (P Q : Language L) : Language L := fun w => P w ∨ Q w

/-- A word of the one language followed by a word of the other. -/
def product (P Q : Language L) : Language L := fun w => ∃ u v, w = u ++ v ∧ P u ∧ Q v

/-- Any number of words of the language, one after the other. -/
def star (P : Language L) : Language L := fun w => ∃ ws : List (List L), w = ws.flatten ∧ ∀ u ∈ ws, P u

/-- The words of the language read backwards. -/
def reverse (P : Language L) : Language L := fun w => P w.reverse

variable {P Q : Language L} {u v w : List L}

theorem star_nil : P.star [] := ⟨[], rfl, fun _ h => nomatch h⟩

theorem star_append (hu : P u) (hv : P.star v) : P.star (u ++ v) := by
  obtain ⟨ws, rfl, hws⟩ := hv
  exact ⟨u :: ws, rfl, List.forall_mem_cons.2 ⟨hu, hws⟩⟩

theorem star_of_mem (hu : P u) : P.star u := by
  simpa using star_append hu star_nil

theorem star_append_star (hu : P.star u) (hv : P.star v) : P.star (u ++ v) := by
  obtain ⟨ws, rfl, hws⟩ := hu
  obtain ⟨xs, rfl, hxs⟩ := hv
  exact ⟨ws ++ xs, List.flatten_append.symm, List.forall_mem_append.2 ⟨hws, hxs⟩⟩

/-- A property of repetitions holds when it holds of none and one more word keeps it. -/
theorem star_induction {motive : List L → Prop} (nil : motive [])
    (append : ∀ u v, P u → motive v → motive (u ++ v)) (h : P.star w) : motive w := by
  obtain ⟨ws, rfl, hws⟩ := h
  induction ws with
  | nil => exact nil
  | cons u ws ih =>
      obtain ⟨hu, hrest⟩ := List.forall_mem_cons.1 hws
      exact append u ws.flatten hu (ih hrest)

theorem star_mono (h : ∀ u, P u → Q.star u) (hw : P.star w) : Q.star w :=
  star_induction star_nil (fun _ _ hu hv => star_append_star (h _ hu) hv) hw

theorem star_congr (h : ∀ u, P u ↔ Q u) : P.star w ↔ Q.star w :=
  ⟨star_mono fun u hu => star_of_mem ((h u).1 hu), star_mono fun u hu => star_of_mem ((h u).2 hu)⟩

theorem product_mono {P' Q' : Language L} (hP : ∀ u, P u → P' u) (hQ : ∀ u, Q u → Q' u)
    (h : P.product Q w) : P'.product Q' w := by
  obtain ⟨u, v, rfl, hu, hv⟩ := h
  exact ⟨u, v, rfl, hP u hu, hQ v hv⟩

theorem product_congr {P' Q' : Language L} (hP : ∀ u, P u ↔ P' u) (hQ : ∀ u, Q u ↔ Q' u) :
    P.product Q w ↔ P'.product Q' w := by
  simp only [product, hP, hQ]

/-- One symbol cannot be shared out among several words. -/
theorem mem_of_star_singleton {symbol : L} (h : P.star [symbol]) : P [symbol] := by
  refine star_induction (motive := fun w => w = [symbol] → P [symbol]) nofun ?_ h rfl
  intro u v hu ih huv
  rcases List.append_eq_singleton_iff.1 huv with ⟨-, hv⟩ | ⟨rfl, -⟩
  · exact ih hv
  · exact hu

end Language

end FiniteAutomata
