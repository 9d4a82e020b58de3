import FiniteAutomata.Expr.Build
import FiniteAutomata.Expr.Language
import FiniteAutomata.Expr.Proper
import FiniteAutomata.Proofs.Guarded
import FiniteAutomata.Proofs.Minimization

/-!
# Expressions and their automata

The automaton of a proper expression accepts the words that the expression stands for. An automaton
realizes an expression when it is what is built for it and accepts its words; every operation keeps
this. Repetition alone asks for more, namely a guarded automaton, so simple expressions are followed
by an induction of their own that carries both properties.
-/

namespace FiniteAutomata.Expr

open Automaton

variable {V L : Type} [BEq L] {given : V → Option (Automaton L)} {words : V → Language L}
  {e first second : Expr V L} {operands : List (Expr V L)} {A B C : Automaton L}
  {automata : List (Automaton L)} {w : List L}

/-- `A` is what is built for `e`, and accepts the words that `e` stands for. -/
structure Realizes (given : V → Option (Automaton L)) (words : V → Language L) (e : Expr V L)
    (A : Automaton L) : Prop where
  built : (e.build given).result = .ok A
  accepts_iff : ∀ w, A.Accepts w ↔ e.language words w

/-! ### The smallest automata -/

theorem realizes_none : Realizes given words none ∅ where
  built := rfl
  accepts_iff _ := iff_of_false not_accepts_empty id

theorem realizes_epsilon : Realizes given words epsilon .epsilon where
  built := rfl
  accepts_iff _ := accepts_ofLabel_iff

theorem realizes_atom (label : L) : Realizes given words (atom label) (.atom label) where
  built := rfl
  accepts_iff _ := accepts_ofLabel_iff

/-! ### Lists of operands -/

/-- When every operand has an automaton with a property, a list of such automata goes with the
operands. -/
theorem exists_related_and {R : Expr V L → Automaton L → Prop} {P : Automaton L → Prop}
    (h : ∀ e ∈ operands, ∃ A, R e A ∧ P A) :
    ∃ automata, List.Forall₂ R operands automata ∧ ∀ A ∈ automata, P A := by
  induction operands with
  | nil => exact ⟨[], .nil, nofun⟩
  | cons e operands ih =>
      obtain ⟨A, hA, hP⟩ := h e List.mem_cons_self
      obtain ⟨automata, hautomata, hall⟩ := ih fun e he => h e (List.mem_cons_of_mem _ he)
      exact ⟨A :: automata, .cons hA hautomata, List.forall_mem_cons.2 ⟨hP, hall⟩⟩

theorem exists_related {R : Expr V L → Automaton L → Prop} (h : ∀ e ∈ operands, ∃ A, R e A) :
    ∃ automata, List.Forall₂ R operands automata := by
  obtain ⟨automata, hautomata, -⟩ :=
    exists_related_and (R := R) (P := fun _ => True) (by simpa using h)
  exact ⟨automata, hautomata⟩

theorem ne_nil_of_related {R : Expr V L → Automaton L → Prop}
    (h : List.Forall₂ R operands automata) (hne : operands ≠ []) : automata ≠ [] := by
  rintro rfl
  exact hne (List.forall₂_nil_right_iff.1 h)

theorem result_buildAll
    (h : List.Forall₂ (fun e A => (e.build given).result = .ok A) operands automata) :
    (buildAll given operands).result = .ok automata := by
  induction h with
  | nil => rfl
  | cons hA _ ih => exact result_buildAll_cons hA ih

theorem exists_accepts_iff (h : List.Forall₂ (Realizes given words) operands automata) :
    (∃ A ∈ automata, A.Accepts w) ↔ anyLanguage words operands w := by
  induction h with
  | nil => simp [anyLanguage]
  | cons hA _ ih =>
      rw [List.exists_mem_cons_iff, ih, hA.accepts_iff]
      rfl

theorem inTurn_iff (h : List.Forall₂ (Realizes given words) operands automata) :
    InTurn automata w ↔ allLanguage words operands w := by
  induction h generalizing w with
  | nil => exact inTurn_nil
  | cons hA _ ih =>
      rw [inTurn_cons]
      exact Language.product_congr hA.accepts_iff fun _ => ih

/-! ### The operations -/

section Operations

variable [EquivBEq L]

theorem realizes_union (h : List.Forall₂ (Realizes given words) operands automata) :
    Realizes given words (union operands) (.union automata) where
  built := result_build_union (result_buildAll (h.imp fun _ _ hA => hA.built))
  accepts_iff _ := accepts_union_iff.trans (exists_accepts_iff h)

theorem realizes_concat (h : List.Forall₂ (Realizes given words) operands automata)
    (hC : Automaton.concat automata = .ok C) : Realizes given words (concat operands) C where
  built := result_build_concat (result_buildAll (h.imp fun _ _ hA => hA.built)) hC
  accepts_iff _ := (accepts_concat_iff hC).trans (inTurn_iff h)

theorem Realizes.seq (hA : Realizes given words first A) (hB : Realizes given words second B) :
    Realizes given words (seq first second) (A.seq B) where
  built := result_build_seq hA.built hB.built
  accepts_iff _ := accepts_seq_iff.trans (Language.product_congr hA.accepts_iff hB.accepts_iff)

theorem Realizes.alt (hA : Realizes given words first A) (hB : Realizes given words second B) :
    Realizes given words (alt first second) (A.alt B) where
  built := result_build_alt hA.built hB.built
  accepts_iff w := accepts_alt_iff.trans (or_congr (hA.accepts_iff w) (hB.accepts_iff w))

theorem Realizes.star (hA : Realizes given words e A) (hrepeatable : A.Repeatable) :
    Realizes given words (star e) A.star where
  built := result_build_star hA.built
  accepts_iff _ := hrepeatable.guarded.accepts_star_iff.trans
    ((and_iff_right hrepeatable.hasEnds).trans (Language.star_congr hA.accepts_iff))

theorem Realizes.reverse (hA : Realizes given words e A) :
    Realizes given words (reverse e) A.reverse where
  built := result_build_reverse hA.built
  accepts_iff w := accepts_reverse_iff.trans (hA.accepts_iff w.reverse)

theorem Realizes.copy (hA : Realizes given words e A) :
    Realizes given words (copy e) A.copy where
  built := result_build_copy hA.built
  accepts_iff w := (renaming_copy A).accepts_iff.trans (hA.accepts_iff w)

theorem Realizes.determinize (hA : Realizes given words e A) :
    Realizes given words (determinize e) A.determinize where
  built := result_build_determinize hA.built
  accepts_iff w := accepts_determinize_iff.trans (hA.accepts_iff w)

theorem Realizes.minimize (hA : Realizes given words e A) :
    Realizes given words (minimize e) A.minimize where
  built := result_build_minimize hA.built
  accepts_iff w := accepts_minimize_iff.trans (hA.accepts_iff w)

/-! ### All expressions -/

/-- What is built for a simple expression can be repeated. -/
theorem Simple.exists_repeatable (h : e.Simple) : ∃ A, Realizes given words e A ∧ A.Repeatable := by
  induction h with
  | epsilon => exact ⟨_, realizes_epsilon, repeatable_ofLabel .none⟩
  | atom label => exact ⟨_, realizes_atom label, repeatable_ofLabel (some label)⟩
  | union hne _ ih =>
      obtain ⟨automata, hautomata, hall⟩ := exists_related_and ih
      exact ⟨_, realizes_union hautomata, repeatable_union (ne_nil_of_related hautomata hne) hall⟩
  | concat hne _ ih =>
      obtain ⟨automata, hautomata, hall⟩ := exists_related_and ih
      obtain ⟨C, hC⟩ := exists_concat_of_ne_nil (ne_nil_of_related hautomata hne)
      exact ⟨C, realizes_concat hautomata hC, repeatable_concat hC hall⟩
  | seq _ _ ihfirst ihsecond =>
      obtain ⟨A, hA, hrepA⟩ := ihfirst
      obtain ⟨B, hB, hrepB⟩ := ihsecond
      exact ⟨_, hA.seq hB, repeatable_concat (concat_pair A B) (by simp [hrepA, hrepB])⟩
  | alt _ _ ihfirst ihsecond =>
      obtain ⟨A, hA, hrepA⟩ := ihfirst
      obtain ⟨B, hB, hrepB⟩ := ihsecond
      exact ⟨_, hA.alt hB, repeatable_union (List.cons_ne_nil A [B]) (by simp [hrepA, hrepB])⟩
  | reverse _ ih =>
      obtain ⟨A, hA, hrep⟩ := ih
      exact ⟨_, hA.reverse, hrep.reverse⟩
  | copy _ ih =>
      obtain ⟨A, hA, hrep⟩ := ih
      exact ⟨_, hA.copy, hrep.copy⟩

variable (given words) in
theorem Proper.exists_realizes (h : e.Proper) : ∃ A, Realizes given words e A := by
  induction h with
  | none => exact ⟨_, realizes_none⟩
  | epsilon => exact ⟨_, realizes_epsilon⟩
  | atom label => exact ⟨_, realizes_atom label⟩
  | union _ ih =>
      obtain ⟨automata, hautomata⟩ := exists_related ih
      exact ⟨_, realizes_union hautomata⟩
  | concat hne _ ih =>
      obtain ⟨automata, hautomata⟩ := exists_related ih
      obtain ⟨C, hC⟩ := exists_concat_of_ne_nil (ne_nil_of_related hautomata hne)
      exact ⟨C, realizes_concat hautomata hC⟩
  | seq _ _ ihfirst ihsecond =>
      obtain ⟨A, hA⟩ := ihfirst
      obtain ⟨B, hB⟩ := ihsecond
      exact ⟨_, hA.seq hB⟩
  | alt _ _ ihfirst ihsecond =>
      obtain ⟨A, hA⟩ := ihfirst
      obtain ⟨B, hB⟩ := ihsecond
      exact ⟨_, hA.alt hB⟩
  | star hsimple =>
      obtain ⟨A, hA, hrep⟩ := hsimple.exists_repeatable
      exact ⟨_, hA.star hrep⟩
  | reverse _ ih =>
      obtain ⟨A, hA⟩ := ih
      exact ⟨_, hA.reverse⟩
  | copy _ ih =>
      obtain ⟨A, hA⟩ := ih
      exact ⟨_, hA.copy⟩
  | determinize _ ih =>
      obtain ⟨A, hA⟩ := ih
      exact ⟨_, hA.determinize⟩
  | minimize _ ih =>
      obtain ⟨A, hA⟩ := ih
      exact ⟨_, hA.minimize⟩

/-- Every proper expression can be built, and its automaton accepts the words that it stands for. -/
theorem accepts_build_iff (given : V → Option (Automaton L)) (words : V → Language L)
    (e : Expr V L) (h : e.Proper) :
    ∃ A, (e.build given).result = .ok A ∧ ∀ w, A.accepts w = true ↔ e.language words w := by
  obtain ⟨A, hA⟩ := h.exists_realizes given words
  exact ⟨A, hA.built, fun w => accepts_iff.trans (hA.accepts_iff w)⟩

end Operations

/-- The words `ab` and `abba` any number of times, read backwards. The pair `ab` occurs twice in the
tree, and an operand without words beside the repetition. -/
def reversedPairs : Expr Empty Char :=
  let pair := seq (atom 'a') (atom 'b')
  minimize (union
    [none, determinize (reverse (star (concat [pair, alt epsilon (reverse (copy pair))])))])

/-- The built automaton tells which words the tree stands for. -/
theorem accepts_build_iff_reversedPairs :
    reversedPairs.Proper ∧ reversedPairs.language nofun ['b', 'a', 'a', 'b', 'b', 'a'] ∧
      ¬ reversedPairs.language nofun ['a', 'b'] := by
  have hpair : Simple (seq (atom 'a') (atom 'b') : Expr Empty Char) := .seq (.atom 'a') (.atom 'b')
  have hstar : Simple (concat [_, alt epsilon (reverse (copy _))]) :=
    .concat (List.cons_ne_nil _ _) (List.forall_mem_cons.2
      ⟨hpair, List.forall_mem_singleton.2 (.alt .epsilon (.reverse (.copy hpair)))⟩)
  have hproper : reversedPairs.Proper := .minimize (.union (List.forall_mem_cons.2
    ⟨.none, List.forall_mem_singleton.2 (.determinize (.reverse (.star hstar)))⟩))
  obtain ⟨A, hA, hwords⟩ := accepts_build_iff nofun nofun reversedPairs hproper
  have hbuilt : ∀ w,
      (reversedPairs.build nofun).result.toOption.any (·.accepts w) = A.accepts w := by
    intro w
    rw [hA]
    rfl
  refine ⟨hproper, (hwords _).1 ?_, fun h => ?_⟩
  · rw [← hbuilt]
    decide +kernel
  · have haccepts := (hwords _).2 h
    rw [← hbuilt] at haccepts
    revert haccepts
    decide +kernel

end FiniteAutomata.Expr
