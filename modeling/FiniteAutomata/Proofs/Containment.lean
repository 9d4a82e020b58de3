import FiniteAutomata.Expr.Admissible
import FiniteAutomata.Proofs.Expression

/-!
# No word is lost

The automaton of an admissible expression accepts every word that the expression stands for. An
automaton contains an expression when it is what is built for it and accepts its words, and perhaps
more; every operation keeps that. Repetition alone asks for more, namely an initial state and a final
one. It need not know how the automaton was built to have them: a productive expression stands for
some word, so the automaton that contains it accepts one, and what accepts a word has both ends.
-/

namespace FiniteAutomata.Expr

open Automaton

variable {V L : Type} [BEq L] {given : V → Option (Automaton L)} {words : V → Language L}
  {e first second : Expr V L} {operands : List (Expr V L)} {A B C : Automaton L}
  {automata : List (Automaton L)} {w : List L}

/-- `A` is what is built for `e`, and accepts at least the words that `e` stands for. -/
structure Contains (given : V → Option (Automaton L)) (words : V → Language L) (e : Expr V L)
    (A : Automaton L) : Prop where
  built : (e.build given).result = .ok A
  accepts : ∀ w, e.language words w → A.Accepts w

theorem Realizes.contains (h : Realizes given words e A) : Contains given words e A where
  built := h.built
  accepts w hw := (h.accepts_iff w).2 hw

/-! ### Productive expressions -/

theorem exists_anyLanguage (hne : operands ≠ []) (hall : ∀ e ∈ operands, ∃ w, e.language words w) :
    ∃ w, anyLanguage words operands w := by
  obtain ⟨e, operands, rfl⟩ := List.exists_cons_of_ne_nil hne
  obtain ⟨w, hw⟩ := hall e List.mem_cons_self
  exact ⟨w, .inl hw⟩

theorem exists_allLanguage (hall : ∀ e ∈ operands, ∃ w, e.language words w) :
    ∃ w, allLanguage words operands w := by
  induction operands with
  | nil => exact ⟨[], rfl⟩
  | cons e operands ih =>
      obtain ⟨u, hu⟩ := hall e List.mem_cons_self
      obtain ⟨v, hv⟩ := ih fun e he => hall e (List.mem_cons_of_mem _ he)
      exact ⟨u ++ v, u, v, rfl, hu, hv⟩

variable (words) in
/-- A productive expression stands for some word. -/
theorem Productive.exists_word [EquivBEq L] (h : e.Productive) : ∃ w, e.language words w := by
  induction h with
  | epsilon => exact ⟨[], rfl⟩
  | atom label => exact ⟨[label], label, rfl, BEq.rfl⟩
  | union hne _ ih => exact exists_anyLanguage hne ih
  | concat _ ih => exact exists_allLanguage ih
  | seq _ _ ihfirst ihsecond =>
      obtain ⟨u, hu⟩ := ihfirst
      obtain ⟨v, hv⟩ := ihsecond
      exact ⟨u ++ v, u, v, rfl, hu, hv⟩
  | alt _ _ ihfirst _ =>
      obtain ⟨u, hu⟩ := ihfirst
      exact ⟨u, .inl hu⟩
  | star _ _ => exact ⟨[], Language.star_nil⟩
  | reverse _ ih =>
      obtain ⟨w, hw⟩ := ih
      exact ⟨w.reverse, by rwa [language, Language.reverse, List.reverse_reverse]⟩
  | copy _ ih => exact ih
  | determinize _ ih => exact ih
  | minimize _ ih => exact ih

/-! ### Lists of operands -/

theorem exists_accepts_of_anyLanguage (h : List.Forall₂ (Contains given words) operands automata)
    (hw : anyLanguage words operands w) : ∃ A ∈ automata, A.Accepts w := by
  induction h with
  | nil => exact hw.elim
  | cons hA _ ih =>
      rw [List.exists_mem_cons_iff]
      exact hw.imp (hA.accepts w) ih

theorem inTurn_of_allLanguage (h : List.Forall₂ (Contains given words) operands automata)
    (hw : allLanguage words operands w) : InTurn automata w := by
  induction h generalizing w with
  | nil => exact inTurn_nil.2 hw
  | cons hA _ ih => exact inTurn_cons.2 (Language.product_mono hA.accepts (fun _ => ih) hw)

/-! ### The operations -/

section Operations

variable [EquivBEq L]

theorem contains_union (h : List.Forall₂ (Contains given words) operands automata) :
    Contains given words (union operands) (.union automata) where
  built := result_build_union (result_buildAll (h.imp fun _ _ hA => hA.built))
  accepts _ hw := accepts_union_iff.2 (exists_accepts_of_anyLanguage h hw)

theorem contains_concat (h : List.Forall₂ (Contains given words) operands automata)
    (hC : Automaton.concat automata = .ok C) : Contains given words (concat operands) C where
  built := result_build_concat (result_buildAll (h.imp fun _ _ hA => hA.built)) hC
  accepts _ hw := (accepts_concat_iff hC).2 (inTurn_of_allLanguage h hw)

theorem Contains.seq (hA : Contains given words first A) (hB : Contains given words second B) :
    Contains given words (seq first second) (A.seq B) where
  built := result_build_seq hA.built hB.built
  accepts _ hw := accepts_seq_iff.2 (Language.product_mono hA.accepts hB.accepts hw)

theorem Contains.alt (hA : Contains given words first A) (hB : Contains given words second B) :
    Contains given words (alt first second) (A.alt B) where
  built := result_build_alt hA.built hB.built
  accepts w hw := accepts_alt_iff.2 (hw.imp (hA.accepts w) (hB.accepts w))

theorem Contains.star (hA : Contains given words e A) (hword : ∃ w, e.language words w) :
    Contains given words (star e) A.star where
  built := result_build_star hA.built
  accepts _ hw := by
    obtain ⟨u, hu⟩ := hword
    -- That `u` is accepted gives both ends, without which even the empty word would be lost.
    refine accepts_star_iff.2 ⟨(hA.accepts u hu).hasEnds, star_between_of_star_accepts ?_⟩
    exact Language.star_mono (fun v hv => Language.star_of_mem (hA.accepts v hv)) hw

theorem Contains.reverse (hA : Contains given words e A) :
    Contains given words (reverse e) A.reverse where
  built := result_build_reverse hA.built
  accepts w hw := accepts_reverse_iff.2 (hA.accepts w.reverse hw)

theorem Contains.copy (hA : Contains given words e A) : Contains given words (copy e) A.copy where
  built := result_build_copy hA.built
  accepts w hw := (renaming_copy A).accepts_iff.2 (hA.accepts w hw)

theorem Contains.determinize (hA : Contains given words e A) :
    Contains given words (determinize e) A.determinize where
  built := result_build_determinize hA.built
  accepts w hw := accepts_determinize_iff.2 (hA.accepts w hw)

theorem Contains.minimize (hA : Contains given words e A) :
    Contains given words (minimize e) A.minimize where
  built := result_build_minimize hA.built
  accepts w hw := accepts_minimize_iff.2 (hA.accepts w hw)

/-! ### All expressions -/

variable (given words) in
theorem Admissible.exists_contains (h : e.Admissible) : ∃ A, Contains given words e A := by
  induction h with
  | none => exact ⟨_, realizes_none.contains⟩
  | epsilon => exact ⟨_, realizes_epsilon.contains⟩
  | atom label => exact ⟨_, (realizes_atom label).contains⟩
  | union _ ih =>
      obtain ⟨automata, hautomata⟩ := exists_related ih
      exact ⟨_, contains_union hautomata⟩
  | concat hne _ ih =>
      obtain ⟨automata, hautomata⟩ := exists_related ih
      obtain ⟨C, hC⟩ := exists_concat_of_ne_nil (ne_nil_of_related hautomata hne)
      exact ⟨C, contains_concat hautomata hC⟩
  | seq _ _ ihfirst ihsecond =>
      obtain ⟨A, hA⟩ := ihfirst
      obtain ⟨B, hB⟩ := ihsecond
      exact ⟨_, hA.seq hB⟩
  | alt _ _ ihfirst ihsecond =>
      obtain ⟨A, hA⟩ := ihfirst
      obtain ⟨B, hB⟩ := ihsecond
      exact ⟨_, hA.alt hB⟩
  | star _ hproductive ih =>
      obtain ⟨A, hA⟩ := ih
      exact ⟨_, hA.star (hproductive.exists_word words)⟩
  | reverse _ ih =>
      obtain ⟨A, hA⟩ := ih
      exact ⟨_, hA.reverse⟩
  | copy _ ih =>
      obtain ⟨A, hA⟩ := ih
      exact ⟨_, hA.copy⟩
  | determinize _ ih =>
      obtain ⟨A, hA⟩ := ih
      exact ⟨_, hA.determinize⟩
  | minimize _ ih =>
      obtain ⟨A, hA⟩ := ih
      exact ⟨_, hA.minimize⟩

/-- Every admissible expression can be built, and its automaton accepts all words that it stands
for, if perhaps others too. -/
theorem accepts_build_of_language (given : V → Option (Automaton L)) (words : V → Language L)
    (e : Expr V L) (h : e.Admissible) :
    ∃ A, (e.build given).result = .ok A ∧ ∀ w, e.language words w → A.accepts w = true := by
  obtain ⟨A, hA⟩ := h.exists_contains given words
  exact ⟨A, hA.built, fun w hw => accepts_iff.2 (hA.accepts w hw)⟩

end Operations

/-- Any number of `b` and of the pairs `cd` read backwards, which are repetitions themselves. -/
def innerStar : Expr Empty Char := star (alt (atom 'b') (reverse (star (seq (atom 'c') (atom 'd')))))

/-- The repetitions within another one, with a determinization between. -/
def nestedStars : Expr Empty Char := star (determinize (seq (atom 'a') innerStar))

/-- A word of the tree is accepted, and so is a lone `b`, which is none. -/
theorem accepts_build_of_language_nestedStars :
    nestedStars.Admissible ∧ nestedStars.language nofun ['a', 'b', 'd', 'c', 'a'] ∧
      ¬ nestedStars.language nofun ['b'] ∧
      ∃ A, (nestedStars.build nofun).result = .ok A ∧ A.accepts ['a', 'b', 'd', 'c', 'a'] = true ∧
        A.accepts ['b'] = true := by
  have hpair : Productive (seq (atom 'c') (atom 'd') : Expr Empty Char) :=
    .seq (.atom 'c') (.atom 'd')
  have hchoice : Productive (alt (atom 'b') (reverse (star (seq (atom 'c') (atom 'd')))) :
      Expr Empty Char) := .alt (.atom 'b') (.reverse (.star hpair))
  have hinner : innerStar.Admissible :=
    .star (.alt (.atom 'b') (.reverse (.star (.seq (.atom 'c') (.atom 'd')) hpair))) hchoice
  have hadmissible : nestedStars.Admissible :=
    .star (.determinize (.seq (.atom 'a') hinner)) (.determinize (.seq (.atom 'a') (.star hchoice)))
  have hturned : (star (seq (atom 'c') (atom 'd')) : Expr Empty Char).language nofun ['c', 'd'] :=
    Language.star_of_mem ⟨['c'], ['d'], rfl, ⟨'c', rfl, rfl⟩, 'd', rfl, rfl⟩
  have hinnerWord : innerStar.language nofun ['b', 'd', 'c'] :=
    Language.star_append (u := ['b']) (.inl ⟨'b', rfl, rfl⟩) (Language.star_of_mem (.inr hturned))
  have hword : nestedStars.language nofun ['a', 'b', 'd', 'c', 'a'] :=
    Language.star_append (u := ['a', 'b', 'd', 'c'])
      ⟨['a'], ['b', 'd', 'c'], rfl, ⟨'a', rfl, rfl⟩, hinnerWord⟩
      (Language.star_of_mem ⟨['a'], [], rfl, ⟨'a', rfl, rfl⟩, Language.star_nil⟩)
  have hmore : (nestedStars.build nofun).result.toOption.any (·.accepts ['b']) = true := by
    decide +kernel
  obtain ⟨A, hA, hwords⟩ := accepts_build_of_language nofun nofun nestedStars hadmissible
  rw [hA] at hmore
  refine ⟨hadmissible, hword, fun h => ?_, A, hA, hwords _ hword, hmore⟩
  obtain ⟨u, v, huv, ⟨symbol, rfl, hsymbol⟩, -⟩ := Language.mem_of_star_singleton h
  obtain ⟨rfl, -⟩ := List.cons.inj huv
  cases hsymbol

end FiniteAutomata.Expr
