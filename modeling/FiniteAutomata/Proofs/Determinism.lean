import FiniteAutomata.Automaton.Deterministic
import FiniteAutomata.Label
import FiniteAutomata.Proofs.Frontier

/-!
# Deterministic automata

The check compares every transition with those before it. Nothing more is needed, for two steps that
leave one state on equal labels clash in either order. What it guarantees is that paths are functions
of their words: from one state no word leads to two others, and from the initial states no word leads
to two states, so that a match is never in two. Read from the other side, a word is accepted from a
state exactly if it is accepted after any word that leads there.
-/

namespace FiniteAutomata

universe u

variable {L : Type u} [BEq L]

/-- The two steps leave the same state on equal labels. -/
def Transition.Clash (t u : Transition L) : Prop :=
  t.source = u.source ∧ (t.label == u.label) = true

namespace Automaton

variable {A : Automaton L} {s r q : StateId} {symbol : L} {v w : List L} {t u : Transition L}

/-! ### What the check checks -/

theorem unambiguous_iff {seen l : List (Transition L)} :
    unambiguous seen l = true ↔
      (∀ t ∈ l, t.isSilent = false) ∧ (∀ u ∈ seen, ∀ t ∈ l, ¬ u.Clash t) ∧
        l.Pairwise fun t u => ¬ t.Clash u := by
  induction l generalizing seen with
  | nil => simp [unambiguous]
  | cons t l ih =>
      have hseen : (seen.any fun u => u.source == t.source && u.label == t.label) = false ↔
          ∀ u ∈ seen, ¬ u.Clash t := by
        simp [Transition.Clash]
      rw [unambiguous, Bool.and_eq_true, Bool.and_eq_true, Bool.not_eq_true', Bool.not_eq_true',
        hseen, ih, List.pairwise_cons]
      refine ⟨fun h => ?_, fun h => ?_⟩
      · obtain ⟨⟨hsilent, hold⟩, hrest, hcross, hpairs⟩ := h
        refine ⟨List.forall_mem_cons.2 ⟨hsilent, hrest⟩, fun u hu => ?_, ?_, hpairs⟩
        · exact List.forall_mem_cons.2 ⟨hold u hu, hcross u (List.mem_cons_of_mem t hu)⟩
        · exact hcross t List.mem_cons_self
      · obtain ⟨hsilent, hcross, hfirst, hpairs⟩ := h
        refine ⟨⟨hsilent t List.mem_cons_self, fun u hu => hcross u hu t List.mem_cons_self⟩,
          fun u hu => hsilent u (List.mem_cons_of_mem t hu), ?_, hpairs⟩
        exact List.forall_mem_cons.2
          ⟨hfirst, fun u hu r hr => hcross u hu r (List.mem_cons_of_mem t hr)⟩

/-- At most one initial state, no silent step, and no two steps that clash. -/
theorem isDeterministic_iff_clash [EquivBEq L] :
    A.isDeterministic = true ↔
      A.initials.size ≤ 1 ∧ (∀ t ∈ A.transitions, t.isSilent = false) ∧
        ∀ t ∈ A.transitions, ∀ u ∈ A.transitions, t.Clash u → t = u := by
  rw [isDeterministic, Bool.and_eq_true, decide_eq_true_iff, unambiguous_iff]
  refine and_congr_right fun _ => and_congr_right fun _ => ?_
  refine ⟨fun h t ht u hu hclash => ?_, fun h => ?_⟩
  · have hsymm : ∀ t u : Transition L, t.Clash u → u.Clash t :=
      fun _ _ h => ⟨h.1.symm, PartialEquivBEq.symm h.2⟩
    exact OrderedSet.eq_of_pairwise_not hsymm h.2 ht hu hclash
  · refine ⟨by simp, A.transitions.nodup_toList.imp_of_mem fun ht hu hne hclash => ?_⟩
    exact hne (h _ ht _ hu hclash)

/-! ### Paths of a deterministic automaton -/

section Deterministic

variable [EquivBEq L] (hdet : A.isDeterministic = true)

include hdet

theorem silent_not_mem_of_isDeterministic : Transition.silent s r ∉ A.transitions := by
  intro h
  have hsilent := (isDeterministic_iff_clash.1 hdet).2.1 _ h
  cases hsilent

theorem eq_of_mem_initials_of_isDeterministic (hs : s ∈ A.initials) (hr : r ∈ A.initials) :
    s = r :=
  OrderedSet.size_le_one_iff.1 (isDeterministic_iff_clash.1 hdet).1 s hs r hr

theorem Path.eq_of_isDeterministic (h : A.Path s w r) (h' : A.Path s w q) : r = q := by
  induction h with
  | nil s =>
      cases h' with
      | nil => rfl
      | silent hstep => exact absurd hstep (silent_not_mem_of_isDeterministic hdet)
  | silent hstep => exact absurd hstep (silent_not_mem_of_isDeterministic hdet)
  | read hstep hlabel _ ih =>
      cases h' with
      | silent hstep' => exact absurd hstep' (silent_not_mem_of_isDeterministic hdet)
      | read hstep' hlabel' hrest' =>
          have hsame := (isDeterministic_iff_clash.1 hdet).2.2 _ hstep _ hstep'
            ⟨rfl, PartialEquivBEq.trans (α := L) hlabel (PartialEquivBEq.symm hlabel')⟩
          obtain ⟨-, -, rfl⟩ := Transition.mk.inj hsame
          exact ih hrest'

theorem eq_of_path_nil_of_isDeterministic (h : A.Path s [] r) : s = r :=
  Path.eq_of_isDeterministic hdet (.nil s) h

/-- One symbol is read by one step and nothing else. -/
theorem path_singleton_iff_of_isDeterministic :
    A.Path s [symbol] r ↔ ∃ label, ⟨s, some label, r⟩ ∈ A.transitions ∧ (label == symbol) = true := by
  refine ⟨fun h => ?_, fun h => ?_⟩
  · cases h with
    | silent hstep => exact absurd hstep (silent_not_mem_of_isDeterministic hdet)
    | read hstep hlabel hrest =>
        obtain rfl := eq_of_path_nil_of_isDeterministic hdet hrest
        exact ⟨_, hstep, hlabel⟩
  · obtain ⟨label, hstep, hlabel⟩ := h
    exact .read hstep hlabel (.nil r)

/-- No word leads to two states. -/
theorem LeadsTo.eq_of_isDeterministic (h : A.LeadsTo w s) (h' : A.LeadsTo w r) : s = r := by
  obtain ⟨i, hi, hpath⟩ := h
  obtain ⟨j, hj, hpath'⟩ := h'
  obtain rfl := eq_of_mem_initials_of_isDeterministic hdet hi hj
  exact hpath.eq_of_isDeterministic hdet hpath'

/-- What a state accepts is what the automaton accepts after any word that leads there. -/
theorem LeadsTo.acceptsFrom_iff (h : A.LeadsTo v s) : A.AcceptsFrom s w ↔ A.Accepts (v ++ w) := by
  rw [accepts_append_iff]
  refine ⟨fun hs => ?_, fun h => ?_⟩
  · exact ⟨s, h, hs⟩
  · obtain ⟨r, hr, hw⟩ := h
    exact LeadsTo.eq_of_isDeterministic hdet h hr ▸ hw

theorem mem_initials_iff_of_isDeterministic : s ∈ A.initials ↔ A.LeadsTo [] s := by
  refine ⟨fun hs => ?_, fun h => ?_⟩
  · exact ⟨s, hs, .nil s⟩
  · obtain ⟨i, hi, hpath⟩ := h
    exact eq_of_path_nil_of_isDeterministic hdet hpath ▸ hi

theorem mem_finals_iff_of_isDeterministic : s ∈ A.finals ↔ A.AcceptsFrom s [] := by
  refine ⟨fun hs => ?_, fun h => ?_⟩
  · exact ⟨s, hs, .nil s⟩
  · obtain ⟨t, ht, hpath⟩ := h
    exact eq_of_path_nil_of_isDeterministic hdet hpath ▸ ht

/-- A match is never in two states. -/
theorem size_after_le_one_of_isDeterministic (w : List L) : (A.after w).size ≤ 1 := by
  rw [OrderedSet.size_le_one_iff]
  intro s hs r hr
  rw [mem_after_iff] at hs hr
  exact hs.eq_of_isDeterministic hdet hr

end Deterministic

/-! ### What the check guarantees -/

/-- The check succeeds exactly if there is at most one initial state, no silent step, and no two
different steps that leave one state on equal labels. If it does, a match is in at most one state
whatever word it has read. -/
theorem isDeterministic_exact [EquivBEq L] (A : Automaton L) :
    (A.isDeterministic = true ↔
      A.initials.size ≤ 1 ∧ (∀ t ∈ A.transitions, t.isSilent = false) ∧
        ¬ ∃ t ∈ A.transitions, ∃ u ∈ A.transitions, t ≠ u ∧ t.source = u.source ∧
          (t.label == u.label) = true) ∧
      (A.isDeterministic = true →
        ∀ w, ∃ F, (A.reset.feed w).frontier = some F ∧ F.size ≤ 1) := by
  constructor
  · rw [isDeterministic_iff_clash]
    apply and_congr_right
    intro _
    apply and_congr_right
    intro _
    constructor
    · rintro h ⟨t, ht, u, hu, hne, hclash⟩
      exact hne (h t ht u hu hclash)
    · intro h t ht u hu hclash
      apply Classical.byContradiction
      intro hne
      exact h ⟨t, ht, u, hu, hne, hclash⟩
  · intro hdet w
    refine ⟨A.after w, ?_, size_after_le_one_of_isDeterministic hdet w⟩
    rw [feed_reset]

/-- Two steps on one letter in either case, from different states. -/
def eitherCase : Automaton CaselessText where
  initials := OrderedSet.ofList [3]
  transitions := OrderedSet.ofList [⟨3, some ⟨"a"⟩, 5⟩, ⟨5, some ⟨"A"⟩, 3⟩, ⟨3, some ⟨"b"⟩, 3⟩]
  finals := OrderedSet.ofList [5]
  frontier := none
  nextId := 6

/-- One more step makes it nondeterministic. Its label is spelled differently from the label of the
step with which it clashes. -/
theorem isDeterministic_exact_eitherCase :
    (∃ F, (eitherCase.reset.feed [⟨"A"⟩, ⟨"a"⟩, ⟨"B"⟩]).frontier = some F ∧ F.size ≤ 1) ∧
      { eitherCase with transitions := eitherCase.transitions.insert ⟨3, some ⟨"A"⟩, 3⟩ }.isDeterministic
        = false := by
  obtain ⟨-, hrun⟩ := isDeterministic_exact eitherCase
  have hdet : eitherCase.isDeterministic = true := by decide +kernel
  exact ⟨hrun hdet _, by decide +kernel⟩

end Automaton

end FiniteAutomata
