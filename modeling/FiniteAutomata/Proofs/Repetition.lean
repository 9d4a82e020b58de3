import FiniteAutomata.Automaton.Regular
import FiniteAutomata.Proofs.Frontier
import FiniteAutomata.Proofs.Joining
import FiniteAutomata.Proofs.Placement

/-!
# Repetition

Repetition makes every end of an automaton, initial or final, silently reachable from every other, as
long as there is one of each kind. A path from an initial to a final state is then any sequence of
paths of the original automaton between ends. It need not respect the kinds of the ends: a piece may
leave a final state or enter an initial one. Where no step does that, each piece that is not empty
leads from an initial to a final state, and the repetition is the Kleene star.
-/

namespace FiniteAutomata.Automaton

universe u

variable {L : Type u} [BEq L] {A B : Automaton L} {f : StateId → StateId} {s r : StateId}
  {w : List L}

/-- The state is initial or final. -/
def IsEnd (A : Automaton L) (s : StateId) : Prop := s ∈ A.initials ∨ s ∈ A.finals

/-- There is an initial state and a final one. -/
def HasEnds (A : Automaton L) : Prop := (∃ s, s ∈ A.initials) ∧ ∃ s, s ∈ A.finals

/-- No step enters an initial state and none leaves a final one. -/
def Guarded (A : Automaton L) : Prop :=
  ∀ t ∈ A.transitions, t.destination ∉ A.initials ∧ t.source ∉ A.finals

instance (A : Automaton L) : Decidable A.Guarded :=
  inferInstanceAs (Decidable
    (∀ t ∈ A.transitions.toList, t.destination ∉ A.initials ∧ t.source ∉ A.finals))

theorem Accepts.hasEnds (h : A.Accepts w) : A.HasEnds := by
  obtain ⟨s, hs, r, hr, -⟩ := h
  exact ⟨⟨s, hs⟩, r, hr⟩

/-! ### Ends under a renaming -/

theorem IsEnd.mem_states (h : A.IsEnd s) : s ∈ A.states :=
  h.elim mem_states_of_mem_initials mem_states_of_mem_finals

theorem Renaming.isEnd_iff (hf : Renaming A B f) : B.IsEnd r ↔ ∃ s, A.IsEnd s ∧ f s = r := by
  rw [IsEnd, hf.initials, hf.finals, ← exists_or]
  exact exists_congr fun s => or_and_right.symm

theorem Renaming.hasEnds_iff (hf : Renaming A B f) : B.HasEnds ↔ A.HasEnds :=
  and_congr (OrderedSet.exists_mem_iff_of_image hf.initials)
    (OrderedSet.exists_mem_iff_of_image hf.finals)

theorem Renaming.between_isEnd_iff [EquivBEq L] (hf : Renaming A B f) :
    B.between B.IsEnd B.IsEnd w ↔ A.between A.IsEnd A.IsEnd w := by
  refine ⟨fun h => ?_, fun h => ?_⟩
  · obtain ⟨x, y, hx, hy, hpath⟩ := h
    obtain ⟨s, hs, hfs⟩ := hf.isEnd_iff.1 hx
    obtain ⟨t, ht, rfl⟩ := hf.isEnd_iff.1 hy
    obtain ⟨r, hr, hfr, hpath'⟩ := hf.exists_path hpath hs.mem_states hfs
    obtain rfl := hf.injective r hr t ht.mem_states hfr
    exact ⟨s, r, hs, ht, hpath'⟩
  · obtain ⟨s, t, hs, ht, hpath⟩ := h
    exact ⟨f s, f t, hf.isEnd_iff.2 ⟨s, hs, rfl⟩, hf.isEnd_iff.2 ⟨t, ht, rfl⟩, hf.path hpath⟩

/-! ### Paths between ends -/

variable [EquivBEq L]

theorem joined_star (A : Automaton L) :
    Joined (fun p q => p ∈ A.copy.initials ∧ q ∈ A.copy.finals ∨
      p ∈ A.copy.finals ∧ q ∈ A.copy.initials) A.copy A.star :=
  (joined_fuse A.copy A.copy.initials A.copy.finals).trans (joined_fuse _ _ _)

/-- An end of either kind is one or two added steps away. -/
theorem path_star_of_isEnd (hends : A.copy.HasEnds) (hs : A.copy.IsEnd s) (hr : A.copy.IsEnd r) :
    A.star.Path s [] r := by
  have hjump := joined_star A
  obtain ⟨⟨i, hi⟩, ⟨t, ht⟩⟩ := hends
  rcases hs with hs | hs
  · rcases hr with hr | hr
    · exact (hjump.jump (.inl ⟨hs, ht⟩)).append (hjump.jump (.inr ⟨ht, hr⟩))
    · exact hjump.jump (.inl ⟨hs, hr⟩)
  · rcases hr with hr | hr
    · exact hjump.jump (.inr ⟨hs, hr⟩)
    · exact (hjump.jump (.inr ⟨hs, hi⟩)).append (hjump.jump (.inl ⟨hi, hr⟩))

/-- A path between ends is a sequence of pieces between ends. -/
theorem star_between_of_path_star (hs : A.copy.IsEnd s) (hr : A.copy.IsEnd r)
    (h : A.star.Path s w r) : (A.copy.between A.copy.IsEnd A.copy.IsEnd).star w := by
  have hpieces := (joined_star A).exists_pieces (X := A.copy.IsEnd) (Y := A.copy.IsEnd) ?_ h
  · rcases hpieces with hpath | ⟨u, v, x, rfl, ⟨p, hp, hu⟩, hv, q, hq, hx⟩
    · exact Language.star_of_mem ⟨s, r, hs, hr, hpath⟩
    · have hrest := Language.star_append_star hv (Language.star_of_mem ⟨q, r, hq, hr, hx⟩)
      exact Language.star_append ⟨s, p, hs, hp, hu⟩ hrest
  · intro p q hpq
    exact hpq.elim (fun h => ⟨.inl h.1, .inr h.2⟩) fun h => ⟨.inr h.1, .inl h.2⟩

theorem accepts_star_iff :
    A.star.Accepts w ↔ A.HasEnds ∧ (A.between A.IsEnd A.IsEnd).star w := by
  have hcopy := renaming_copy A
  have hwords : (A.between A.IsEnd A.IsEnd).star w ↔
      (A.copy.between A.copy.IsEnd A.copy.IsEnd).star w := by
    refine ⟨Language.star_mono fun u hu => ?_, Language.star_mono fun u hu => ?_⟩
    · exact Language.star_of_mem (hcopy.between_isEnd_iff.2 hu)
    · exact Language.star_of_mem (hcopy.between_isEnd_iff.1 hu)
  rw [hwords, ← hcopy.hasEnds_iff]
  refine ⟨fun h => ?_, fun h => ?_⟩
  · obtain ⟨s, hs, r, hr, hpath⟩ := h
    exact ⟨⟨⟨s, hs⟩, r, hr⟩, star_between_of_path_star (.inl hs) (.inr hr) hpath⟩
  · obtain ⟨hends, hw⟩ := h
    obtain ⟨⟨s, hs⟩, ⟨r, hr⟩⟩ := id hends
    refine ⟨s, hs, r, hr, ?_⟩
    exact (joined_star A).path_of_star (fun p q => path_star_of_isEnd hends) hw (.inl hs) (.inr hr)

/-! ### The Kleene star -/

omit [EquivBEq L] in
theorem between_isEnd_of_accepts (h : A.Accepts w) : A.between A.IsEnd A.IsEnd w := by
  obtain ⟨s, hs, r, hr, hpath⟩ := h
  exact ⟨s, r, .inl hs, .inr hr, hpath⟩

omit [EquivBEq L] in
theorem star_between_of_star_accepts (h : Language.star A.Accepts w) :
    (A.between A.IsEnd A.IsEnd).star w :=
  Language.star_mono (fun _ hu => Language.star_of_mem (between_isEnd_of_accepts hu)) h

omit [EquivBEq L] in
/-- A path that takes a step leaves its first state and enters its last one. -/
theorem Path.eq_nil_or_exists_steps (h : A.Path s w r) :
    (w = [] ∧ s = r) ∨ (∃ t ∈ A.transitions, t.source = s) ∧ ∃ t ∈ A.transitions, t.destination = r := by
  induction h using Path.step_induction with
  | nil s => exact .inl ⟨rfl, rfl⟩
  | step t v w r ht hv _ ih =>
      refine .inr ⟨⟨t, ht, rfl⟩, ?_⟩
      rcases ih with ⟨-, rfl⟩ | ⟨-, hlast⟩
      · exact ⟨t, ht, rfl⟩
      · exact hlast

omit [EquivBEq L] in
/-- In a guarded automaton a piece between ends is empty or an accepted word. -/
theorem Guarded.eq_nil_or_accepts (hguarded : A.Guarded) (h : A.between A.IsEnd A.IsEnd w) :
    w = [] ∨ A.Accepts w := by
  obtain ⟨s, r, hs, hr, hpath⟩ := h
  rcases hpath.eq_nil_or_exists_steps with ⟨hw, -⟩ | ⟨⟨t, ht, rfl⟩, t', ht', rfl⟩
  · exact .inl hw
  · have hinitial := hs.resolve_right (hguarded t ht).2
    have hfinal := hr.resolve_left (hguarded t' ht').1
    exact .inr ⟨_, hinitial, _, hfinal, hpath⟩

theorem Guarded.accepts_star_iff (hguarded : A.Guarded) :
    A.star.Accepts w ↔ A.HasEnds ∧ Language.star A.Accepts w := by
  rw [Automaton.accepts_star_iff]
  refine and_congr_right fun _ => ⟨Language.star_mono fun u hu => ?_, star_between_of_star_accepts⟩
  rcases hguarded.eq_nil_or_accepts hu with rfl | hu
  · exact Language.star_nil
  · exact Language.star_of_mem hu

/-! ### What repetition accepts -/

/-- With ends of both kinds repetition accepts the sequences of pieces between ends, among them those
of accepted words. Otherwise it accepts nothing, not even the empty word. -/
theorem accepts_star (A : Automaton L) :
    (A.HasEnds → ∀ w, A.star.accepts w = true ↔ (A.between A.IsEnd A.IsEnd).star w) ∧
      (¬ A.HasEnds → ∀ w, A.star.accepts w = false) ∧
      (A.HasEnds → ∀ w, Language.star A.Accepts w → A.star.accepts w = true) := by
  refine ⟨fun hends w => ?_, fun hnone w => ?_, fun hends w hw => ?_⟩
  · rw [accepts_iff, accepts_star_iff]
    exact and_iff_right hends
  · refine Bool.eq_false_iff.2 fun h => hnone ?_
    exact (accepts_star_iff.1 (accepts_iff.1 h)).1
  · exact accepts_iff.2 (accepts_star_iff.2 ⟨hends, star_between_of_star_accepts hw⟩)

/-- A step leaves the final state of this automaton, which accepts a one and then twos. -/
def oneThenTwos : Automaton Nat := seq (atom 1) (atom 2).star

/-- A lone two is accepted although it is no sequence of accepted words; without final states
nothing is. -/
theorem accepts_star_oneThenTwos :
    oneThenTwos.star.accepts [2] = true ∧ ¬ Language.star oneThenTwos.Accepts [2] ∧
      oneThenTwos.star.accepts [1, 2, 2, 1] = true ∧
      ∀ w, { oneThenTwos with finals := ∅ }.star.accepts w = false := by
  have hends : oneThenTwos.HasEnds := ⟨⟨0, by decide +kernel⟩, 3, by decide +kernel⟩
  have hpiece : oneThenTwos.between oneThenTwos.IsEnd oneThenTwos.IsEnd [2] := by
    refine ⟨3, 3, .inr (by decide +kernel), .inr (by decide +kernel), ?_⟩
    exact .silent (by decide +kernel)
      (.read (by decide +kernel : ⟨2, some 2, 3⟩ ∈ oneThenTwos.transitions) rfl (.nil 3))
  obtain ⟨hpieces, -, hkleene⟩ := accepts_star oneThenTwos
  refine ⟨(hpieces hends [2]).2 (Language.star_of_mem hpiece), fun h => ?_, hkleene hends _ ?_, ?_⟩
  · have haccepts := accepts_iff.2 (Language.mem_of_star_singleton h)
    have hrejects : oneThenTwos.accepts [2] = false := by decide +kernel
    exact Bool.false_ne_true (hrejects.symm.trans haccepts)
  · have hfirst : oneThenTwos.Accepts [1, 2, 2] := accepts_iff.1 (by decide +kernel)
    have hlast : oneThenTwos.Accepts [1] := accepts_iff.1 (by decide +kernel)
    exact Language.star_append hfirst (Language.star_of_mem hlast)
  · exact (accepts_star { oneThenTwos with finals := ∅ }).2.1 fun h => nomatch h.2

/-- Repetition of a guarded automaton is the Kleene star of its words if it has an initial state and a
final one, and only then. Otherwise the empty word is missing, and every other word with it. -/
theorem accepts_star_of_guarded (A : Automaton L) (hguarded : A.Guarded) :
    (∀ w, A.star.accepts w = true ↔ A.HasEnds ∧ Language.star (fun u => A.accepts u = true) w) ∧
      ((∀ w, A.star.accepts w = true ↔ Language.star (fun u => A.accepts u = true) w) ↔
        A.HasEnds) := by
  have hexact : ∀ w, A.star.accepts w = true ↔
      A.HasEnds ∧ Language.star (fun u => A.accepts u = true) w := by
    intro w
    rw [accepts_iff, hguarded.accepts_star_iff]
    exact and_congr_right fun _ => Language.star_congr fun u => accepts_iff.symm
  refine ⟨hexact, fun h => ?_, fun hends w => (hexact w).trans (and_iff_right hends)⟩
  -- The empty word is in every star, so its acceptance alone tells that there are ends.
  exact ((hexact []).1 ((h []).2 Language.star_nil)).1

/-- A one and then a two. -/
def oneTwo : Automaton Nat := seq (atom 1) (atom 2)

theorem accepts_star_of_guarded_oneTwo :
    oneTwo.Guarded ∧ oneTwo.star.accepts [1, 2, 1, 2] = true ∧ oneTwo.star.accepts [] = true ∧
      ¬ Language.star (fun u => oneTwo.accepts u = true) [2, 1] := by
  have hguarded : oneTwo.Guarded := by decide +kernel
  have hends : oneTwo.HasEnds := ⟨⟨0, by decide +kernel⟩, 3, by decide +kernel⟩
  have hkleene := (accepts_star_of_guarded oneTwo hguarded).2.2 hends
  have hpair : oneTwo.accepts [1, 2] = true := by decide +kernel
  refine ⟨hguarded, (hkleene _).2 ?_, (hkleene _).2 Language.star_nil, fun h => ?_⟩
  · exact Language.star_append (u := [1, 2]) hpair (Language.star_of_mem hpair)
  · have hrejects : oneTwo.star.accepts [2, 1] = false := by decide +kernel
    exact Bool.false_ne_true (hrejects.symm.trans ((hkleene _).2 h))

/-- An initial state, a step on a one and nothing to follow it. -/
def deadEnd : Automaton Nat := seq (atom 1) ∅

/-- Without a final state the repetition of a guarded automaton does not accept the empty word. -/
theorem not_accepts_star_deadEnd :
    deadEnd.Guarded ∧ Language.star (fun u => deadEnd.accepts u = true) [] ∧
      deadEnd.star.accepts [] = false :=
  ⟨by decide +kernel, Language.star_nil, by decide +kernel⟩

end FiniteAutomata.Automaton
