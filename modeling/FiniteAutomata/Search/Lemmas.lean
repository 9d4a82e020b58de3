import FiniteAutomata.Search.Basic

/-!
# What a search finds

A search whose bound its graph cannot exceed finds exactly the nodes that chains of successors reach
from its start. It keeps the start in front, never finds a node twice, and expands every node it
finds. The finite universe in the statements is what makes a bound sufficient: the nodes found are
different members of it.
-/

namespace FiniteAutomata.Search

universe u

variable {α : Type u} [BEq α] {next : α → List α} {s : Search α} {a b c : α}

/-- A chain of the given number of steps from a node to a successor of a successor, and so on. -/
inductive Chain (next : α → List α) : Nat → α → α → Prop where
  | nil (a : α) : Chain next 0 a a
  | snoc {n : Nat} {a b c : α} (hchain : Chain next n a b) (hstep : c ∈ next b) :
      Chain next (n + 1) a c

omit [BEq α] in
/-- A chain may grow at its front as well. -/
theorem Chain.cons {n : Nat} (hstep : b ∈ next a) (hchain : Chain next n b c) :
    Chain next (n + 1) a c := by
  induction hchain with
  | nil b => exact .snoc (.nil a) hstep
  | snoc _ hlast ih => exact .snoc (ih hstep) hlast

@[simp] theorem found_expand : (s.expand next a).found = s.found.insertAll (next a) := rfl

@[simp] theorem expanded_expand : (s.expand next a).expanded = s.expanded + 1 := rfl

theorem waiting_eq_nil_iff : s.waiting = [] ↔ s.found.size ≤ s.expanded := by
  simp [waiting, OrderedSet.size]

theorem mem_found_of_mem_waiting (h : a ∈ s.waiting) : a ∈ s.found :=
  List.mem_of_mem_drop h

theorem run_succ_of_waiting {n : Nat} {l : List α} (h : s.waiting = a :: l) :
    run next (n + 1) s = run next n (s.expand next a) := by
  simp [run, h]

theorem run_of_waiting_eq_nil {n : Nat} (h : s.waiting = []) : run next n s = s := by
  cases n <;> simp [run, h]

/-- The nodes found stay in their places. -/
theorem exists_toList_run (next : α → List α) (n : Nat) (s : Search α) :
    ∃ l, (run next n s).found.toList = s.found.toList ++ l := by
  induction n generalizing s with
  | zero => exact ⟨[], by simp [run]⟩
  | succ n ih =>
      cases hw : s.waiting with
      | nil => exact ⟨[], by simp [run_of_waiting_eq_nil hw]⟩
      | cons a l =>
          obtain ⟨l₁, h₁⟩ := OrderedSet.exists_toList_insertAll s.found (next a)
          obtain ⟨l₂, h₂⟩ := ih (s.expand next a)
          refine ⟨l₁ ++ l₂, ?_⟩
          rw [run_succ_of_waiting hw, h₂, ← List.append_assoc]
          exact congrArg (· ++ l₂) h₁

theorem start_isPrefix_explore (next : α → List α) (bound : Nat) (start : OrderedSet α) :
    start.toList <+: (explore next bound start).found.toList := by
  obtain ⟨l, hl⟩ := exists_toList_run next bound { found := start, expanded := 0 }
  exact ⟨l, hl.symm⟩

/-- A property that every step keeps holds of the result. -/
theorem run_induction {P : Search α → Prop} (n : Nat)
    (hstep : ∀ s a l, P s → s.waiting = a :: l → P (s.expand next a)) (hs : P s) :
    P (run next n s) := by
  induction n generalizing s with
  | zero => exact hs
  | succ n ih =>
      cases hw : s.waiting with
      | nil => rwa [run_of_waiting_eq_nil hw]
      | cons a l =>
          rw [run_succ_of_waiting hw]
          exact ih (hstep s a l hs hw)

/-- A search that still waits has made as many expansions as it was allowed. -/
theorem expanded_run (next : α → List α) (n : Nat) (s : Search α) :
    (run next n s).waiting = [] ∨ (run next n s).expanded = s.expanded + n := by
  induction n generalizing s with
  | zero => exact .inr rfl
  | succ n ih =>
      cases hw : s.waiting with
      | nil => exact .inl (by rw [run_of_waiting_eq_nil hw, hw])
      | cons a l =>
          rw [run_succ_of_waiting hw]
          refine (ih (s.expand next a)).imp_right fun h => ?_
          rw [h, expanded_expand]
          omega

/-- A larger bound changes nothing once no node waits. -/
theorem run_eq_run_of_waiting {m n : Nat} (hm : (run next m s).waiting = [])
    (hn : (run next n s).waiting = []) : run next m s = run next n s := by
  induction m generalizing n s with
  | zero => exact (run_of_waiting_eq_nil (s := s) hm).symm
  | succ m ih =>
      cases hw : s.waiting with
      | nil => rw [run_of_waiting_eq_nil hw, run_of_waiting_eq_nil hw]
      | cons a l =>
          rw [run_succ_of_waiting hw] at hm ⊢
          cases n with
          | zero =>
              rw [run, hw] at hn
              cases hn
          | succ n =>
              rw [run_succ_of_waiting hw] at hn ⊢
              exact ih hm hn

theorem expanded_lt_of_waiting {l : List α} (hw : s.waiting = a :: l) :
    s.expanded < s.found.toList.length := by
  refine Nat.lt_of_not_le fun h => ?_
  rw [waiting_eq_nil_iff.2 h] at hw
  cases hw

/-- The node that waits first joins those that have been expanded. -/
theorem take_found_expand {l : List α} (hw : s.waiting = a :: l) :
    (s.expand next a).found.toList.take (s.expand next a).expanded =
      s.found.toList.take s.expanded ++ [a] := by
  have hlt := expanded_lt_of_waiting hw
  have hget : s.found.toList[s.expanded] = a := by
    have hdrop := List.drop_eq_getElem_cons hlt
    rw [show s.found.toList.drop s.expanded = a :: l from hw] at hdrop
    exact (List.cons.inj hdrop).1.symm
  obtain ⟨r, hr⟩ := OrderedSet.exists_toList_insertAll s.found (next a)
  rw [found_expand, expanded_expand, hr, List.take_append_of_le_length (by omega),
    List.take_succ_eq_append_getElem hlt, hget]

/-- What is found at any time is mentioned, in the order in which it is found, by the edges out of the
nodes that have been expanded, each source before its target. -/
theorem found_explore_eq_insertAll_take [ReflBEq α] (next : α → List α) (n : Nat)
    (start : OrderedSet α) :
    (explore next n start).found = start.insertAll
      (((explore next n start).found.toList.take (explore next n start).expanded).flatMap
        fun a => (next a).flatMap fun b => [a, b]) := by
  refine run_induction (P := fun s => s.found = start.insertAll
    ((s.found.toList.take s.expanded).flatMap fun a => (next a).flatMap fun b => [a, b])) n ?_ ?_
  · intro s a l hs hw
    have hmem : s.found.contains a = true := by
      apply OrderedSet.contains_of_mem
      exact mem_found_of_mem_waiting (hw ▸ List.mem_cons_self)
    rw [take_found_expand hw, List.flatMap_append, OrderedSet.insertAll_append, ← hs,
      List.flatMap_singleton, OrderedSet.insertAll_flatMap_pair hmem, found_expand]
  · simp

/-- A search whose start no step leaves finds nothing else. -/
theorem found_explore_of_closed [ReflBEq α] {start : OrderedSet α} {bound : Nat}
    (h : ∀ a ∈ start, ∀ b ∈ next a, b ∈ start) : (explore next bound start).found = start := by
  refine run_induction (P := fun s => s.found = start) bound ?_ rfl
  intro s a l hs hw
  have ha : a ∈ start := hs ▸ mem_found_of_mem_waiting (hw ▸ List.mem_cons_self)
  rw [found_expand, hs]
  exact OrderedSet.insertAll_of_mem (h a ha)

section Lawful

variable [LawfulBEq α] {start : OrderedSet α} {bound : Nat} {U : List α}

/-- Nothing is found outside a universe that no step leaves. -/
theorem mem_universe_of_mem_run (n : Nat) (hs : ∀ a ∈ s.found, a ∈ U)
    (hnext : ∀ a ∈ U, ∀ b ∈ next a, b ∈ U) : ∀ a ∈ (run next n s).found, a ∈ U := by
  refine run_induction (P := fun s => ∀ a ∈ s.found, a ∈ U) n (fun s a l hs hw b hb => ?_) hs
  rcases OrderedSet.mem_insertAll.1 hb with hb | hb
  · exact hs b hb
  · exact hnext a (hs a (mem_found_of_mem_waiting (hw ▸ List.mem_cons_self))) b hb

/-- A search comes to an end when its bound is the size of such a universe. -/
theorem waiting_explore (hstart : ∀ a ∈ start, a ∈ U) (hnext : ∀ a ∈ U, ∀ b ∈ next a, b ∈ U)
    (hbound : U.length ≤ bound) : (explore next bound start).waiting = [] := by
  rcases expanded_run next bound { found := start, expanded := 0 } with h | h
  · exact h
  · have hsub := mem_universe_of_mem_run (s := { found := start, expanded := 0 }) bound hstart hnext
    have hsize : (explore next bound start).found.size ≤ U.length :=
      (OrderedSet.nodup_toList _).length_le_of_subset fun a ha => hsub a ha
    refine waiting_eq_nil_iff.2 ?_
    have hexpanded : (explore next bound start).expanded = bound := by
      rw [explore, h, Nat.zero_add]
    omega

/-- What a search has expanded has its successors among the nodes found. -/
theorem next_subset_run (next : α → List α) (n : Nat) (s : Search α)
    (hs : ∀ a ∈ s.found.toList.take s.expanded, ∀ b ∈ next a, b ∈ s.found) :
    ∀ a ∈ (run next n s).found.toList.take (run next n s).expanded,
      ∀ b ∈ next a, b ∈ (run next n s).found := by
  refine run_induction (P := fun s =>
    ∀ a ∈ s.found.toList.take s.expanded, ∀ b ∈ next a, b ∈ s.found) n ?_ hs
  intro s a l hs hw b hb c hc
  rw [take_found_expand hw] at hb
  refine OrderedSet.mem_insertAll.2 ?_
  rcases List.mem_append.1 hb with hb | hb
  · exact .inl (hs b hb c hc)
  · rw [List.mem_singleton] at hb
    exact .inr (hb ▸ hc)

/-- The edges out of the nodes found, each source before its target, mention these nodes in the order
in which they are found. -/
theorem found_explore_eq_insertAll (hend : (explore next bound start).waiting = []) :
    (explore next bound start).found = start.insertAll
      ((explore next bound start).found.toList.flatMap fun a => (next a).flatMap fun b => [a, b]) := by
  have hrun := found_explore_eq_insertAll_take next bound start
  rwa [List.take_of_length_le (waiting_eq_nil_iff.1 hend)] at hrun

/-- A search finds exactly what chains of successors reach. -/
theorem mem_explore (hstart : ∀ a ∈ start, a ∈ U) (hnext : ∀ a ∈ U, ∀ b ∈ next a, b ∈ U)
    (hbound : U.length ≤ bound) :
    b ∈ (explore next bound start).found ↔ ∃ a ∈ start, ∃ n, Chain next n a b := by
  constructor
  · have hinv : ∀ b ∈ (explore next bound start).found, ∃ a ∈ start, ∃ n, Chain next n a b := by
      refine run_induction (P := fun s => ∀ b ∈ s.found, ∃ a ∈ start, ∃ n, Chain next n a b) bound
        (fun s a l hs hw b hb => ?_) fun b hb => ⟨b, hb, 0, .nil b⟩
      rcases OrderedSet.mem_insertAll.1 hb with hb | hb
      · exact hs b hb
      · obtain ⟨i, hi, n, hchain⟩ := hs a (mem_found_of_mem_waiting (hw ▸ List.mem_cons_self))
        exact ⟨i, hi, n + 1, .snoc hchain hb⟩
    exact hinv b
  · rintro ⟨a, ha, n, hchain⟩
    have hend := waiting_explore hstart hnext hbound
    have hclosed := next_subset_run next bound { found := start, expanded := 0 } (by simp)
    have hall : (explore next bound start).found.toList.take (explore next bound start).expanded =
        (explore next bound start).found.toList :=
      List.take_of_length_le (waiting_eq_nil_iff.1 hend)
    induction hchain with
    | nil a => exact (start_isPrefix_explore next bound start).subset ha
    | snoc _ hstep ih => exact hclosed _ (hall.symm ▸ ih ha) _ hstep

end Lawful

end FiniteAutomata.Search
