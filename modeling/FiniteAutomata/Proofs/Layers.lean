import FiniteAutomata.Search.Lemmas

/-!
# Layers of a breadth-first search

A search finds its nodes nearest first. A node that is found late could only be near if some node
close to the start had been passed over, but whatever lies outside the nodes found is reached through
a node that still waits, and the nodes that wait are at most one step farther away than those that
have been expanded. So the successors that an expansion adds are not nearer than anything before them,
and they are all equally far from the start.

Nearness is counted by chains of at most so many steps, which spares the distance of a node that no
chain reaches.
-/

namespace FiniteAutomata.Search

universe u

variable {α : Type u} [BEq α] {next : α → List α} {start : OrderedSet α} {s : Search α} {a b c : α}
  {l : List α} {n : Nat}

/-- A chain of at most `n` steps leads to the node from some node of the start. -/
def Within (next : α → List α) (start : OrderedSet α) (n : Nat) (b : α) : Prop :=
  ∃ a ∈ start, ∃ m ≤ n, Chain next m a b

theorem within_of_mem_start (ha : a ∈ start) : Within next start n a :=
  ⟨a, ha, 0, Nat.zero_le n, .nil a⟩

theorem Within.step (h : Within next start n b) (hstep : c ∈ next b) :
    Within next start (n + 1) c := by
  obtain ⟨a, ha, k, hk, hchain⟩ := h
  exact ⟨a, ha, k + 1, by omega, hchain.snoc hstep⟩

/-- The one node is not farther from the start than the other. -/
def NotAfter (next : α → List α) (start : OrderedSet α) (a b : α) : Prop :=
  ∀ n, Within next start n b → Within next start n a

/-- What a search has found is sorted by distance, and no node found is more than one step farther
away than a node that waits. -/
structure Layered (next : α → List α) (start : OrderedSet α) (s : Search α) : Prop where
  start_subset : ∀ a ∈ start, a ∈ s.found
  /-- Nodes that have been expanded have their successors among the nodes found. -/
  closed : ∀ a ∈ s.found.toList.take s.expanded, ∀ b ∈ next a, b ∈ s.found
  sorted : s.found.toList.Pairwise (NotAfter next start)
  band : ∀ a ∈ s.waiting, ∀ b ∈ s.found, ∀ n, Within next start n a → Within next start (n + 1) b

theorem layered_start (next : α → List α) (start : OrderedSet α) :
    Layered next start { found := start, expanded := 0 } where
  start_subset _ ha := ha
  closed := by simp
  sorted := by
    refine List.Pairwise.imp_of_mem (fun ha _ _ n _ => ?_) start.distinct
    exact within_of_mem_start ha
  band _ _ b hb n _ := within_of_mem_start hb

/-- An expansion adds some successors at the end of the queue. -/
theorem exists_added (next : α → List α) (hw : s.waiting = a :: l) :
    ∃ r, (s.expand next a).found.toList = s.found.toList ++ r ∧
      (s.expand next a).waiting = l ++ r := by
  obtain ⟨r, hr⟩ := OrderedSet.exists_toList_insertAll s.found (next a)
  have hlt := expanded_lt_of_waiting hw
  have hrest : s.found.toList.drop (s.expanded + 1) = l := by
    rw [← List.tail_drop]
    exact congrArg List.tail hw
  refine ⟨r, hr, ?_⟩
  rw [waiting, found_expand, expanded_expand, hr, List.drop_append_of_le_length (by omega), hrest]

/-- Of the nodes that wait, none is nearer than the first. -/
theorem Layered.notAfter_of_waiting (h : Layered next start s) (hw : s.waiting = a :: l)
    (hb : b ∈ s.waiting) : NotAfter next start a b := by
  have hqueue : (a :: l).Pairwise (NotAfter next start) := hw ▸ h.sorted.drop
  rw [hw] at hb
  rcases List.mem_cons.1 hb with rfl | hb
  · exact fun _ hn => hn
  · exact (List.pairwise_cons.1 hqueue).1 b hb

section Lawful

variable [LawfulBEq α]

/-- A chain that leaves the nodes found passes, before its end, through a node that waits. -/
theorem Layered.exists_waiting (h : Layered next start s) (ha : a ∈ start)
    (hchain : Chain next n a c) (hc : c ∉ s.found) :
    ∃ b ∈ s.waiting, ∃ m < n, Chain next m a b := by
  induction hchain with
  | nil a => exact absurd (h.start_subset a ha) hc
  | @snoc n a b c hfirst hstep ih =>
      by_cases hb : b ∈ s.found
      · have hsplit : b ∈ s.found.toList.take s.expanded ++ s.waiting := by
          rw [waiting, List.take_append_drop]
          exact hb
        rcases List.mem_append.1 hsplit with hdone | hwait
        · exact absurd (h.closed b hdone c hstep) hc
        · exact ⟨b, hwait, n, Nat.lt_succ_self n, hfirst⟩
      · obtain ⟨d, hd, m, hm, hearlier⟩ := ih ha hb
        exact ⟨d, hd, m, by omega, hearlier⟩

/-- A node not yet found is farther from the start than the node that waits first. -/
theorem Layered.within_of_not_mem (h : Layered next start s) (hw : s.waiting = a :: l)
    (hc : c ∉ s.found) (hn : Within next start n c) :
    ∃ m, n = m + 1 ∧ Within next start m a := by
  obtain ⟨i, hi, k, hk, hchain⟩ := hn
  obtain ⟨b, hb, m, hm, hearlier⟩ := h.exists_waiting hi hchain hc
  have hnear : Within next start (n - 1) b := ⟨i, hi, m, by omega, hearlier⟩
  exact ⟨n - 1, by omega, h.notAfter_of_waiting hw hb _ hnear⟩

theorem Layered.expand (h : Layered next start s) (hw : s.waiting = a :: l) :
    Layered next start (s.expand next a) := by
  obtain ⟨r, hfound, hwaiting⟩ := exists_added next hw
  have hhead : a ∈ s.waiting := hw ▸ List.mem_cons_self
  have hfresh : ∀ c ∈ r, c ∉ s.found := by
    intro c hc hold
    have hnodup := (s.expand next a).found.nodup_toList
    rw [hfound] at hnodup
    exact (List.nodup_append.1 hnodup).2.2 c hold c hc rfl
  have hnew : ∀ c ∈ r, c ∈ next a := by
    intro c hc
    have hmem : c ∈ (s.expand next a).found.toList := hfound ▸ List.mem_append_right _ hc
    exact (OrderedSet.mem_insertAll.1 hmem).resolve_left (hfresh c hc)
  -- The nodes found and the nodes added are at most one step farther away than the expanded one.
  have hband : ∀ b ∈ s.found.toList ++ r, ∀ n, Within next start n a →
      Within next start (n + 1) b := by
    intro b hb n hn
    rcases List.mem_append.1 hb with hb | hb
    · exact h.band a hhead b hb n hn
    · exact hn.step (hnew b hb)
  have hlater : ∀ b ∈ s.found.toList ++ r, ∀ c ∈ r, NotAfter next start b c := by
    intro b hb c hc n hn
    obtain ⟨m, rfl, hm⟩ := h.within_of_not_mem hw (hfresh c hc) hn
    exact hband b hb m hm
  constructor
  case start_subset =>
    intro b hb
    exact OrderedSet.mem_insertAll.2 (.inl (h.start_subset b hb))
  case closed =>
    intro b hb c hc
    rw [take_found_expand hw] at hb
    rw [found_expand, OrderedSet.mem_insertAll]
    rcases List.mem_append.1 hb with hb | hb
    · exact .inl (h.closed b hb c hc)
    · rw [List.mem_singleton.1 hb] at hc
      exact .inr hc
  case sorted =>
    rw [hfound, List.pairwise_append]
    refine ⟨h.sorted, ?_, fun b hb => hlater b (List.mem_append_left r hb)⟩
    exact List.pairwise_of_forall_mem_list fun b hb c hc => hlater b (List.mem_append_right _ hb) c hc
  case band =>
    intro b hb c hc n hn
    rw [OrderedSet.mem_iff, hfound] at hc
    rw [hwaiting] at hb
    suffices ha : Within next start n a from hband c hc n ha
    rcases List.mem_append.1 hb with hb | hb
    · have hwait : b ∈ s.waiting := hw ▸ List.mem_cons_of_mem a hb
      exact h.notAfter_of_waiting hw hwait n hn
    · have hmem : a ∈ s.found.toList ++ r :=
        List.mem_append_left r (mem_found_of_mem_waiting hhead)
      exact hlater a hmem b hb n hn

/-- A search finds its nodes nearest first, however far it is allowed to go. -/
theorem pairwise_notAfter_explore (next : α → List α) (bound : Nat) (start : OrderedSet α) :
    (explore next bound start).found.toList.Pairwise (NotAfter next start) := by
  have hlayered : Layered next start (explore next bound start) :=
    run_induction bound (fun _ _ _ hs hw => hs.expand hw) (layered_start next start)
  exact hlayered.sorted

end Lawful

end FiniteAutomata.Search
