import FiniteAutomata.OrderedSet.Basic

/-!
# Lemmas about ordered sets

Every operation is described by the list of elements it leaves. Where `==` is equality, membership
and `contains` agree and insertion adds exactly the inserted elements.
-/

namespace FiniteAutomata.OrderedSet

universe u v

variable {α : Type u} [BEq α] {s : OrderedSet α} {a b : α} {l : List α}

theorem mem_iff : a ∈ s ↔ a ∈ s.toList := Iff.rfl

@[simp] theorem toList_empty : (∅ : OrderedSet α).toList = [] := rfl

@[simp] theorem toList_filter {p : α → Bool} : (s.filter p).toList = s.toList.filter p := rfl

theorem isEmpty_eq_false_iff : s.isEmpty = false ↔ ∃ a, a ∈ s := by
  rw [isEmpty, List.isEmpty_eq_false_iff_exists_mem]
  rfl

@[simp] theorem insertAll_nil : s.insertAll [] = s := rfl

@[simp] theorem insertAll_cons : s.insertAll (a :: l) = (s.insert a).insertAll l := rfl

theorem insertAll_append {l₁ l₂ : List α} :
    s.insertAll (l₁ ++ l₂) = (s.insertAll l₁).insertAll l₂ :=
  List.foldl_append

theorem insert_of_contains (h : s.contains a = true) : s.insert a = s := by
  simp [insert, h]

theorem toList_insert_of_not_contains (h : s.contains a = false) :
    (s.insert a).toList = s.toList ++ [a] := by
  simp [insert, h]

/-- Inserting never moves or drops what is there. -/
theorem exists_toList_insert (s : OrderedSet α) (a : α) :
    ∃ r, (s.insert a).toList = s.toList ++ r := by
  cases h : s.contains a with
  | true => exact ⟨[], by simp [insert_of_contains h]⟩
  | false => exact ⟨[a], toList_insert_of_not_contains h⟩

theorem exists_toList_insertAll (s : OrderedSet α) (l : List α) :
    ∃ r, (s.insertAll l).toList = s.toList ++ r := by
  induction l generalizing s with
  | nil => exact ⟨[], by simp⟩
  | cons a l ih =>
      obtain ⟨r, hr⟩ := exists_toList_insert s a
      obtain ⟨r', hr'⟩ := ih (s.insert a)
      exact ⟨r ++ r', by rw [insertAll_cons, hr', hr, List.append_assoc]⟩

theorem contains_insert_of_contains (h : s.contains a = true) : (s.insert b).contains a = true := by
  obtain ⟨r, hr⟩ := exists_toList_insert s b
  rw [contains, hr, List.any_append, Bool.or_eq_true]
  exact .inl h

/-- What is there already is not inserted. -/
theorem insertAll_of_contains (h : ∀ b ∈ l, s.contains b = true) : s.insertAll l = s := by
  induction l with
  | nil => rfl
  | cons a l ih =>
      obtain ⟨ha, hrest⟩ := List.forall_mem_cons.1 h
      rw [insertAll_cons, insert_of_contains ha, ih hrest]

/-- An element that is there may be inserted again before each of the others. -/
theorem insertAll_flatMap_pair (h : s.contains a = true) :
    s.insertAll (l.flatMap fun b => [a, b]) = s.insertAll l := by
  induction l generalizing s with
  | nil => rfl
  | cons b l ih =>
      rw [List.flatMap_cons, insertAll_append, insertAll_cons, insert_of_contains h, insertAll_cons,
        insertAll_nil, ih (contains_insert_of_contains h), insertAll_cons]

theorem size_insertAll_le (s : OrderedSet α) (l : List α) :
    (s.insertAll l).size ≤ s.size + l.length := by
  induction l generalizing s with
  | nil => exact Nat.le_refl _
  | cons a l ih =>
      have hinsert : (s.insert a).size ≤ s.size + 1 := by
        cases h : s.contains a with
        | true => simp [insert_of_contains h]
        | false => simp [size, toList_insert_of_not_contains h]
      have hrest := ih (s.insert a)
      rw [insertAll_cons, List.length_cons]
      omega

theorem size_ofList_le (l : List α) : (ofList l).size ≤ l.length := by
  simpa [ofList, size] using size_insertAll_le ∅ l

/-- Nothing is in the result that was not there or inserted. -/
theorem mem_or_mem_of_mem_insertAll (h : b ∈ s.insertAll l) : b ∈ s ∨ b ∈ l := by
  induction l generalizing s with
  | nil => exact .inl h
  | cons a l ih =>
      rcases ih h with hb | hb
      · cases hc : s.contains a with
        | true => exact .inl (insert_of_contains hc ▸ hb)
        | false =>
            rw [mem_iff, toList_insert_of_not_contains hc] at hb
            refine (List.mem_append.1 hb).imp_right fun hb => ?_
            rw [List.mem_singleton.1 hb]
            exact List.mem_cons_self
      · exact .inr (List.mem_cons_of_mem a hb)

theorem mem_of_mem_ofList (h : b ∈ ofList l) : b ∈ l :=
  (mem_or_mem_of_mem_insertAll h).resolve_left List.not_mem_nil

/-- A list whose elements are new and pairwise different is appended as it stands. -/
theorem toList_insertAll_of_distinct
    (h : (s.toList ++ l).Pairwise fun a b => (a == b) = false) :
    (s.insertAll l).toList = s.toList ++ l := by
  induction l generalizing s with
  | nil => simp
  | cons a l ih =>
      have hfresh : s.contains a = false :=
        contains_eq_false_iff.2 fun b hb => (List.pairwise_append.1 h).2.2 b hb a (by simp)
      have hinsert := toList_insert_of_not_contains hfresh
      rw [insertAll_cons, ih, hinsert, List.append_assoc, List.singleton_append]
      rwa [hinsert, List.append_assoc, List.singleton_append]

theorem toList_ofList_of_distinct (h : l.Pairwise fun a b => (a == b) = false) :
    (ofList l).toList = l :=
  toList_insertAll_of_distinct (by simpa using h)

@[simp] theorem ofList_toList (s : OrderedSet α) : ofList s.toList = s :=
  OrderedSet.ext (toList_ofList_of_distinct s.distinct)

/-- A map that keeps different elements apart changes neither their number nor their order. -/
theorem toList_map_of_distinct {β : Type v} [BEq β] {f : α → β}
    (h : ∀ a ∈ s, ∀ b ∈ s, (f a == f b) = true → (a == b) = true) :
    (s.map f).toList = s.toList.map f := by
  refine toList_ofList_of_distinct (List.pairwise_map.2 ?_)
  refine s.distinct.imp_of_mem fun {a b} ha hb hne => Bool.eq_false_iff.2 fun heq => ?_
  exact Bool.eq_false_iff.1 hne (h a ha b hb heq)

@[simp] theorem mem_filter {p : α → Bool} : a ∈ s.filter p ↔ a ∈ s ∧ p a = true := by
  simp [mem_iff]

/-- Up to `==`, inserting adds the inserted element and nothing else. -/
theorem contains_insert [EquivBEq α] : (s.insert b).contains a = (s.contains a || b == a) := by
  cases h : s.contains b with
  | false => simp [contains, toList_insert_of_not_contains h]
  | true =>
      rw [insert_of_contains h]
      cases hab : b == a with
      | false => simp
      | true =>
          obtain ⟨c, hc, hcb⟩ := List.any_eq_true.1 h
          simpa [contains] using ⟨c, hc, PartialEquivBEq.trans hcb hab⟩

/-- A set of images has an element when the set of the originals has one. -/
theorem exists_mem_iff_of_image {β : Type v} [BEq β] {f : β → α} {t : OrderedSet β}
    (h : ∀ b, b ∈ s ↔ ∃ a ∈ t, f a = b) : (∃ b, b ∈ s) ↔ ∃ a, a ∈ t := by
  constructor
  · rintro ⟨b, hb⟩
    obtain ⟨a, ha, -⟩ := (h b).1 hb
    exact ⟨a, ha⟩
  · rintro ⟨a, ha⟩
    exact ⟨f a, (h (f a)).2 ⟨a, ha, rfl⟩⟩

theorem contains_iff_exists : s.contains a = true ↔ ∃ b ∈ s, (b == a) = true :=
  List.any_eq_true

theorem contains_of_mem [ReflBEq α] (h : a ∈ s) : s.contains a = true :=
  contains_iff_exists.2 ⟨a, h, BEq.rfl⟩

theorem insertAll_of_mem [ReflBEq α] (h : ∀ b ∈ l, b ∈ s) : s.insertAll l = s :=
  insertAll_of_contains fun b hb => contains_of_mem (h b hb)

theorem contains_insertAll [EquivBEq α] :
    (s.insertAll l).contains a = (s.contains a || l.any (· == a)) := by
  induction l generalizing s with
  | nil => simp
  | cons b l ih => rw [insertAll_cons, ih, contains_insert, List.any_cons, Bool.or_assoc]

/-- An element of a list equals one that the set of the list has kept. -/
theorem contains_ofList [EquivBEq α] (h : a ∈ l) : (ofList l).contains a = true := by
  rw [ofList, contains_insertAll, Bool.or_eq_true]
  exact .inr (List.any_eq_true.2 ⟨a, h, BEq.rfl⟩)

theorem nodup_toList [ReflBEq α] (s : OrderedSet α) : s.toList.Nodup :=
  s.distinct.imp fun h heq => by simp [heq] at h

omit [BEq α] in
/-- Related elements of a list without two of them are one element. -/
theorem eq_of_pairwise_not {R : α → α → Prop} (hsymm : ∀ a b, R a b → R b a)
    (hl : l.Pairwise fun a b => ¬ R a b) (ha : a ∈ l) (hb : b ∈ l) (h : R a b) : a = b := by
  have hright : l.Pairwise fun a b => R a b → a = b := hl.imp fun hne h => absurd h hne
  have hleft : l.Pairwise (flip fun a b => R a b → a = b) :=
    hl.imp fun hne h => absurd (hsymm _ _ h) hne
  exact List.Pairwise.forall_of_forall_of_flip (fun _ _ _ => rfl) hright hleft ha hb h

/-- Equal elements of a set are one element. -/
theorem eq_of_beq_of_mem [EquivBEq α] (ha : a ∈ s) (hb : b ∈ s) (h : (a == b) = true) : a = b :=
  eq_of_pairwise_not (fun _ _ => BEq.symm) (s.distinct.imp Bool.eq_false_iff.1) ha hb h

section Lawful

variable [LawfulBEq α]

@[simp] theorem contains_iff : s.contains a = true ↔ a ∈ s := by
  simp [contains, mem_iff]

@[simp] theorem mem_insert : b ∈ s.insert a ↔ b ∈ s ∨ b = a := by
  cases h : s.contains a with
  | true =>
      rw [insert_of_contains h]
      exact ⟨Or.inl, fun hb => hb.elim id fun heq => heq ▸ contains_iff.1 h⟩
  | false => simp [mem_iff, toList_insert_of_not_contains h]

@[simp] theorem mem_insertAll : b ∈ s.insertAll l ↔ b ∈ s ∨ b ∈ l := by
  induction l generalizing s with
  | nil => simp
  | cons a l ih => simp [ih, or_assoc]

@[simp] theorem mem_ofList : b ∈ ofList l ↔ b ∈ l := by
  rw [ofList, mem_insertAll]
  simp [mem_iff]

/-- Inserting a list appends its new elements, each where it first occurs. -/
theorem toList_insertAll_eq_append_eraseDups (s : OrderedSet α) (l : List α) :
    (s.insertAll l).toList = s.toList ++ (l.filter (!s.contains ·)).eraseDups := by
  induction l generalizing s with
  | nil => simp
  | cons a l ih =>
      rw [insertAll_cons, ih]
      cases h : s.contains a with
      | true => simp [insert_of_contains h, h]
      | false =>
          have hrest : l.filter (!(s.insert a).contains ·) =
              (l.filter (!s.contains ·)).filter (!· == a) := by
            rw [List.filter_filter]
            apply List.filter_congr
            intro b _
            rw [contains_insert, Bool.not_or, Bool.and_comm, BEq.comm]
          simp [toList_insert_of_not_contains h, h, List.eraseDups_cons, hrest]

theorem toList_ofList_eq_eraseDups (l : List α) : (ofList l).toList = l.eraseDups := by
  have hnew : l.filter (!(∅ : OrderedSet α).contains ·) = l := List.filter_eq_self.2 fun _ _ => rfl
  rw [ofList, toList_insertAll_eq_append_eraseDups, hnew, toList_empty, List.nil_append]

/-- Elements that are there may be inserted again, each before every new one. -/
theorem insertAll_pairs_left {m : List α} (hl : ∀ a ∈ l, a ∈ s) :
    (s.insertAll (l.flatMap fun a => m.flatMap fun b => [a, b])).insertAll m = s.insertAll m := by
  cases l with
  | nil => rfl
  | cons a l =>
      -- The pairs of `a` bring all of `m`, in its order, and the other pairs nothing.
      have hfirst : s.insertAll (m.flatMap fun b => [a, b]) = s.insertAll m :=
        insertAll_flatMap_pair (contains_iff.2 (hl a List.mem_cons_self))
      have hrest : ∀ c ∈ l.flatMap fun a => m.flatMap fun b => [a, b], c ∈ s.insertAll m := by
        intro c hc
        simp only [List.mem_flatMap, List.mem_cons, List.not_mem_nil, or_false] at hc
        obtain ⟨a', ha', b, hb, rfl | rfl⟩ := hc
        · exact mem_insertAll.2 (.inl (hl c (List.mem_cons_of_mem a ha')))
        · exact mem_insertAll.2 (.inr hb)
      rw [List.flatMap_cons, insertAll_append, hfirst, insertAll_of_mem hrest]
      exact insertAll_of_mem fun b hb => mem_insertAll.2 (.inr hb)

theorem insertAll_flatMap_pair_left (ha : a ∈ l) (hl : ∀ c ∈ l, c ∈ s) :
    s.insertAll (l.flatMap fun c => [b, c]) = s.insert b := by
  have hmem : ∀ d ∈ l.flatMap fun c => [b, c], d ∈ s.insert b := by
    intro d hd
    simp only [List.mem_flatMap, List.mem_cons, List.not_mem_nil, or_false] at hd
    obtain ⟨c, hc, rfl | rfl⟩ := hd
    · exact mem_insert.2 (.inr rfl)
    · exact mem_insert.2 (.inl (hl d hc))
  cases l with
  | nil => cases ha
  | cons c l =>
      rw [List.flatMap_cons, List.cons_append, insertAll_cons]
      exact insertAll_of_mem fun d hd => hmem d (List.mem_cons_of_mem b hd)

/-- Elements that are there may be inserted again, all of them after every new one. -/
theorem insertAll_pairs_right {m : List α} (hl : ∀ a ∈ l, a ∈ s) :
    (s.insertAll (m.flatMap fun b => l.flatMap fun a => [b, a])).insertAll m = s.insertAll m := by
  cases l with
  | nil =>
      have hnone : (m.flatMap fun b => ([] : List α).flatMap fun a => [b, a]) = [] := by
        exact List.flatMap_eq_nil_iff.2 fun _ _ => rfl
      rw [hnone, insertAll_nil]
  | cons a l =>
      have hpairs : s.insertAll (m.flatMap fun b => (a :: l).flatMap fun a => [b, a]) =
          s.insertAll m := by
        induction m generalizing s with
        | nil => rfl
        | cons b m ih =>
            rw [List.flatMap_cons, insertAll_append, insertAll_cons,
              insertAll_flatMap_pair_left List.mem_cons_self hl]
            exact ih fun c hc => mem_insert.2 (.inl (hl c hc))
      rw [hpairs]
      exact insertAll_of_mem fun b hb => mem_insertAll.2 (.inr hb)

theorem mem_map {β : Type v} [BEq β] {f : β → α} {t : OrderedSet β} :
    b ∈ t.map f ↔ ∃ a ∈ t, f a = b := by
  rw [map, mem_ofList, List.mem_map]
  rfl

theorem meets_iff {t : OrderedSet α} : s.meets t = true ↔ ∃ a ∈ s, a ∈ t := by
  simp [meets, mem_iff]

/-- A list without repetitions that has the elements of the set has them in some order. -/
theorem perm_of_mem_iff (hl : l.Nodup) (h : ∀ a, a ∈ s ↔ a ∈ l) : s.toList.Perm l :=
  (List.perm_ext_iff_of_nodup s.nodup_toList hl).2 h

theorem size_le_one_iff : s.size ≤ 1 ↔ ∀ a ∈ s, ∀ b ∈ s, a = b := by
  constructor
  · intro h a ha b hb
    rw [mem_iff] at ha hb
    match hl : s.toList with
    | [] => simp [hl] at ha
    | [c] =>
        rw [hl, List.mem_singleton] at ha hb
        rw [ha, hb]
    | _ :: _ :: _ => simp [size, hl] at h
  · intro h
    cases hl : s.toList with
    | nil => simp [size, hl]
    | cons a l =>
        have ha : a ∈ s := by simp [mem_iff, hl]
        have hsubset : s.toList ⊆ [a] := fun b hb => by simp [h b hb a ha]
        exact s.nodup_toList.length_le_of_subset hsubset

/-- Images under a map that keeps different elements apart are as many as the elements. -/
theorem size_eq_of_mem_iff_image {β : Type v} [BEq β] [LawfulBEq β] {f : β → α} {t : OrderedSet β}
    (hinj : ∀ a ∈ t, ∀ b ∈ t, f a = f b → a = b) (h : ∀ b, b ∈ s ↔ ∃ a ∈ t, f a = b) :
    s.size = t.size := by
  have hmap : (t.map f).toList = t.toList.map f :=
    toList_map_of_distinct fun a ha b hb heq => beq_iff_eq.2 (hinj a ha b hb (beq_iff_eq.1 heq))
  have hperm := perm_of_mem_iff (t.map f).nodup_toList fun b => (h b).trans mem_map.symm
  rw [size, hperm.length_eq, hmap, List.length_map, size]

end Lawful

end FiniteAutomata.OrderedSet
