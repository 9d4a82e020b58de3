import FiniteAutomata.Text.Escape

/-!
# Reading escaped texts

An escaped text is read from left to right, and at every place one character says how to go on. A
backslash says that the next character does not mean itself, the letter u after it that a code point
follows, and a closing brace that its digits are over. So an escaped text can be undone. A backslash
that the text itself has is escaped too, hence a text that looks like an escape is not taken for one.

Whoever looks for the end of a quoted value has less to know: it is the first quote mark that does not
stand behind a backslash of its own. An escaped text has no such mark.
-/

namespace FiniteAutomata.Escape

variable {c k : Char} {body text l m rest : List Char} {n : Nat}

/-! ### Hexadecimal digits -/

/-- The value of a hexadecimal digit. -/
def digitValue (c : Char) : Nat :=
  if c.isDigit then c.toNat - '0'.toNat else c.toNat - 'a'.toNat + 10

/-- Reads on in a hexadecimal number. -/
def readDigit (n : Nat) (c : Char) : Nat := 16 * n + digitValue c

theorem readDigit_digitChar {d : Nat} (hd : d < 16) : readDigit n d.digitChar = 16 * n + d := by
  have hvalue : ∀ d < 16, digitValue (Nat.digitChar d) = d := by decide
  rw [readDigit, hvalue d hd]

theorem foldl_readDigit_toDigits (n : Nat) : (Nat.toDigits 16 n).foldl readDigit 0 = n := by
  induction n using Nat.base_induction 16 (by decide) with
  | single d hd =>
      rw [Nat.toDigits_of_lt_base hd, List.foldl_cons, List.foldl_nil, readDigit_digitChar hd,
        Nat.mul_zero, Nat.zero_add]
  | digit n d hd hn ih =>
      rw [← Nat.toDigits_append_toDigits (by decide) hn hd, List.foldl_append, ih,
        Nat.toDigits_of_lt_base hd, List.foldl_cons, List.foldl_nil, readDigit_digitChar hd]

theorem exists_digitChar_of_mem_toDigits (h : c ∈ Nat.toDigits 16 n) :
    ∃ d < 16, c = d.digitChar := by
  induction n using Nat.base_induction 16 (by decide) with
  | single d hd =>
      rw [Nat.toDigits_of_lt_base hd, List.mem_singleton] at h
      exact ⟨d, hd, h⟩
  | digit n d hd hn ih =>
      rw [← Nat.toDigits_append_toDigits (by decide) hn hd, List.mem_append,
        Nat.toDigits_of_lt_base hd, List.mem_singleton] at h
      cases h with
      | inl h => exact ih h
      | inr h => exact ⟨d, hd, h⟩

/-! ### The forms of a character -/

/-- A visible ASCII character or a space. -/
def Printable (c : Char) : Prop := 0x20 ≤ c.toNat ∧ c.toNat ≤ 0x7e

instance (c : Char) : Decidable (Printable c) := inferInstanceAs (Decidable (_ ∧ _))

/-- A printable character that means itself between quote marks. -/
def Bare (c : Char) : Prop := Printable c ∧ c ≠ '\x22' ∧ c ≠ '\\'

instance (c : Char) : Decidable (Bare c) := inferInstanceAs (Decidable (_ ∧ _))

theorem codePoint_eq (c : Char) :
    codePoint c = '\\' :: 'u' :: ('\x7b' :: Nat.toDigits 16 c.toNat ++ ['\x7d']) := rfl

theorem bare_of_mem_toDigits (h : c ∈ Nat.toDigits 16 n) : Bare c ∧ c ≠ '\x7d' := by
  obtain ⟨d, hd, rfl⟩ := exists_digitChar_of_mem_toDigits h
  have hall : ∀ d < 16, Bare (Nat.digitChar d) ∧ Nat.digitChar d ≠ '\x7d' := by decide
  exact hall d hd

theorem bare_of_mem_braced (h : c ∈ '\x7b' :: Nat.toDigits 16 n ++ ['\x7d']) : Bare c := by
  rw [List.mem_append, List.mem_cons, List.mem_singleton] at h
  rcases h with (rfl | h) | rfl
  · decide
  · exact (bare_of_mem_toDigits h).1
  · decide

/-- What a character behind a backslash stands for. -/
def meaning (c : Char) : Char :=
  if c = 't' then '\t' else if c = 'r' then '\r' else if c = 'n' then '\n' else c

/-- A character is written behind a backslash, as it is, or by its code point. -/
theorem asciiChar_cases (c : Char) :
    (∃ k, asciiChar c = backslash k ∧ Printable k ∧ k ≠ 'u' ∧ meaning k = c) ∨
      (asciiChar c = [c] ∧ Bare c) ∨ asciiChar c = codePoint c := by
  by_cases htab : c = '\t'
  · subst htab
    exact .inl ⟨'t', by decide⟩
  by_cases hreturn : c = '\r'
  · subst hreturn
    exact .inl ⟨'r', by decide⟩
  by_cases hfeed : c = '\n'
  · subst hfeed
    exact .inl ⟨'n', by decide⟩
  by_cases hquote : c = '\x27' ∨ c = '\x22' ∨ c = '\\'
  · refine .inl ⟨c, ?_⟩
    rcases hquote with rfl | rfl | rfl <;> decide
  by_cases hprintable : 0x20 ≤ c.toNat ∧ c.toNat ≤ 0x7e
  · have hbare : Bare c :=
      ⟨hprintable, fun h => hquote (.inr (.inl h)), fun h => hquote (.inr (.inr h))⟩
    refine .inr (.inl ⟨?_, hbare⟩)
    simp only [asciiChar, if_neg htab, if_neg hreturn, if_neg hfeed, if_neg hquote,
      if_pos hprintable]
  · refine .inr (.inr ?_)
    simp only [asciiChar, if_neg htab, if_neg hreturn, if_neg hfeed, if_neg hquote,
      if_neg hprintable]

/-! ### Undoing the escapes -/

/-- What has been read of the next character of an escaped text. -/
inductive Pending where
  | nothing
  | backslash
  /-- A backslash and the letter that announces a code point. -/
  | announced
  /-- The digits of a code point, as the number they spell so far. -/
  | digits (n : Nat)

/-- The text that an escaped text stands for. -/
def unescape : Pending → List Char → List Char
  | _, [] => []
  | .nothing, c :: rest =>
    if c = '\\' then unescape .backslash rest else c :: unescape .nothing rest
  | .backslash, c :: rest =>
    if c = 'u' then unescape .announced rest else meaning c :: unescape .nothing rest
  | .announced, _ :: rest => unescape (.digits 0) rest
  | .digits n, c :: rest =>
    if c = '\x7d' then Char.ofNat n :: unescape .nothing rest
    else unescape (.digits (readDigit n c)) rest

theorem unescape_digits (h : '\x7d' ∉ l) :
    unescape (.digits n) (l ++ '\x7d' :: rest) =
      Char.ofNat (l.foldl readDigit n) :: unescape .nothing rest := by
  induction l generalizing n with
  | nil => simp [unescape]
  | cons c l ih =>
      rw [List.mem_cons, not_or] at h
      rw [List.cons_append, unescape, if_neg (Ne.symm h.1), ih h.2, List.foldl_cons]

theorem unescape_codePoint :
    unescape .nothing (codePoint c ++ rest) = c :: unescape .nothing rest := by
  have hdigits : '\x7d' ∉ Nat.toDigits 16 c.toNat := fun h => (bare_of_mem_toDigits h).2 rfl
  calc
    unescape .nothing (codePoint c ++ rest)
        = unescape (.digits 0) (Nat.toDigits 16 c.toNat ++ '\x7d' :: rest) := by
          simp [codePoint_eq, unescape]
    _ = c :: unescape .nothing rest := by
          rw [unescape_digits hdigits, foldl_readDigit_toDigits, Char.ofNat_toNat]

theorem unescape_asciiChar :
    unescape .nothing (asciiChar c ++ rest) = c :: unescape .nothing rest := by
  obtain ⟨k, hc, -, hu, hmeaning⟩ | ⟨hc, -, -, hbackslash⟩ | hc := asciiChar_cases c
  · simp [hc, backslash, unescape, hu, hmeaning]
  · simp [hc, unescape, hbackslash]
  · rw [hc, unescape_codePoint]

theorem unescape_ascii (text : List Char) : unescape .nothing (ascii text) = text := by
  induction text with
  | nil => rfl
  | cons c text ih => rw [ascii, List.flatMap_cons, unescape_asciiChar, ← ascii, ih]

/-! ### What is left in an escaped text -/

theorem printable_of_mem_asciiChar (h : k ∈ asciiChar c) : Printable k := by
  obtain ⟨b, hc, hb, -, -⟩ | ⟨hc, hb⟩ | hc := asciiChar_cases c
  · rw [hc, backslash, List.mem_cons, List.mem_singleton] at h
    rcases h with rfl | rfl
    · decide
    · exact hb
  · rw [hc, List.mem_singleton] at h
    exact h ▸ hb.1
  · rw [hc, codePoint_eq, List.mem_cons, List.mem_cons] at h
    rcases h with rfl | rfl | h
    · decide
    · decide
    · exact (bare_of_mem_braced h).1

theorem printable_of_mem_ascii (h : c ∈ ascii text) : Printable c := by
  obtain ⟨b, -, hc⟩ := List.mem_flatMap.1 h
  exact printable_of_mem_asciiChar hc

/-! ### The end of a quoted value -/

/-- A text that no quote mark ends: a backslash takes the next character with it, and every other
character is no quote mark. -/
inductive Quotable : List Char → Prop where
  | nil : Quotable []
  | bare {c : Char} {l : List Char} (hquote : c ≠ '\x22') (hbackslash : c ≠ '\\')
      (hrest : Quotable l) : Quotable (c :: l)
  | escaped {l : List Char} (c : Char) (hrest : Quotable l) : Quotable ('\\' :: c :: l)

theorem Quotable.append (hl : Quotable l) (hm : Quotable m) : Quotable (l ++ m) := by
  induction hl with
  | nil => exact hm
  | bare hquote hbackslash _ ih => exact .bare hquote hbackslash ih
  | escaped c _ ih => exact .escaped c ih

theorem quotable_of_bare (h : ∀ c ∈ l, Bare c) : Quotable l := by
  induction l with
  | nil => exact .nil
  | cons c l ih =>
      obtain ⟨hc, hrest⟩ := List.forall_mem_cons.1 h
      exact .bare hc.2.1 hc.2.2 (ih hrest)

theorem quotable_asciiChar (c : Char) : Quotable (asciiChar c) := by
  obtain ⟨k, hc, -⟩ | ⟨hc, hb⟩ | hc := asciiChar_cases c
  · rw [hc]
    exact .escaped k .nil
  · rw [hc]
    exact .bare hb.2.1 hb.2.2 .nil
  · rw [hc, codePoint_eq]
    apply Quotable.escaped
    apply quotable_of_bare
    intro k hk
    exact bare_of_mem_braced hk

theorem quotable_ascii (text : List Char) : Quotable (ascii text) := by
  induction text with
  | nil => exact .nil
  | cons c text ih => exact (quotable_asciiChar c).append ih

/-- Reads a quoted value behind its opening quote mark, and behind a backslash if so told: the value
as it is written, and what is left behind the closing mark. -/
def readQuoted : Bool → List Char → Option (List Char × List Char)
  | _, [] => none
  | true, c :: rest => (readQuoted false rest).map fun (value, rest) => (c :: value, rest)
  | false, c :: rest =>
    if c = '\x22' then some ([], rest)
    else (readQuoted (c == '\\') rest).map fun (value, rest) => (c :: value, rest)

theorem readQuoted_of_quotable (h : Quotable body) :
    readQuoted false (body ++ '\x22' :: rest) = some (body, rest) := by
  induction h with
  | nil => rfl
  | bare hquote hbackslash _ ih => simp [readQuoted, hquote, beq_false_of_ne hbackslash, ih]
  | escaped c _ ih => simp [readQuoted, ih]

end FiniteAutomata.Escape
