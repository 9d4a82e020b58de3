import FiniteAutomata.Text.Escape

/-!
# Labels

What a label type has to offer so that automata over it can be written down: a plain text for
people, and a literal that shows its kind. The types here are integers, characters, texts, texts
compared without regard to the case of ASCII letters, and optional integers.
-/

namespace FiniteAutomata

universe u

/-- Label types that can be written down. -/
class Label (L : Type u) where
  text : L → String
  /-- The label as a literal, quoted where its kind is. -/
  literal : L → String

instance : Label Int where
  text n := toString n
  literal n := toString n

instance : Label Char where
  text c := String.singleton c
  literal c := String.ofList (Escape.literal '\x27' [c])

instance : Label String where
  text s := s
  literal s := String.ofList (Escape.literal '\x22' s.toList)

/-- A text that counts as equal to another when they differ at most in the case of ASCII letters. -/
structure CaselessText where
  spelling : String
deriving Repr

namespace CaselessText

/-- What is compared: the text with its ASCII letters in lower case. -/
def key (t : CaselessText) : String := t.spelling.toLower

instance : BEq CaselessText := ⟨fun s t => s.key == t.key⟩

theorem beq_iff {s t : CaselessText} : (s == t) = true ↔ s.key = t.key :=
  beq_iff_eq (a := s.key)

instance : EquivBEq CaselessText where
  rfl := beq_iff.2 rfl
  symm h := beq_iff.2 (beq_iff.1 h).symm
  trans h h' := beq_iff.2 ((beq_iff.1 h).trans (beq_iff.1 h'))

instance : Label CaselessText where
  text t := t.spelling
  literal t := Label.literal t.spelling

end CaselessText

/-- An optional integer is a label like any other. An absent integer is a label too, and no silent
step. -/
instance : Label (Option Int) where
  text
    | none => "none"
    | some n => "some(" ++ toString n ++ ")"
  literal
    | none => "None"
    | some n => "Some(" ++ toString n ++ ")"

end FiniteAutomata
