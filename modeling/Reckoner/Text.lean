/-!
# Text

Expressions are cut, spliced and scanned character by character, so the library
works on lists of characters and turns them into strings only to show them.
Positions and lengths count characters.
-/

namespace Reckoner

abbrev Text := List Char

/-- What holds of all characters of a text is decided along the text. -/
instance (priority := 2000) Text.decidableForallMem (p : Char → Prop) [DecidablePred p] (t : Text) :
    Decidable (∀ c ∈ t, p c) := List.decidableBAll p t

instance (priority := 2000) Text.decidableExistsMem (p : Char → Prop) [DecidablePred p] (t : Text) :
    Decidable (∃ c ∈ t, p c) := List.decidableBEx p t

namespace Text

def ofString (s : String) : Text := s.toList

def toString (t : Text) : String := String.ofList t

/-- The text between apostrophes, as messages quote it. -/
def quoted (t : Text) : String := s!"'{t.toString}'"

/-- Puts `separator` between the parts. -/
def join (separator : Text) (parts : List Text) : Text := List.intercalate separator parts

end Text

end Reckoner
