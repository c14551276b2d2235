import Reckoner.Text

/-!
# Scanning a text with brackets

Round and square brackets together give every character a depth: the number of
openers before it less the number of closers, which may fall below zero. Split
points and separators count only at depth zero. The closer of a square bracket is
found by counting square brackets alone.
-/

namespace Reckoner

def isOpener (c : Char) : Bool := c == '(' || c == '['

def isCloser (c : Char) : Bool := c == ')' || c == ']'

def isBracket (c : Char) : Bool := isOpener c || isCloser c

/-- The depth after a character. -/
def depthAfter (depth : Int) (c : Char) : Int :=
  if isOpener c then depth + 1 else if isCloser c then depth - 1 else depth

/-! ## Split points -/

/-- After one of these characters a `+` or `-` is the sign of what follows. -/
def isSignLead (c : Char) : Bool := ['+', '-', '*', '/', '^', '%', 'd', 'E'].contains c

/-- Whether a character splits the text, given the one before it: it is one of the
operators, and not a sign where signs are told apart. A sign at the very start
splits, with nothing before it. -/
def isSplit (operators : Text) (signed : Bool) (previous : Option Char) (c : Char) : Bool :=
  operators.contains c && !isBracket c && !(signed && previous.any isSignLead)

/-- The split points of what is left of a text, of which `index` characters have
been read. -/
def splitPointsFrom (operators : Text) (signed : Bool) (index : Nat) (depth : Int)
    (previous : Option Char) : Text → List Nat
  | [] => []
  | c :: rest =>
    let later := splitPointsFrom operators signed (index + 1) (depthAfter depth c) (some c) rest
    if depth == 0 && isSplit operators signed previous c then index :: later else later

/-- The positions at depth zero of the characters that split the text. -/
def splitPoints (operators : Text) (signed : Bool) (t : Text) : List Nat :=
  splitPointsFrom operators signed 0 0 none t

theorem mem_splitPointsFrom {operators : Text} {signed : Bool} {t : Text} {index point : Nat}
    {depth : Int} {previous : Option Char}
    (h : point ∈ splitPointsFrom operators signed index depth previous t) :
    index ≤ point ∧ point < index + t.length := by
  induction t generalizing index depth previous with
  | nil => simp [splitPointsFrom] at h
  | cons c rest ih =>
    simp only [splitPointsFrom] at h
    split at h
    · rcases List.mem_cons.mp h with rfl | h
      · simp
      · have := ih h
        simp only [List.length_cons]
        omega
    · have := ih h
      simp only [List.length_cons]
      omega

/-- Split points are positions in the text. -/
theorem lt_length_of_mem_splitPoints {operators : Text} {signed : Bool} {t : Text} {point : Nat}
    (h : point ∈ splitPoints operators signed t) : point < t.length := by
  simpa using (mem_splitPointsFrom h).2

/-! ## Separated parts -/

/-- Puts a character in front of the first part. -/
def consPart (c : Char) : List Text → List Text
  | part :: parts => (c :: part) :: parts
  | [] => [[c]]

def splitTopLevelFrom (isSeparator : Char → Bool) (depth : Int) : Text → List Text
  | [] => [[]]
  | c :: rest =>
    if isSeparator c && !isBracket c && depth == 0 then
      [] :: splitTopLevelFrom isSeparator depth rest
    else consPart c (splitTopLevelFrom isSeparator (depthAfter depth c) rest)

/-- The parts of a text between the separators at depth zero; there is always at
least one. -/
def splitTopLevel (isSeparator : Char → Bool) (t : Text) : List Text :=
  splitTopLevelFrom isSeparator 0 t

theorem consPart_ne_nil (c : Char) (parts : List Text) : consPart c parts ≠ [] := by
  cases parts <;> simp [consPart]

theorem splitTopLevelFrom_ne_nil {isSeparator : Char → Bool} (depth : Int) (t : Text) :
    splitTopLevelFrom isSeparator depth t ≠ [] := by
  cases t with
  | nil => exact List.cons_ne_nil _ _
  | cons c t =>
    rw [splitTopLevelFrom]
    split
    · exact List.cons_ne_nil _ _
    · exact consPart_ne_nil _ _

/-! ## The closer of a square bracket -/

def closingBracketFrom (index : Nat) (depth : Int) : Text → Option Nat
  | [] => none
  | c :: rest =>
    if c == '[' then closingBracketFrom (index + 1) (depth + 1) rest
    else if c == ']' then
      if depth == 1 then some index else closingBracketFrom (index + 1) (depth - 1) rest
    else closingBracketFrom (index + 1) depth rest

/-- The position of the first `]` that brings the count of square brackets back
to zero. For a text that starts with `[` that is the closer of this bracket. -/
def closingBracket (t : Text) : Option Nat := closingBracketFrom 0 0 t

end Reckoner
