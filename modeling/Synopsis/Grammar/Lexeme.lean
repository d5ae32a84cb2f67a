import Synopsis.Text.Blank

/-!
# Lexemes of a usage text

The words and marks that a usage is written with, each as the text that it takes from the start of
the remaining characters. A lexeme that is not there takes nothing.
-/

namespace Synopsis

namespace Lexeme

/-- A character that satisfies `head`, and those after it that satisfy `tail`. -/
def leading (head tail : Char → Bool) : List Char → List Char
  | [] => []
  | c :: cs => if head c then c :: cs.takeWhile tail else []

/-- What is taken stands at the start of the remaining characters. -/
theorem leading_prefix (head tail : Char → Bool) (cs : List Char) :
    leading head tail cs <+: cs := by
  cases cs with
  | nil => exact List.nil_prefix
  | cons c cs =>
    rw [leading]
    split
    · exact (List.prefix_cons_inj c).2 <| List.takeWhile_prefix tail
    · exact List.nil_prefix

/-- A word that stands for itself: lower case, with digits, `_` and `-` after the first letter. -/
def word : List Char → List Char :=
  leading Char.isLower fun c => c.isLower || c.isDigit || c = '_' || c = '-'

/-- The identifier of a type, well formed or not. -/
def identifier : List Char → List Char :=
  leading Char.isUpper fun c => c.isAlphanum || c = '_'

/-- What follows the hyphens of an option. -/
def optionName : List Char → List Char :=
  leading Char.isAlphanum fun c => c.isAlphanum || c = '_' || c = '-'

/-- The spelling of an option, well formed or not: one or two hyphens and a name. -/
def option : List Char → List Char
  | '-' :: '-' :: cs =>
    match optionName cs with
    | [] => []
    | name => '-' :: '-' :: name
  | '-' :: cs =>
    match optionName cs with
    | [] => []
    | name => '-' :: name
  | _ => []

/-- The remaining characters start with `mark`. -/
def startsWith (mark : String) (cs : List Char) : Bool := mark.toList.isPrefixOf cs

/-- An opening bracket followed by a hyphen, blanks between them aside. -/
def opensOption (bracket : Char) : List Char → Bool
  | c :: cs => c = bracket && (trimStart cs).head? = some '-'
  | [] => false

/-- A term may end here: at a blank, before a closing bracket or a bar, or at the end. -/
def atBoundary : List Char → Bool
  | [] => true
  | c :: _ => isBlank c || c = '|' || c = ')' || c = ']'

def isSpaceOrTab (c : Char) : Bool := c = ' ' || c = '\t'

/-- A character that does not end a line. -/
def isWithinLine (c : Char) : Bool := c ≠ '\r' && c ≠ '\n'

/-- A note, ` -- ` and the rest of the line: its text, and what remains after it. -/
def note? (cs : List Char) : Option (List Char × List Char) :=
  match cs, cs.dropWhile isSpaceOrTab with
  | c :: _, '-' :: '-' :: d :: ds =>
    if isSpaceOrTab c && isSpaceOrTab d then
      let line := ds.dropWhile isSpaceOrTab
      some (line.takeWhile isWithinLine, line.dropWhile isWithinLine)
    else none
  | _, _ => none

end Lexeme

end Synopsis
