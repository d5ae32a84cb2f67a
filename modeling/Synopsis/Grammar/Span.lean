/-!
# Places in a text

A complaint about a text names the bytes it is about, counted in UTF-8, and is shown as the line
they start in with carets under them.

A span may end inside a character, where no text can be cut, and then it cannot be shown:
`Span.show?` is `none` there.
-/

namespace Synopsis

/-- The parts of a text before and after its first `n` bytes, unless that cuts a character. -/
def splitBytes? : Nat → List Char → Option (List Char × List Char)
  | 0, cs => some ([], cs)
  | _ + 1, [] => none
  | n + 1, c :: cs =>
    if c.utf8Size ≤ n + 1 then
      (splitBytes? (n + 1 - c.utf8Size) cs).map fun (before, after) => (c :: before, after)
    else none

/-- The bytes from `start` up to `stop`. -/
structure Span where
  start : Nat
  stop : Nat
  deriving DecidableEq

namespace Span

/-- The span from `start` to a cursor at `offset`, of one byte at least. -/
def upTo (start offset : Nat) : Span := ⟨start, max offset (start + 1)⟩

/-- A complaint as it is shown: `detail`, the line of `text` that the span starts in, and carets
under the characters from its start to its end or the end of the line. -/
def show? (span : Span) (detail : String) (text : String) : Option String := do
  let cs := text.toList
  let start := min span.start text.utf8ByteSize
  let (before, after) ← splitBytes? start cs
  let lineHead := (before.reverse.takeWhile (· ≠ '\n')).reverse
  let lineTail := after.takeWhile (· ≠ '\n')
  let stop := max (min span.stop (start + (String.ofList lineTail).utf8ByteSize)) start
  let (marked, _) ← splitBytes? (stop - start) after
  let indent := List.replicate lineHead.length ' '
  let carets := List.replicate (max marked.length 1) '^'
  return detail ++ "\n" ++ String.ofList (lineHead ++ lineTail) ++ "\n" ++
    String.ofList (indent ++ carets)

end Span

end Synopsis
