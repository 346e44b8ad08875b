import ExplicitControl.Json.Reader
import ExplicitControl.Text.Bytes

/-!
Where the name table of a tree ends in the tree's document. A table that repeats a text is told with the
place where reading stopped: behind the table, and behind the bracket or comma that was looked at to see
whether more follows.
-/

namespace ExplicitControl

namespace NamesPlace

open Json.Reader

def afterMember (fuel : Nat) (cs : List Char) : Option (List Char) :=
  match fuel with
  | 0 => none
  | fuel + 1 => do
    let '\"' :: rest := skipSpace cs | none
    let (name, rest) ← string rest
    let ':' :: rest := skipSpace rest | none
    let (_, rest) ← value (2 * rest.length + 2) rest
    if name == some "names" then return rest
    let ',' :: rest := skipSpace rest | none
    afterMember fuel rest

/-- The text that is left when reading stops at the name table. A closing bracket behind the table has been
read too; in a tree written as an array, so has a comma with the blanks behind it. -/
def rest? (cs : List Char) : Option (List Char) := do
  match skipSpace cs with
  | '\x7b' :: rest =>
    match skipSpace (← afterMember rest.length rest) with
    | '\x7d' :: rest => return rest
    | rest => return rest
  | '[' :: rest =>
    let (_, rest) ← value (2 * rest.length + 2) rest
    match skipSpace rest with
    | ']' :: rest => return rest
    | ',' :: rest => return skipSpace rest
    | rest => return rest
  | _ => none

/-- The line on which a text ends, and the number of bytes on it. -/
def lineAndColumn (seen : List Char) : Nat × Nat :=
  (seen.count '\n' + 1, Text.byteLength (seen.reverse.takeWhile fun c => c != '\n'))

def text (document : String) : String :=
  let cs := document.toList
  match rest? cs with
  | none => ""
  | some rest =>
    let (line, column) := lineAndColumn (cs.take (cs.length - rest.length))
    " at line " ++ toString line ++ " column " ++ toString column

end NamesPlace

end ExplicitControl
