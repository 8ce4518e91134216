import Rulebook.Lint.Finding
import Rulebook.Sorting
import Rulebook.Text.Position

/-!
# Rulebook — Lint — Fixing

Applying the edits of findings.  Edits are taken in order of their places; one that is malformed,
or that starts before the end of an edit already made, is left out.
-/

namespace Rulebook.Lint

/-- Whether an edit has its ends in order and within a text of `width` bytes. -/
def Edit.fits (e : Edit) (width : Nat) : Bool := e.start ≤ e.stop && e.stop ≤ width

/-- The order of edits: by start, then by end. -/
def Edit.le (a b : Edit) : Bool :=
  a.start < b.start || (a.start = b.start && a.stop ≤ b.stop)

/-- Whether both ends of an edit fall between characters. -/
def Edit.onBoundaries (e : Edit) (text : List Char) : Bool :=
  Text.isBoundary text e.start && Text.isBoundary text e.stop

/-- The edits that are made, of edits in order: `cursor` is the end of the last one made. -/
def selectEdits (text : List Char) (cursor : Nat) : List Edit → List Edit
  | [] => []
  | e :: es =>
    if e.start < cursor || !e.onBoundaries text then selectEdits text cursor es
    else e :: selectEdits text e.stop es

/-- The text from `cursor` on with edits made that do not overlap. -/
def replaceFrom (text : List Char) (cursor : Nat) : List Edit → List Char
  | [] => Text.dropBytes text cursor
  | e :: es =>
    Text.takeBytes (Text.dropBytes text cursor) (e.start - cursor) ++ e.replacement.toList ++
      replaceFrom text e.stop es

/-- The edits of findings that are well formed, in order. -/
def orderedEdits (text : List Char) (findings : List Finding) : List Edit :=
  sortStable Edit.le
    ((findings.filterMap fun f => f.fix.map Fix.edit).filter fun e => e.fits (Text.width text))

/-- The edits of findings that are made. -/
def madeEdits (text : List Char) (findings : List Finding) : List Edit :=
  selectEdits text 0 (orderedEdits text findings)

/-- The text with the fixes of findings applied. -/
def applyFixes (text : String) (findings : List Finding) : String :=
  String.ofList (replaceFrom text.toList 0 (madeEdits text.toList findings))

end Rulebook.Lint
