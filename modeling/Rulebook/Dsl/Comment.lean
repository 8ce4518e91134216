import Rulebook.Json.Reader
import Rulebook.Json.Writer
import Rulebook.Metadata
import Rulebook.Text.Blank
import Rulebook.Text.Position

/-!
# Rulebook — Dsl — Comment

The comments of a text, and the diagnostic records that some of them hold.  A record comment
starts with `@meta` and goes on with a JSON object: a `path` of member positions from the root to
the rule it is about, and the members of the record.  It may stand anywhere in the text.
-/

namespace Rulebook.Dsl

/-- A comment outside of string literals: the text behind its `#` up to the end of the line, and
the byte offset of the `#`. -/
structure Comment where
  text : List Char
  offset : Nat
  deriving DecidableEq, Repr

mutual

/-- The comments of a text, whose first character has the given offset. -/
def commentsFrom (offset : Nat) : List Char → List Comment
  | [] => []
  | c :: cs =>
    if c = '"' then commentsInString (offset + 1) cs
    else if c = '#' then
      ⟨cs.takeWhile (· != '\n'), offset⟩ :: commentsInComment (offset + 1) cs
    else commentsFrom (offset + c.utf8Size) cs

/-- The same from inside a string literal. -/
def commentsInString (offset : Nat) : List Char → List Comment
  | [] => []
  | '\\' :: c :: cs => commentsInString (offset + 1 + c.utf8Size) cs
  | c :: cs =>
    if c = '"' then commentsFrom (offset + 1) cs else commentsInString (offset + c.utf8Size) cs

/-- The same from inside a comment. -/
def commentsInComment (offset : Nat) : List Char → List Comment
  | [] => []
  | c :: cs =>
    if c = '\n' then commentsFrom (offset + 1) cs
    else commentsInComment (offset + c.utf8Size) cs

end

/-- The comments of a text, in order. -/
def comments (text : List Char) : List Comment := commentsFrom 0 text

/-- The word that a record comment starts with. -/
def recordMarker : List Char := ['@', 'm', 'e', 't', 'a']

/-- What stands behind the marker of a record comment. -/
def Comment.record? (c : Comment) : Option (List Char) :=
  let body := Text.trimStart c.text
  if recordMarker.isPrefixOf body then some (Text.trim (body.drop recordMarker.length)) else none

/-- A diagnostic record and the way to the rule it belongs to. -/
structure PathRecord where
  path : List Nat
  metadata : Metadata
  deriving DecidableEq, Repr

namespace PathRecord

def toJson (r : PathRecord) : Json :=
  .object (("path", .array (r.path.map .nat)) :: r.metadata.members)

/-- Reads the path, and sets the other members aside for the record. -/
def ofJson? : Json.Decoder PathRecord := fun s j => do
  let r ← Json.Record.readObject ("path" :: Metadata.memberNames) s j
  some ⟨← r.required "path" (Json.asList Json.asNat), ← Metadata.ofRecord? r.aside⟩

/-- Reads what stands behind the marker of a record comment. -/
def read? (body : List Char) : Option PathRecord := (Json.read? body).bind (ofJson? .inPlace)

/-- The record comment. -/
def render (r : PathRecord) : List Char :=
  ['#', ' '] ++ recordMarker ++ ' ' :: r.toJson.write

end PathRecord

end Rulebook.Dsl
