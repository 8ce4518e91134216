/-!
# Rulebook — Dsl — Grammar

Readers of text that fail with what they were looking for.  A failure is either open, so that
another reading of the same text may be tried, or committed, which ends the reading of the whole
text.  Every outcome says where the text stood, so that a failure can be located.

* `optional`, `many`, `separated` and `orElse` go back to where they started when an open failure
  makes them try something else; nothing else moves the place of a failure.
-/

namespace Rulebook.Dsl

/-- What a reader was doing: what it was inside of, or what it was looking for. -/
inductive Mark where
  | label (what : String)
  | expected (what : String)
  deriving DecidableEq, Repr

/-- A failure, with the marks of the readers around it, innermost first. -/
structure Fault where
  committed : Bool
  marks : List Mark
  cause : Option String
  deriving DecidableEq, Repr

namespace Fault

/-- The open failure that says nothing. -/
def bare : Fault := ⟨false, [], none⟩

/-- What a list of marks was looking for. -/
def expectations (marks : List Mark) : List String :=
  marks.filterMap fun
    | .expected what => some what
    | .label _ => none

/-- The innermost label. -/
def label? (marks : List Mark) : Option String :=
  marks.findSome? fun
    | .expected _ => none
    | .label what => some what

/-- The wording of a failure: a line for the label, one for the expectations, one for the cause. -/
def text (f : Fault) : String :=
  let lines :=
    ((label? f.marks).map fun what => "invalid " ++ what).toList ++
      (match expectations f.marks with
      | [] => []
      | es => ["expected " ++ String.intercalate ", " es]) ++
      f.cause.toList
  String.intercalate "\n" lines

end Fault

/-- The outcome of a reader, with the text that was left at that point. -/
inductive Outcome (α : Type) where
  | ok (value : α) (rest : List Char)
  | fail (fault : Fault) (rest : List Char)
  deriving Repr

/-- A reader of the start of a text. -/
def Grammar (α : Type) : Type := List Char → Outcome α

namespace Grammar

/-- Reads nothing. -/
def done (a : α) : Grammar α := fun cs => .ok a cs

/-- One reader after the other. -/
def andThen (p : Grammar α) (f : α → Grammar β) : Grammar β := fun cs =>
  match p cs with
  | .ok a rest => f a rest
  | .fail e rest => .fail e rest

instance : Monad Grammar where
  pure := done
  bind := andThen

@[simp] theorem pure_apply (a : α) (cs : List Char) : (pure a : Grammar α) cs = .ok a cs := rfl

theorem bind_apply (p : Grammar α) (f : α → Grammar β) (cs : List Char) :
    (p >>= f) cs =
      match p cs with
      | .ok a rest => f a rest
      | .fail e rest => .fail e rest := rfl

theorem bind_ok {p : Grammar α} {f : α → Grammar β} {cs rest : List Char} {a : α}
    (h : p cs = .ok a rest) : (p >>= f) cs = f a rest := by
  rw [bind_apply, h]

theorem bind_fail {p : Grammar α} {f : α → Grammar β} {cs rest : List Char} {e : Fault}
    (h : p cs = .fail e rest) : (p >>= f) cs = .fail e rest := by
  rw [bind_apply, h]

/-! ### Failures -/

/-- Fails openly, with nothing to say. -/
def refuse : Grammar α := fun cs => .fail .bare cs

/-- Fails for good with the given marks. -/
def abort (marks : List Mark) : Grammar α := fun cs => .fail ⟨true, marks, none⟩ cs

/-- Makes a failure a committed one. -/
def commit (p : Grammar α) : Grammar α := fun cs =>
  match p cs with
  | .ok a rest => .ok a rest
  | .fail e rest => .fail ⟨true, e.marks, e.cause⟩ rest

/-- Adds a mark to a failure. -/
def marked (m : Mark) (p : Grammar α) : Grammar α := fun cs =>
  match p cs with
  | .ok a rest => .ok a rest
  | .fail e rest => .fail ⟨e.committed, e.marks ++ [m], e.cause⟩ rest

/-- Adds an expectation to a failure. -/
def expecting (what : String) (p : Grammar α) : Grammar α := marked (.expected what) p

/-- Adds the expectation of a character to a failure. -/
def expectingChar (c : Char) (p : Grammar α) : Grammar α :=
  marked (.expected (String.ofList ['\x60', c, '\x60'])) p

/-! ### Choice and repetition -/

/-- The second reader, from the same place, if the first one fails openly. -/
def orElse (p : Grammar α) (q : Unit → Grammar α) : Grammar α := fun cs =>
  match p cs with
  | .ok a rest => .ok a rest
  | .fail e rest => if e.committed then .fail e rest else q () cs

instance : OrElse (Grammar α) := ⟨orElse⟩

/-- Nothing, read from nothing, in place of an open failure. -/
def optional (p : Grammar α) : Grammar (Option α) := fun cs =>
  match p cs with
  | .ok a rest => .ok (some a) rest
  | .fail e rest => if e.committed then .fail e rest else .ok none cs

/-- Reads ahead: the text stays where it is. -/
def peek (p : Grammar α) : Grammar α := fun cs =>
  match p cs with
  | .ok a _ => .ok a cs
  | .fail e _ => .fail e cs

/-- Readings one after the other, up to the first open failure; `fuel` bounds their number. -/
def manyWithin (p : Grammar α) : Nat → Grammar (List α)
  | 0, cs => .ok [] cs
  | fuel + 1, cs =>
    match p cs with
    | .fail e rest => if e.committed then .fail e rest else .ok [] cs
    | .ok a rest =>
      match manyWithin p fuel rest with
      | .ok as rest' => .ok (a :: as) rest'
      | .fail e rest' => .fail e rest'

/-- Any number of readings, each of which takes some text. -/
def many (p : Grammar α) : Grammar (List α) := fun cs => manyWithin p (cs.length + 1) cs

/-- Any number of readings with a separator between them. -/
def separated (p : Grammar α) (separator : Grammar Unit) : Grammar (List α) := fun cs =>
  match p cs with
  | .fail e rest => if e.committed then .fail e rest else .ok [] cs
  | .ok a rest =>
    match many (separator >>= fun _ => p) rest with
    | .ok as rest' => .ok (a :: as) rest'
    | .fail e rest' => .fail e rest'

/-! ### Characters -/

/-- One particular character. -/
def char (c : Char) : Grammar Unit
  | [] => .fail .bare []
  | d :: cs => if d = c then .ok () cs else .fail .bare (d :: cs)

/-- One particular text. -/
def exact (text : List Char) : Grammar Unit := fun cs =>
  if text.isPrefixOf cs then .ok () (cs.drop text.length) else .fail .bare cs

/-- Fails openly before a character of a class. -/
def notBefore (inside : Char → Bool) : Grammar Unit
  | [] => .ok () []
  | c :: cs => if inside c then .fail .bare (c :: cs) else .ok () (c :: cs)

end Grammar

end Rulebook.Dsl
