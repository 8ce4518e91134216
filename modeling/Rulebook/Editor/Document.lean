import Rulebook.Node.Structure

/-!
# Rulebook — Editor — Document

What an editor edits: a store of nodes, the ids of its roots in order, and the selected node.  A
node is listed by the parent that it names, or among the roots if it names none.  The two sides of
such a link are written one after the other, so that a single write may leave them out of step; an
edit is a sequence of writes that brings them back.
-/

namespace Rulebook

/-- Why an edit is refused. -/
inductive EditError where
  | unknownParent (id : String)
  | unknownNode (id : String)
  | duplicateId (id : String)
  /-- The target is the node or stands below it. -/
  | wouldCreateCycle (node target : String)
  deriving DecidableEq, Repr

namespace EditError

/-- The wording. -/
def message : EditError → String
  | .unknownParent id => "parent node '" ++ id ++ "' does not exist"
  | .unknownNode id => "node '" ++ id ++ "' does not exist"
  | .duplicateId id => "a node with id '" ++ id ++ "' already exists"
  | .wouldCreateCycle node target =>
    "moving '" ++ node ++ "' under '" ++ target ++ "' would create a cycle"

end EditError

/-- A node to be added.  Without a label it gets that of its kind. -/
structure NewNode where
  label : Option String
  note : Option Metadata
  config : Config
  deriving Repr

/-- The node under its id, below a parent or as a root. -/
def NewNode.node (new : NewNode) (id : String) (parent : Option String) : Node :=
  ⟨id, some (new.label.getD new.config.kind.label), new.note, [], parent, new.config⟩

/-- What is to be changed in a node; what is absent stays. -/
structure Patch where
  label : Option String
  /-- The record to be set, or cleared. -/
  note : Option (Option Metadata)
  config : Option Config
  deriving Repr

namespace Patch

/-- The node with the changes made. -/
def apply (p : Patch) (n : Node) : Node :=
  { n with
    label := p.label <|> n.label
    note := p.note.getD n.note
    config := p.config.getD n.config }

end Patch

/-- The nodes, the roots and the selection. -/
structure Document where
  nodes : Forest
  roots : List String
  selected : Option String

namespace Document

/-- Nothing. -/
def empty : Document := ⟨∅, [], none⟩

/-- Puts a value into a list: at an index, or last if there is none or the list is shorter. -/
def insertAt (index : Option Nat) (a : α) (l : List α) : List α :=
  l.insertIdx (min (index.getD l.length) l.length) a

/-- Lists a node below a parent, or among the roots. -/
def attach (d : Document) (id : String) (parent : Option String) (index : Option Nat) : Document :=
  match parent with
  | none => { d with roots := insertAt index id d.roots }
  | some p =>
    { d with
      nodes := d.nodes.modify p fun n =>
        { n with children := insertAt index (.ref id) n.children } }

/-- The node that a parent's id stands for. -/
def parentNode? (d : Document) (parent : Option String) : Option (String × Node) :=
  parent.bind fun p => (d.nodes.get? p).map fun n => (p, n)

/-- No longer lists a node below its parent, or among the roots if there is no such parent. -/
def detach (d : Document) (id : String) (parent : Option String) : Document :=
  match d.parentNode? parent with
  | none => { d with roots := d.roots.filter fun r => r != id }
  | some (p, n) =>
    { d with
      nodes := d.nodes.insert p { n with children := n.children.filter fun e => e.id != id } }

/-- The ids of the nodes below a parent, or of the roots if there is no such parent. -/
def siblings (d : Document) (parent : Option String) : List String :=
  match d.parentNode? parent with
  | none => d.roots
  | some (_, n) => n.childIds

/-- Keeps a node under an id. -/
def put (d : Document) (id : String) (n : Node) : Document :=
  { d with nodes := d.nodes.insert id n }

/-- Changes the node under an id, if there is one. -/
def modify (d : Document) (id : String) (f : Node → Node) : Document :=
  { d with nodes := d.nodes.modify id f }

/-- Drops nodes. -/
def erase (d : Document) (ids : List String) : Document :=
  { d with nodes := ids.foldl KeyMap.erase d.nodes }

/-- Selects nothing if what is selected is among some nodes. -/
def deselect (d : Document) (ids : List String) : Document :=
  { d with selected := d.selected.filter fun s => !ids.contains s }

/-- Adds a tree as the last root. -/
def plant (d : Document) (tree : Node) : Document :=
  { d with
    nodes := d.nodes.addTree none tree
    roots := d.roots ++ [tree.id] }

end Document

end Rulebook
