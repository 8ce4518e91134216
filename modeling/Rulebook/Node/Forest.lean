import Rulebook.KeyMap
import Rulebook.Node.Basic

/-!
# Rulebook — Node — Forest

Nodes by their ids, with references for children, and the two ways between such a flat store and
embedded trees: `flatten` takes trees apart, `build` puts the tree below an id together again.
-/

namespace Rulebook

/-- Nodes by id. -/
abbrev Forest := KeyMap Node

/-- What is wrong with the references between nodes. -/
inductive StructureError where
  | unknownNode (id : String)
  | danglingChild (parent child : String)
  | danglingParent (node parent : String)
  /-- The named parent does not list the node. -/
  | parentMismatch (node parent : String)
  /-- The listed child does not name the node as its parent. -/
  | unclaimedChild (parent child : String)
  | orphan (id : String)
  | duplicateReference (id : String)
  | cycle (path : List String)
  | tooDeep (node : String)
  | rootWithParent (node parent : String)
  deriving DecidableEq, Repr

namespace StructureError

/-- The wording. -/
def message : StructureError → String
  | .unknownNode id => "node '" ++ id ++ "' does not exist"
  | .danglingChild parent child =>
    "node '" ++ parent ++ "' lists child '" ++ child ++ "' which does not exist"
  | .danglingParent node parent =>
    "node '" ++ node ++ "' names parent '" ++ parent ++ "' which does not exist"
  | .parentMismatch node parent =>
    "node '" ++ node ++ "' names parent '" ++ parent ++ "' which does not list it as a child"
  | .unclaimedChild parent child =>
    "node '" ++ parent ++ "' lists child '" ++ child ++ "' which does not name it as parent"
  | .orphan id => "node '" ++ id ++ "' is neither a root nor listed as a child"
  | .duplicateReference id => "node '" ++ id ++ "' is referenced more than once"
  | .cycle path => "cycle detected: " ++ String.intercalate " -> " path
  | .tooDeep node => s!"node '{node}' is nested more than {nestingLimit} levels deep"
  | .rootWithParent node parent => "root node '" ++ node ++ "' names parent '" ++ parent ++ "'"

/-- The node that an error is about. -/
def node? : StructureError → Option String
  | .unknownNode id => some id
  | .orphan id => some id
  | .duplicateReference id => some id
  | .danglingChild parent _ => some parent
  | .unclaimedChild parent _ => some parent
  | .danglingParent node _ => some node
  | .parentMismatch node _ => some node
  | .rootWithParent node _ => some node
  | .tooDeep node => some node
  | .cycle path => path.head?

end StructureError

namespace Forest

/-! ### Taking trees apart -/

mutual

/-- Puts a tree into a store, below a parent: children first, each replaced by its id. -/
def addTree (parent : Option String) : Node → Forest → Forest
  | ⟨id, label, note, children, _, config⟩, nodes =>
    (addEntries id children nodes).insert id
      ⟨id, label, note, children.map fun e => .ref e.id, parent, config⟩

/-- Puts embedded children into a store, below their parent. -/
def addEntries (parent : String) : List Entry → Forest → Forest
  | [], nodes => nodes
  | .ref _ :: es, nodes => addEntries parent es nodes
  | .node n :: es, nodes => addEntries parent es (addTree (some parent) n nodes)

end

/-- Puts trees into a store, as roots. -/
def addTrees (trees : List Node) (nodes : Forest) : Forest :=
  trees.foldl (fun nodes t => addTree none t nodes) nodes

/-- The nodes of embedded trees, and the ids of the roots in order.  Of two nodes with the same
id the later one stays. -/
def flatten (roots : List Node) : Forest × List String :=
  (addTrees roots ∅, roots.map Node.id)

/-! ### Putting trees together -/

/-- The node that a child stands for. -/
def resolve (nodes : Forest) (parent : String) : Entry → Except StructureError Node
  | .node n => .ok n
  | .ref id =>
    match nodes.get? id with
    | some n => .ok n
    | none => .error (.danglingChild parent id)

/-- The tree below a node, with `levels` levels left and `path` the ids of the nodes above it.
Every child in it is embedded and names its container as its parent. -/
def materialize (nodes : Forest) : (levels : Nat) → (path : List String) → Node →
    Except StructureError Node
  | 0, path, n =>
    if path.contains n.id then .error (.cycle (path ++ [n.id])) else .error (.tooDeep n.id)
  | levels + 1, path, n =>
    if path.contains n.id then .error (.cycle (path ++ [n.id]))
    else do
      let children ← n.children.mapM fun e => do
        let child ← resolve nodes n.id e
        let tree ← materialize nodes levels (path ++ [n.id]) child
        return Entry.node { tree with parent := some n.id }
      return { n with children }

/-- The embedded tree below an id. -/
def build (nodes : Forest) (root : String) : Except StructureError Node :=
  match nodes.get? root with
  | none => .error (.unknownNode root)
  | some n => materialize nodes nestingLimit [] n

/-! ### Descendants -/

/-- The number of references to children in the whole store. -/
def referenceCount (nodes : Forest) : Nat :=
  (nodes.values.flatMap Node.children).length

/-- Collects ids of nodes: `pending` are still to be looked at, the one on top first, `seen` have
been.  Every step takes one pending id, and a node's children are put on top once, the last one
uppermost; `fuel` bounds the steps. -/
def reach (nodes : Forest) : (fuel : Nat) → (pending seen : List String) → List String
  | 0, _, seen => seen
  | _ + 1, [], seen => seen
  | fuel + 1, id :: pending, seen =>
    if seen.contains id then reach nodes fuel pending seen
    else
      match nodes.get? id with
      | none => reach nodes fuel pending seen
      | some n => reach nodes fuel (n.childIds.reverse ++ pending) (seen ++ [id])

/-- The ids of a node and of all nodes below it. -/
def subtree (nodes : Forest) (root : String) : List String :=
  reach nodes (nodes.referenceCount + 2) [root] []

end Forest

end Rulebook
