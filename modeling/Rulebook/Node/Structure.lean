import Rulebook.Node.Forest

/-!
# Rulebook — Node — Structure

Whether a store of nodes with a list of roots is a forest: every root and every reference leads to
a node, parents and children name each other, every node is referenced exactly once, and no node is
its own descendant.
-/

namespace Rulebook.Forest

/-- What is wrong with the roots themselves. -/
def rootProblems (nodes : Forest) (roots : List String) : List StructureError :=
  roots.filterMap fun root =>
    match nodes.get? root with
    | none => some (.unknownNode root)
    | some n => n.parent.map fun parent => .rootWithParent root parent

/-- What is wrong with a node's references to its children. -/
def childProblems (nodes : Forest) (id : String) (n : Node) : List StructureError :=
  n.childIds.filterMap fun child =>
    match nodes.get? child with
    | none => some (.danglingChild id child)
    | some c => if c.parent = some id then none else some (.unclaimedChild id child)

/-- What is wrong with a node's reference to its parent. -/
def parentProblems (nodes : Forest) (id : String) (n : Node) : List StructureError :=
  match n.parent with
  | none => []
  | some parent =>
    match nodes.get? parent with
    | none => [.danglingParent id parent]
    | some p => if p.childIds.contains id then [] else [.parentMismatch id parent]

/-- Every reference to a node: the roots, then the children of every node. -/
def references (nodes : Forest) (roots : List String) : List String :=
  roots ++ nodes.values.flatMap Node.childIds

/-- How often each id is referenced. -/
def referenceCounts (refs : List String) : KeyMap Nat :=
  refs.foldl (fun counts id => counts.insert id ((counts.get? id).getD 0 + 1)) ∅

/-- Ids that are referenced more than once, in order. -/
def duplicates (refs : List String) : List StructureError :=
  ((referenceCounts refs).entries.filter fun e => 1 < e.2).map fun e => .duplicateReference e.1

/-- Nodes that are not referenced at all, in order. -/
def orphans (nodes : Forest) (refs : List String) : List StructureError :=
  (nodes.keys.filter fun id => !refs.contains id).map .orphan

/-- The state of a search for cycles: the nodes that are done with, and the cycles found. -/
structure Search where
  finished : List String
  found : List StructureError

/-- Searches below a node: `path` holds the ids from the start down to it.  A child on the path
closes a cycle; any other node is entered once.  A path has no more ids than there are nodes, and
`fuel` bounds its growth. -/
def searchFrom (nodes : Forest) : (fuel : Nat) → (path : List String) → (id : String) → Search →
    Search
  | 0, _, _, s => s
  | fuel + 1, path, id, s =>
    let path := path ++ [id]
    let ids := match nodes.get? id with
      | some n => n.childIds
      | none => []
    let s := ids.foldl (fun (s : Search) child =>
      if path.contains child then
        { s with found := s.found ++ [.cycle (path.dropWhile (· != child) ++ [child])] }
      else if s.finished.contains child || !nodes.contains child then s
      else searchFrom nodes fuel path child s) s
    { s with finished := id :: s.finished }

/-- The cycles of a store. -/
def cycles (nodes : Forest) : List StructureError :=
  (nodes.keys.foldl (fun (s : Search) id =>
    if s.finished.contains id then s else searchFrom nodes nodes.size [] id s) ⟨[], []⟩).found

/-- Everything that keeps a store and its roots from being a forest. -/
def structureProblems (nodes : Forest) (roots : List String) : List StructureError :=
  let refs := references nodes roots
  rootProblems nodes roots ++
    (nodes.entries.flatMap fun e => childProblems nodes e.1 e.2 ++ parentProblems nodes e.1 e.2) ++
    duplicates refs ++ orphans nodes refs ++ cycles nodes

end Rulebook.Forest
