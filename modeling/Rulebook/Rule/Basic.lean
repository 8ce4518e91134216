import Rulebook.Json.Canonical
import Rulebook.Literal
import Rulebook.Metadata
import Rulebook.Vocabulary

/-!
# Rulebook — Rule — Basic

Rules: predicate trees without identity, labels or any editing state.  A rule is an atom, a scope
around one rule, or a junction of any number of rules, and may carry a diagnostic record.

* `preorder`: the rules of a tree, each before its members, in order.
* `annotate`: sets the record of the rule at a path of member positions.
-/

namespace Rulebook

/-- A comparison of a field with a value or with another field. -/
structure Condition where
  field : String
  comparison : Comparison
  value : Literal
  kind : OperandKind
  deriving DecidableEq, Repr

/-- An argument of a function: a value, or the name of a field. -/
structure Argument where
  value : Literal
  kind : OperandKind
  deriving DecidableEq, Repr

/-- Equality of conditions, floating-point numbers by value. -/
def Condition.agrees (a b : Condition) : Bool :=
  a.field = b.field && a.comparison = b.comparison && a.value.agrees b.value && a.kind = b.kind

/-- Equality of arguments, floating-point numbers by value. -/
def Argument.agrees (a b : Argument) : Bool := a.value.agrees b.value && a.kind = b.kind

/-- A rule without members. -/
inductive Atom where
  | condition (c : Condition)
  /-- The items of an array differ in a key. -/
  | uniqueBy (array : String) (key : String)
  | length (bound : LengthBound) (array : String) (limit : UInt64)
  | call (name : String) (args : List Argument)
  | contextual (source : String)
  | expression (source : String)
  | template (id : String) (params : KeyMap Literal)
  | custom (name : String) (payload : Payload)
  deriving Repr

/-- What surrounds a single rule. -/
inductive Scope where
  | conditional (requirement : Requirement) (target : String)
  | forEach (array : String)
  | guarded (guard : Guard) (field : String)
  | withDefault (field : String) (value : Literal)
  deriving DecidableEq, Repr

/-- What joins any number of rules. -/
inductive Junction where
  | connective (op : Connective)
  | quota (kind : Quota) (count : UInt32)
  deriving DecidableEq, Repr

/-- A rule. -/
inductive Rule where
  | atom (a : Atom) (note : Option Metadata)
  | scope (s : Scope) (body : Rule) (note : Option Metadata)
  | junction (j : Junction) (members : List Rule) (note : Option Metadata)
  deriving Repr

/-- Equality of atoms, floating-point numbers by value. -/
def Atom.agrees : Atom → Atom → Bool
  | .condition a, .condition b => a.agrees b
  | .uniqueBy a k, .uniqueBy b l => a = b && k = l
  | .length s a n, .length t b m => s = t && a = b && n = m
  | .call f as, .call g bs => f = g && as.isEqv bs Argument.agrees
  | .contextual a, .contextual b => a = b
  | .expression a, .expression b => a = b
  | .template a ps, .template b qs =>
    a = b && ps.entries.isEqv qs.entries fun p q => p.1 = q.1 && p.2.agrees q.2
  | .custom a p, .custom b q => a = b && p.agrees q
  | _, _ => false

/-- Equality of scopes, floating-point numbers by value. -/
def Scope.agrees : Scope → Scope → Bool
  | .withDefault f v, .withDefault g w => f = g && v.agrees w
  | s, t => s = t

/-- The most levels a rule may have to be written, drawn or built; a lone atom has one. -/
def nestingLimit : Nat := 32

namespace Rule

instance : Inhabited Rule := ⟨.junction (.connective .and) [] none⟩

/-! ### Constructors by meaning -/

/-- A comparison with a value. -/
def compare (field : String) (c : Comparison) (value : Literal) : Rule :=
  .atom (.condition ⟨field, c, value, .literal⟩) none

/-- A comparison of two fields. -/
def compareFields (field : String) (c : Comparison) (other : String) : Rule :=
  .atom (.condition ⟨field, c, .string other, .fieldReference⟩) none

/-- A group under a connective. -/
def group (op : Connective) (members : List Rule) : Rule :=
  .junction (.connective op) members none

/-! ### Views -/

/-- The diagnostic record. -/
def note : Rule → Option Metadata
  | .atom _ n => n
  | .scope _ _ n => n
  | .junction _ _ n => n

/-- The rule with another diagnostic record. -/
def withNote (n : Option Metadata) : Rule → Rule
  | .atom a _ => .atom a n
  | .scope s body _ => .scope s body n
  | .junction j members _ => .junction j members n

/-- The rules directly below. -/
def children : Rule → List Rule
  | .atom _ _ => []
  | .scope _ body _ => [body]
  | .junction _ members _ => members

mutual

/-- The number of rules in the tree. -/
def count : Rule → Nat
  | .atom _ _ => 1
  | .scope _ body _ => 1 + count body
  | .junction _ members _ => 1 + countAll members

/-- The number of rules in several trees. -/
def countAll : List Rule → Nat
  | [] => 0
  | r :: rs => count r + countAll rs

end

mutual

/-- The number of levels of the tree. -/
def depth : Rule → Nat
  | .atom _ _ => 1
  | .scope _ body _ => 1 + depth body
  | .junction _ members _ => 1 + depthAll members

/-- The most levels among several trees. -/
def depthAll : List Rule → Nat
  | [] => 0
  | r :: rs => max (depth r) (depthAll rs)

end

mutual

/-- Every rule of the tree, each before its members. -/
def preorder : Rule → List Rule
  | .atom a n => [.atom a n]
  | .scope s body n => .scope s body n :: preorder body
  | .junction j members n => .junction j members n :: preorderAll members

/-- Every rule of several trees, tree after tree. -/
def preorderAll : List Rule → List Rule
  | [] => []
  | r :: rs => preorder r ++ preorderAll rs

end

mutual

/-- The tree without any diagnostic record. -/
def bare : Rule → Rule
  | .atom a _ => .atom a none
  | .scope s body _ => .scope s (bare body) none
  | .junction j members _ => .junction j (bareAll members) none

/-- Several trees without any diagnostic record. -/
def bareAll : List Rule → List Rule
  | [] => []
  | r :: rs => bare r :: bareAll rs

end

/-- Replaces the item at a position by the outcome of `f`. -/
def updateAt (f : α → Option α) : List α → Nat → Option (List α)
  | [], _ => none
  | a :: as, 0 => (f a).map (· :: as)
  | a :: as, i + 1 => (updateAt f as i).map (a :: ·)

/-- Sets the diagnostic record of the rule that a path of member positions leads to. -/
def annotate (n : Option Metadata) : List Nat → Rule → Option Rule
  | [], r => some (r.withNote n)
  | i :: path, .scope s body m =>
    if i = 0 then (annotate n path body).map fun b => .scope s b m else none
  | i :: path, .junction j members m =>
    (updateAt (annotate n path) members i).map fun ms => .junction j ms m
  | _ :: _, .atom _ _ => none

/-! ### Agreement -/

mutual

/-- Equality of rules, diagnostic records included; floating-point numbers by value. -/
def agrees : Rule → Rule → Bool
  | .atom a n, .atom b m => a.agrees b && n = m
  | .scope s a n, .scope t b m => s.agrees t && agrees a b && n = m
  | .junction j as n, .junction k bs m => j = k && agreesAll as bs && n = m
  | _, _ => false

/-- Equality rule by rule. -/
def agreesAll : List Rule → List Rule → Bool
  | [], [] => true
  | a :: as, b :: bs => agrees a b && agreesAll as bs
  | _, _ => false

end

end Rule

end Rulebook
