import Rulebook.Dsl.Comment
import Rulebook.Dsl.Layout
import Rulebook.Json.Writer
import Rulebook.Rule.Basic
import Rulebook.Text.Identifier

/-!
# Rulebook — Dsl — Printer

Writing a rule as text.  `check` says whether a rule can be written at all, and what is the first
thing in it that cannot; the text itself, `lay`, is a total function of the rule, so whether
writing succeeds never hangs on the layout.
-/

namespace Rulebook

/-- What a name in a rule's text stands for. -/
inductive NameRole where
  | field
  | fieldReference
  | function
  | templateParameter
  deriving DecidableEq, Repr

/-- Why a rule cannot be written. -/
inductive RenderError where
  | notFinite (value : Binary64)
  | invalidName (name : String) (role : NameRole)
  | tooDeep (depth : Nat)
  deriving DecidableEq, Repr

namespace NameRole

/-- The wording. -/
def text : NameRole → String
  | .field => "field"
  | .fieldReference => "field reference"
  | .function => "function"
  | .templateParameter => "template parameter"

end NameRole

namespace RenderError

/-- The wording. -/
def message : RenderError → String
  | .notFinite value =>
    "cannot render non-finite number " ++ String.ofList value.ruleText ++ " as a DSL literal"
  | .invalidName name role => "'" ++ name ++ "' is not a valid " ++ role.text ++ " identifier"
  | .tooDeep depth =>
    s!"specification is {depth} levels deep, more than the limit of {nestingLimit}"

end RenderError

/-! ### What can be written -/

/-- A name has to be one of the rule language. -/
def checkName (role : NameRole) (name : String) : Except RenderError Unit :=
  if isName name then .ok () else .error (.invalidName name role)

/-- A number has to be finite. -/
def Literal.check (v : Literal) : Except RenderError Unit :=
  match v with
  | .float x => if x.isFinite then .ok () else .error (.notFinite x)
  | _ => .ok ()

/-- A reference has to be a string that is a name. -/
def Literal.checkReference (v : Literal) : Except RenderError Unit :=
  match v with
  | .string s => if isName s then .ok () else .error (.invalidName v.text .fieldReference)
  | _ => .error (.invalidName v.text .fieldReference)

/-- An operand, by its kind. -/
def Literal.checkOperand (v : Literal) : OperandKind → Except RenderError Unit
  | .literal => v.check
  | .fieldReference => v.checkReference

namespace Atom

/-- The first part of an atom that cannot be written. -/
def check : Atom → Except RenderError Unit
  | .condition c => do
    checkName .field c.field
    c.value.checkOperand c.kind
  | .uniqueBy array _ => checkName .field array
  | .length _ array _ => checkName .field array
  | .call name args => do
    if isName name && !isReservedCall name then .ok () else .error (.invalidName name .function)
    args.forM fun a => a.value.checkOperand a.kind
  | .template _ params =>
    params.entries.forM fun e => do
      checkName .templateParameter e.1
      e.2.check
  | .contextual _ | .expression _ | .custom _ _ => .ok ()

end Atom

namespace Scope

/-- The first part of a scope that cannot be written. -/
def check : Scope → Except RenderError Unit
  | .conditional _ target => checkName .field target
  | .forEach array => checkName .field array
  | .guarded _ field => checkName .field field
  | .withDefault field value => do
    checkName .field field
    value.check

end Scope

namespace Rule

mutual

/-- The first part of a rule that cannot be written, levels apart. -/
def check : Rule → Except RenderError Unit
  | .atom a _ => a.check
  | .scope s body _ => do
    s.check
    check body
  | .junction _ members _ => checkAll members

/-- The first part of several rules that cannot be written. -/
def checkAll : List Rule → Except RenderError Unit
  | [] => .ok ()
  | r :: rs => do
    check r
    checkAll rs

end

end Rule

/-! ### Text of the parts -/

/-- A field as a reference. -/
def referenceText (field : String) : List Char :=
  ['$', '\x7b'] ++ field.toList ++ ['\x7d']

/-- The field of a condition: a reference if it would read as a keyword. -/
def fieldText (field : String) : List Char :=
  if (Connective.ofKeyword? field.toList).isSome then referenceText field else field.toList

/-- A string literal. -/
def quotedText (s : String) : List Char := Text.quote s.toList

/-- The text of a value that names a field. -/
def Literal.fieldName : Literal → String
  | .string s => s
  | _ => ""

namespace Condition

def render (c : Condition) : List Char :=
  fieldText c.field ++ ' ' :: (c.comparison.symbol.toList ++ ' ' ::
    match c.kind with
    | .literal => c.value.render
    | .fieldReference => referenceText c.value.fieldName)

end Condition

namespace Argument

/-- A field is written bare, but as a reference if it would read as a literal. -/
def render (a : Argument) : List Char :=
  match a.kind with
  | .literal => a.value.render
  | .fieldReference =>
    let field := a.value.fieldName
    if field = "true" || field = "false" || field = "null" then referenceText field
    else field.toList

end Argument

/-- Texts with a comma and a space between them. -/
def commaSeparated : List (List Char) → List Char
  | [] => []
  | [t] => t
  | t :: u :: ts => t ++ ',' :: ' ' :: commaSeparated (u :: ts)

/-- A call with the texts of its arguments. -/
def callText (name : String) (args : List (List Char)) : List Char :=
  name.toList ++ '(' :: (commaSeparated args ++ [')'])

namespace Atom

def render : Atom → List Char
  | .condition c => c.render
  | .uniqueBy array key => callText "uniqueBy" [array.toList, quotedText key]
  | .length bound array limit =>
    callText bound.callName [array.toList, Decimal.digitsOf limit.toNat]
  | .call name args => callText name (args.map Argument.render)
  | .contextual source => callText "contextual" [quotedText source]
  | .expression source => callText "expression" [quotedText source]
  | .template id params =>
    callText "template" (quotedText id ::
      params.entries.map fun e => e.1.toList ++ [' ', '=', ' '] ++ e.2.render)
  | .custom name payload =>
    callText "custom" [quotedText name, Text.quote payload.value.write]

end Atom

namespace Scope

/-- A scope with the text of the rule inside. -/
def render (body : List Char) : Scope → List Char
  | .conditional requirement target => callText requirement.name [target.toList, body]
  | .forEach array => callText "forEach" [array.toList, body]
  | .guarded guard field => callText guard.name [field.toList, body]
  | .withDefault field value => callText "withDefault" [field.toList, value.render, body]

end Scope

/-! ### Text of a rule -/

namespace Layout

/-- A line feed and the indentation of a level. -/
def newline (o : Layout) (level : Nat) : List Char :=
  '\n' :: List.replicate (level * o.indentWidth) ' '

/-- Whether the members of a junction take a line each. -/
def spreads (o : Layout) (j : Junction) (members : List Rule) : Bool :=
  o.pretty && 2 ≤ members.length &&
    match j with
    | .connective op => op != .not
    | .quota _ _ => false

/-- What stands between the members of a junction. -/
def separator (o : Layout) (level : Nat) : Junction → List Char
  | .connective .not => [',', ' ']
  | .connective op =>
    (if o.pretty then o.newline level else [' ']) ++ op.keyword.toList ++ [' ']
  | .quota _ _ => [',', ' ']

/-- What stands in front of the members of a junction. -/
def opening (o : Layout) (level : Nat) (members : List Rule) : Junction → List Char
  | .quota kind count =>
    kind.name.toList ++ '(' :: (Decimal.digitsOf count.toNat ++ [',', ' ', '['])
  | .connective op =>
    '(' ::
      match members with
      | [] => op.keyword.toList
      | [_] => op.keyword.toList ++ [' ']
      | _ =>
        if op = .not then op.keyword.toList ++ [' ']
        else if o.pretty then o.newline (level + 1)
        else []

/-- What stands behind the members of a junction. -/
def closing (o : Layout) (level : Nat) (members : List Rule) : Junction → List Char
  | .quota _ _ => [']', ')']
  | .connective op =>
    (if o.spreads (.connective op) members then o.newline level else []) ++ [')']

/-- The comment for a diagnostic record right behind its rule, with the rest of the line free. -/
def inlineRecord (o : Layout) (path : List Nat) (level : Nat) : Option Metadata → List Char
  | none => []
  | some m =>
    if o.withRecords && o.place = .inline then
      ' ' :: ((⟨path, m⟩ : Dsl.PathRecord).render ++ o.newline level)
    else []

mutual

/-- The text of the rule at a path, inside `level` spread groups. -/
def lay (o : Layout) (path : List Nat) (level : Nat) : Rule → List Char
  | .atom a note => a.render ++ o.inlineRecord path level note
  | .scope s body note =>
    s.render (lay o (path ++ [0]) level body) ++ o.inlineRecord path level note
  | .junction j members note =>
    let inner := if o.spreads j members then level + 1 else level
    o.opening level members j ++
      layMembers o path inner (o.separator inner j) 0 members ++
      o.closing level members j ++ o.inlineRecord path level note

/-- The texts of members from position `i` on, each but the first after a separator. -/
def layMembers (o : Layout) (path : List Nat) (level : Nat) (separator : List Char) (i : Nat) :
    List Rule → List Char
  | [] => []
  | r :: rs =>
    (if i = 0 then [] else separator) ++ lay o (path ++ [i]) level r ++
      layMembers o path level separator (i + 1) rs

end

end Layout

/-! ### Diagnostic records -/

namespace Rule

/-- A record with its path, if there is one. -/
def pathRecord (path : List Nat) (note : Option Metadata) : List Dsl.PathRecord :=
  (note.map fun m => (⟨path, m⟩ : Dsl.PathRecord)).toList

mutual

/-- The diagnostic records of the rule at a path, those of members before their rule's. -/
def records (path : List Nat) : Rule → List Dsl.PathRecord
  | .atom _ note => pathRecord path note
  | .scope _ body note => records (path ++ [0]) body ++ pathRecord path note
  | .junction _ members note => recordsFrom path 0 members ++ pathRecord path note

/-- The diagnostic records of members from position `i` on. -/
def recordsFrom (path : List Nat) (i : Nat) : List Rule → List Dsl.PathRecord
  | [] => []
  | r :: rs => records (path ++ [i]) r ++ recordsFrom path (i + 1) rs

end

end Rule

namespace Layout

/-- The comments on lines of their own. -/
def detached (o : Layout) (r : Rule) : List (List Char) :=
  if o.withRecords && o.place != .inline then (r.records []).map Dsl.PathRecord.render else []

/-- Lines with a line feed between them. -/
def lines : List (List Char) → List Char
  | [] => []
  | [l] => l
  | l :: m :: ls => l ++ '\n' :: lines (m :: ls)

/-- The whole text of a rule. -/
def render (o : Layout) (r : Rule) : List Char :=
  let body := o.lay [] 0 r
  match o.detached r with
  | [] => body
  | records =>
    match o.place with
    | .before => lines records ++ '\n' :: body
    | _ => body ++ '\n' :: lines records

end Layout

namespace Dsl

/-- Writes a rule, unless it has too many levels or something in it cannot be written. -/
def write (r : Rule) (o : Layout) : Except RenderError (List Char) :=
  if nestingLimit < r.depth then .error (.tooDeep r.depth)
  else do
    r.check
    return o.render r

/-- Writes a rule as a string. -/
def print (r : Rule) (o : Layout) : Except RenderError String :=
  (write r o).map String.ofList

end Dsl

end Rulebook
