import Rulebook.Editor.Diagnosis
import Rulebook.Editor.History

/-!
# Rulebook — Editor — Session

The state of an editor and its commands.  A command is a sequence of steps that read the state and
write it, in the monad of states; what has been written stays, also where a later step refuses to go
on.  A command that has changed the document commits it: it records the document in the history,
moves the phase on, tells the subscribers and, if that is wanted, validates.
-/

namespace Rulebook

/-- A document as it was, and what had been done to it. -/
structure Snapshot where
  document : Document
  description : String

/-- The state of an editor. -/
structure Editor where
  settings : Editor.Settings
  document : Document
  history : History Snapshot
  /-- There are changes that are not saved. -/
  dirty : Bool
  phase : Phase
  view : View
  /-- What the last validation found. -/
  diagnostics : List Diagnostic
  /-- The text of all rules at the last validation. -/
  text : String
  subscribers : List Nat
  /-- The subscribers that there have been. -/
  subscriptions : Nat
  /-- What has been sent to subscribers and is not collected, in order. -/
  outbox : List (Nat × Event)
  /-- The number from which on new ids are drawn. -/
  nextId : Nat

namespace Editor

/-- An editor of nothing. -/
def new (s : Settings) : Editor where
  settings := s
  document := .empty
  history := .start s.maxHistory ⟨.empty, "initial"⟩
  dirty := false
  phase := .empty
  view := .nodes
  diagnostics := []
  text := ""
  subscribers := []
  subscriptions := 0
  outbox := []
  nextId := 1

/-! ### Events and phases -/

/-- Sends an event to every subscriber. -/
def emit (e : Editor) (event : Event) : Editor :=
  { e with outbox := e.outbox ++ e.subscribers.map fun s => (s, event) }

/-- Enters a phase. -/
def enter (e : Editor) (phase : Phase) : Editor :=
  if e.phase = phase then e
  else { e with phase := phase }.emit (.phaseChanged e.phase phase)

/-- Adds a subscriber, and numbers it. -/
def subscribe (e : Editor) : Nat × Editor :=
  (e.subscriptions,
    { e with
      subscribers := e.subscribers ++ [e.subscriptions]
      subscriptions := e.subscriptions + 1 })

/-- Takes the events out of the outbox. -/
def collect (e : Editor) : List (Nat × Event) × Editor := (e.outbox, { e with outbox := [] })

/-! ### Validation -/

/-- Diagnoses the document. -/
def validate (e : Editor) : Editor :=
  let found := diagnose e.settings e.document
  let told := { e with diagnostics := found.diagnostics, text := found.text }
  let entered := if e.document.nodes.isEmpty then told else told.enter .validated
  entered.emit (.validationCompleted found.errorCount found.warningCount)

/-! ### Changes -/

/-- The phase after a change; `loaded` is a change of everything. -/
def phaseAfter (e : Editor) (loaded : Bool) : Phase :=
  if e.document.nodes.isEmpty then .empty
  else if loaded || e.phase = .empty then .populated
  else .dirty

/-- What follows a change of the document. -/
def afterChange (e : Editor) (loaded : Bool) : Editor :=
  let entered := { e with dirty := true }.enter (e.phaseAfter loaded)
  let told := entered.emit .stateChanged
  if e.settings.autoValidate then told.validate else told

/-- Records what the document has become, and goes on as after any change. -/
def commit (e : Editor) (description : String) (loaded : Bool) : Editor :=
  { e with history := e.history.record ⟨e.document, description⟩ }.afterChange loaded

/-- Goes back to a document as it was. -/
def restore (e : Editor) (s : Snapshot) : Editor :=
  { e with document := s.document }.afterChange false

/-- Takes the present state as saved. -/
def markClean (e : Editor) : Editor :=
  let saved := { e with dirty := false }
  if e.document.nodes.isEmpty then saved else saved.enter .clean

/-- Shows another representation. -/
def setView (e : Editor) (view : View) : Editor :=
  if e.view = view then e else { e with view := view }.emit .stateChanged

/-! ### Steps -/

/-- Steps that read the state of an editor and write it. -/
abbrev Steps (α : Type) := StateM Editor α

/-- What steps give, and the editor that they leave. -/
def Steps.on (s : Steps α) (e : Editor) : α × Editor := s.run e

/-- Steps that may be broken off, with a reason.  What has been written by then stays written. -/
abbrev Attempt (ε α : Type) := ExceptT ε Steps α

/-- What an attempt gives, and the editor that it leaves. -/
def Attempt.on (a : Attempt ε α) (e : Editor) : Except ε α × Editor := Steps.on a.run e

/-- Writes the document. -/
def edit (f : Document → Document) : Steps Unit :=
  modify fun e => { e with document := f e.document }

/-- Moves the history to another of its states, if there is one, and gives what is there. -/
def travel (next? : History Snapshot → Option (History Snapshot)) :
    Steps (Option Snapshot) := do
  let some history := next? (← get).history | return none
  modify fun e => { e with history := history }
  return some history.current

/-- Goes back to the state before, if there is one. -/
def undo : Steps Bool := do
  let some snapshot ← travel History.undo? | return false
  modify fun e => e.restore snapshot
  return true

/-- Goes on to the state after, if there is one. -/
def redo : Steps Bool := do
  let some snapshot ← travel History.redo? | return false
  modify fun e => e.restore snapshot
  return true

/-- Removes a subscriber, if it is one. -/
def unsubscribe (subscriber : Nat) : Steps Bool := do
  let before := (← get).subscribers.length
  modify fun e => { e with subscribers := e.subscribers.filter fun s => s != subscriber }
  return (← get).subscribers.length != before

/-! ### Edits -/

/-- The ids that are not used in a document. -/
def supply (e : Editor) (d : Document) : IdSupply := ⟨e.nextId, d.nodes.keys⟩

/-- The id that is given, or else a new one, and the number from which on ids are new then. -/
def chooseId (e : Editor) : Option String → String × Nat
  | some id => (id, e.nextId)
  | none =>
    let (id, ids) := (e.supply e.document).draw
    (id, ids.next)

/-- Adds a node, under a given id or a new one, as the last child of a parent or the last root.  A
number that has been drawn for the id counts as used from the first write on. -/
def add (id : Option String) (new : NewNode) (parent : Option String) :
    Attempt EditError String := do
  let e ← get
  let (id, next) := e.chooseId id
  if e.document.nodes.contains id then throw (.duplicateId id)
  if let some p := parent then
    unless e.document.nodes.contains p do throw (.unknownParent p)
  modify fun e => { e with nextId := next }
  edit fun d => d.attach id parent none
  edit fun d => d.put id (new.node id parent)
  modify fun e => e.commit "add node" false
  return id

/-- Changes a node, if it exists. -/
def update (id : String) (patch : Patch) : Steps Bool := do
  let some n := (← get).document.nodes.get? id | return false
  edit fun d => d.put id (patch.apply n)
  modify fun e => e.commit "update node" false
  return true

/-- Removes a node, if it exists, and everything below it. -/
def remove (id : String) : Steps Bool := do
  let some n := (← get).document.nodes.get? id | return false
  edit fun d => d.detach id n.parent
  let gone := (← get).document.nodes.subtree id
  edit fun d => d.erase gone
  edit fun d => d.deselect gone
  modify fun e => e.commit "remove node" false
  return true

/-- Moves a node to another parent, or among the roots.  Nothing is done if there is no such node
or if that is its parent already. -/
def move (id : String) (parent : Option String) (index : Option Nat) :
    Attempt EditError Bool := do
  let d := (← get).document
  let some n := d.nodes.get? id | return false
  if n.parent = parent then return false
  if let some p := parent then
    unless d.nodes.contains p do throw (.unknownParent p)
    if (d.nodes.subtree id).contains p then throw (.wouldCreateCycle id p)
  edit fun d => d.detach id n.parent
  edit fun d => d.attach id parent index
  edit fun d => d.modify id fun n => { n with parent := parent }
  modify fun e => e.commit "move node" false
  return true

/-- Moves a node to another place among its siblings, the last one if there are not that many.
Nothing is done if there is no such node or if that is its place already. -/
def reorder (id : String) (index : Nat) : Steps Bool := do
  let d := (← get).document
  let some n := d.nodes.get? id | return false
  let siblings := d.siblings n.parent
  let some place := siblings.findIdx? (· = id) | return false
  let target := min index (siblings.length - 1)
  if target = place then return false
  edit fun d => d.detach id n.parent
  edit fun d => d.attach id n.parent (some target)
  modify fun e => e.commit "reorder node" false
  return true

/-- Selects a node, or nothing. -/
def select (id : Option String) : Attempt EditError Unit := do
  let d := (← get).document
  if let some s := id then
    unless d.nodes.contains s do throw (.unknownNode s)
  unless d.selected = id do
    edit fun d => { d with selected := id }
    modify fun e => e.emit .stateChanged

/-- Adds trees as the last roots, one after the other. -/
def plant (trees : List Node) : Steps Unit :=
  trees.forM fun tree => edit fun d => d.plant tree

/-- Loads rules from a text, and gives the id of the first new root if there is any. -/
def load (content : String) (options : ImportOptions) :
    Attempt ImportError (Option String) := do
  let rules ← Transfer.rulesOf options.format content
  if rules.isEmpty then return none
  let e ← get
  let kept := if options.merge then e.document else .empty
  let (trees, ids) ← match Transfer.treesOf (e.supply kept) rules with
    | .ok drawn => pure drawn
    | .error reason => throw (.conversion reason)
  modify fun e => { e with nextId := ids.next }
  unless options.merge do edit fun _ => .empty
  plant trees
  modify fun e => e.commit "import" !options.merge
  return trees.head?.map Node.id

/-- The text of the document. -/
def write (e : Editor) (format : Format) : Except ExportError String :=
  Transfer.write e.document e.settings.roundTrip.layout format

/-! ### Commands -/

/-- What an editor can be asked. -/
inductive Command where
  | add (id : Option String) (new : NewNode) (parent : Option String)
  | update (id : String) (patch : Patch)
  | remove (id : String)
  | move (id : String) (parent : Option String) (index : Option Nat)
  | reorder (id : String) (index : Nat)
  | select (id : Option String)
  | undo
  | redo
  | markClean
  | validate
  | setView (view : View)
  | load (content : String) (options : ImportOptions)
  | write (format : Format)
  | tree (id : String)
  | node (id : String)
  | subscribe
  | unsubscribe (subscriber : Nat)

/-- Why a command is refused. -/
inductive Refusal where
  | edit (e : EditError)
  | load (e : ImportError)
  | write (e : ExportError)
  | structural (e : StructureError)

/-- What a command answers. -/
inductive Outcome where
  /-- There is nothing to say. -/
  | nothing
  /-- Whether something was done. -/
  | changed (b : Bool)
  | id (id : String)
  | count (n : Nat)
  | text (s : String)
  | node (n : Node)
  | refused (r : Refusal)

/-- The outcome of what may be refused. -/
def answer (refusal : ε → Refusal) (outcome : α → Outcome) : Except ε α → Outcome
  | .error reason => .refused (refusal reason)
  | .ok a => outcome a

/-- The steps of a command. -/
def steps : Command → Steps Outcome
  | .add id new parent => return answer .edit .id (← (add id new parent).run)
  | .update id patch => return .changed (← update id patch)
  | .remove id => return .changed (← remove id)
  | .move id parent index => return answer .edit .changed (← (move id parent index).run)
  | .reorder id index => return .changed (← reorder id index)
  | .select id => return answer .edit (fun _ => .nothing) (← (select id).run)
  | .undo => return .changed (← undo)
  | .redo => return .changed (← redo)
  | .markClean => do
    modify markClean
    return .nothing
  | .validate => do
    modify validate
    return .count (← get).diagnostics.length
  | .setView view => do
    modify fun e => e.setView view
    return .nothing
  | .load content options =>
    return answer .load (fun root => root.elim .nothing .id) (← (load content options).run)
  | .write format => return answer .write .text ((← get).write format)
  | .tree id => return answer .structural .node ((← get).document.nodes.build id)
  | .node id => return ((← get).document.nodes.get? id).elim .nothing .node
  | .subscribe => return .count (← modifyGet subscribe)
  | .unsubscribe subscriber => return .changed (← unsubscribe subscriber)

/-- Carries a command out. -/
def perform (e : Editor) (c : Command) : Outcome × Editor := (steps c).on e

/-- Carries commands out, one after the other. -/
def run (e : Editor) (commands : List Command) : Editor :=
  commands.foldl (fun e c => (e.perform c).2) e

end Editor

end Rulebook
