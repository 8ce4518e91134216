import Rulebook.Editor.Session

/-!
# Rulebook — Proofs — Editor — Writes

What the steps of a command come to.  Each edit looks at the document first, and breaks off or ends
before its first write if there is something against it or nothing to be done; and it writes step by
step what, put together, is one new document.  So the new document, or what stands in its place, is
a function of the document alone (`Document.add` and the like), and what is proved about the edits
is proved about these.

* `on_add`, `on_update`, `on_remove`, `on_move`, `on_reorder`, `on_select`, `on_load`: the steps of
  an edit leave a committed document, or the editor as it was.
* `on_undo`, `on_redo`, `on_unsubscribe`: the same of the other commands with something to do or
  not.
-/

namespace Rulebook

/-! ### Documents -/

namespace Document

/-- Adds a node under an id, as the last child of a parent or the last root. -/
def add (d : Document) (id : String) (new : NewNode) (parent : Option String) :
    Except EditError Document :=
  if d.nodes.contains id then .error (.duplicateId id)
  else
    match parent.filter fun p => !d.nodes.contains p with
    | some p => .error (.unknownParent p)
    | none => .ok ((d.attach id parent none).put id (new.node id parent))

/-- Changes a node, if it exists. -/
def update (d : Document) (id : String) (patch : Patch) : Option Document :=
  (d.nodes.get? id).map fun n => d.put id (patch.apply n)

/-- Drops nodes, and the selection with the selected one. -/
def drop (d : Document) (ids : List String) : Document := (d.erase ids).deselect ids

/-- Removes a node, if it exists, and everything below it. -/
def remove (d : Document) (id : String) : Option Document :=
  (d.nodes.get? id).map fun n =>
    let detached := d.detach id n.parent
    detached.drop (detached.nodes.subtree id)

/-- Moves a node to another parent, or among the roots.  Nothing is done if there is no such node
or if that is its parent already. -/
def move (d : Document) (id : String) (parent : Option String) (index : Option Nat) :
    Except EditError (Option Document) :=
  match d.nodes.get? id with
  | none => .ok none
  | some n =>
    if n.parent = parent then .ok none
    else
      match parent.filter fun p => !d.nodes.contains p with
      | some p => .error (.unknownParent p)
      | none =>
        match parent.filter fun p => (d.nodes.subtree id).contains p with
        | some p => .error (.wouldCreateCycle id p)
        | none => .ok (some (((d.detach id n.parent).attach id parent index).modify id
            fun n => { n with parent := parent }))

/-- Moves a node to another place among its siblings, the last one if there are not that many.
Nothing is done if there is no such node or if that is its place already. -/
def reorder (d : Document) (id : String) (index : Nat) : Option Document := do
  let n ← d.nodes.get? id
  let siblings := d.siblings n.parent
  let place ← siblings.findIdx? (· = id)
  let target := min index (siblings.length - 1)
  if target = place then none
  else some ((d.detach id n.parent).attach id n.parent (some target))

/-- Selects a node, or nothing. -/
def select (d : Document) (id : Option String) : Except EditError Document :=
  match id.filter fun s => !d.nodes.contains s with
  | some s => .error (.unknownNode s)
  | none => .ok { d with selected := id }

/-- Adds trees as the last roots. -/
def append (d : Document) (trees : List Node) : Document :=
  { d with
    nodes := d.nodes.addTrees trees
    roots := d.roots ++ trees.map Node.id }

@[simp] theorem append_nil (d : Document) : d.append [] = d := by
  simp [append, Forest.addTrees]

/-- Trees are planted one after the other. -/
@[simp] theorem append_cons (d : Document) (t : Node) (ts : List Node) :
    d.append (t :: ts) = (d.plant t).append ts := by
  simp [append, plant, Forest.addTrees]

end Document

/-! ### Editors -/

namespace Editor

variable (e : Editor)

namespace Steps

variable {α β : Type}

@[simp] theorem on_pure (a : α) : (pure a : Steps α).on e = (a, e) := rfl

@[simp] theorem on_get : (get : Steps Editor).on e = (e, e) := rfl

/-- A write changes the state and yields nothing. -/
@[simp] theorem on_modify (f : Editor → Editor) : (modify f : Steps PUnit).on e = ((), f e) := rfl

/-- One operation after the other: the second one starts in the state that the first one leaves. -/
@[simp] theorem on_bind (s : Steps α) (f : α → Steps β) :
    (s >>= f).on e = (f (s.on e).1).on (s.on e).2 := rfl

/-- Going on with a value changes no state. -/
@[simp] theorem on_map (s : Steps α) (f : α → β) :
    (f <$> s).on e = (f (s.on e).1, (s.on e).2) := rfl

end Steps

namespace Attempt

variable {ε α β : Type}

@[simp] theorem on_pure (a : α) : (pure a : Attempt ε α).on e = (.ok a, e) := rfl

/-- An attempt that stops leaves the state as it is when it stops. -/
@[simp] theorem on_throw (reason : ε) :
    (throw reason : Attempt ε α).on e = (.error reason, e) := rfl

@[simp] theorem on_get : (get : Attempt ε Editor).on e = (.ok e, e) := rfl

@[simp] theorem on_modify (f : Editor → Editor) :
    (modify f : Attempt ε PUnit).on e = (.ok (), f e) := rfl

/-- An operation that cannot stop is an attempt that does not. -/
@[simp] theorem on_steps (s : Steps α) :
    (liftM s : Attempt ε α).on e = (.ok (s.on e).1, (s.on e).2) := rfl

/-- What is worked out without the state stops an attempt, or goes on in the same state. -/
@[simp] theorem on_except (x : Except ε α) : (liftM x : Attempt ε α).on e = (x, e) := rfl

/-- An attempt goes on where it has not been broken off, with what has been written. -/
@[simp] theorem on_bind (a : Attempt ε α) (f : α → Attempt ε β) :
    (a >>= f).on e = match a.on e with
      | (.error reason, e') => (.error reason, e')
      | (.ok x, e') => (f x).on e' := by
  show (a >>= f).run.run e = match a.run.run e with
    | (.error reason, e') => (.error reason, e')
    | (.ok x, e') => (f x).run.run e'
  rw [ExceptT.run_bind, StateT.run_bind]
  obtain ⟨x | x, e'⟩ := a.run.run e <;> rfl

@[simp] theorem on_map (a : Attempt ε α) (f : α → β) :
    (f <$> a).on e = ((a.on e).1.map f, (a.on e).2) := by
  rw [map_eq_pure_bind, on_bind]
  obtain ⟨x | x, e'⟩ := a.on e <;> rfl

end Attempt

/-- An edit changes the document and nothing else. -/
@[simp] theorem on_edit (f : Document → Document) :
    (edit f).on e = ((), { e with document := f e.document }) := rfl

/-! ### Adding -/

/-- Adding a node makes no write before the last check, so that a refusal leaves the state alone. -/
theorem on_add (id : Option String) (new : NewNode) (parent : Option String) :
    (add id new parent).on e =
      match e.document.add (e.chooseId id).1 new parent with
      | .error reason => (.error reason, e)
      | .ok d => (.ok (e.chooseId id).1,
          { e with document := d, nextId := (e.chooseId id).2 }.commit "add node" false) := by
  rw [Document.add]
  by_cases known : e.document.nodes.contains (e.chooseId id).1 = true
  · simp [add, known]
  · cases parent with
    | none => simp [add, known, Except.map]
    | some p =>
        by_cases there : e.document.nodes.contains p = true
        · simp [add, known, there, Option.filter_some, Except.map]
        · simp [add, known, there, Option.filter_some]

/-! ### Edits with something to do or not -/

/-- What an edit leaves where it may have nothing to do: the editor as it was, or a document that
is committed. -/
def settle (description : String) : Option Document → Bool × Editor
  | none => (false, e)
  | some d => (true, { e with document := d }.commit description false)

/-- What is said of an edit is whether there was anything to do. -/
@[simp] theorem settle_done (description : String) (o : Option Document) :
    (e.settle description o).1 = o.isSome := by
  cases o <;> rfl

/-- Updating a node is a reading of the document, which is then committed if there is such a node.
-/
theorem on_update (id : String) (patch : Patch) :
    (update id patch).on e = e.settle "update node" (e.document.update id patch) := by
  rw [Document.update]
  cases h : e.document.nodes.get? id with
  | none => simp [update, h, settle]
  | some n => simp [update, h, settle]

/-- Removing a node looks the node up first, and commits what is left. -/
theorem on_remove (id : String) :
    (remove id).on e = e.settle "remove node" (e.document.remove id) := by
  rw [Document.remove]
  cases h : e.document.nodes.get? id with
  | none => simp [remove, h, settle]
  | some n => simp [remove, h, settle, Document.drop]

/-- Moving a node among its siblings writes nothing until it has a place that is not its own. -/
theorem on_reorder (id : String) (index : Nat) :
    (reorder id index).on e = e.settle "reorder node" (e.document.reorder id index) := by
  rw [Document.reorder]
  cases h : e.document.nodes.get? id with
  | none => simp [reorder, h, settle]
  | some n =>
      cases hp : (e.document.siblings n.parent).findIdx? (· = id) with
      | none => simp [reorder, h, hp, settle]
      | some place =>
          by_cases same : min index ((e.document.siblings n.parent).length - 1) = place
          · simp [reorder, h, hp, same, settle]
          · simp [reorder, h, hp, same, settle]

/-- Moving a node makes its checks first: whether there is something to move, whether the parent is
known, and whether it is below the node. -/
theorem on_move (id : String) (parent : Option String) (index : Option Nat) :
    (move id parent index).on e =
      match e.document.move id parent index with
      | .error reason => (.error reason, e)
      | .ok moved => (.ok (e.settle "move node" moved).1, (e.settle "move node" moved).2) := by
  rw [Document.move]
  cases h : e.document.nodes.get? id with
  | none => simp [move, h, settle]
  | some n =>
      by_cases same : n.parent = parent
      · simp [move, h, same, settle]
      · cases parent with
        | none => simp [move, h, same, Except.map, settle]
        | some p =>
            by_cases there : e.document.nodes.contains p = true
            · by_cases below : p ∈ e.document.nodes.subtree id
              · simp [move, h, same, there, below, Option.filter_some]
              · simp [move, h, same, there, below, Option.filter_some, Except.map, settle]
            · simp [move, h, same, there, Option.filter_some]

/-! ### Selecting -/

/-- A selection of what is there already writes nothing. -/
theorem on_select (id : Option String) :
    (select id).on e =
      match e.document.select id with
      | .error reason => (.error reason, e)
      | .ok d => (.ok (), if e.document.selected = id then e
          else { e with document := d }.emit .stateChanged) := by
  rw [Document.select]
  cases id with
  | none =>
      by_cases same : e.document.selected = none
      · simp [select, same]
      · simp [select, same]
  | some s =>
      by_cases there : e.document.nodes.contains s = true
      · by_cases same : e.document.selected = some s
        · simp [select, same, there, Option.filter_some]
        · simp [select, same, there, Option.filter_some]
      · simp [select, there, Option.filter_some]

/-! ### Loading -/

/-- One tree after the other becomes a root. -/
theorem on_plant (trees : List Node) :
    (plant trees).on e = ((), { e with document := e.document.append trees }) := by
  induction trees generalizing e with
  | nil => simp [plant]
  | cons tree trees ih =>
      have first : plant (tree :: trees) =
          edit (fun d => d.plant tree) >>= fun _ => plant trees := rfl
      rw [first, Steps.on_bind, on_edit, ih, Document.append_cons]

/-- An import reads all rules and draws all trees before the first write. -/
theorem on_load (content : String) (options : ImportOptions) :
    (load content options).on e =
      match Transfer.rulesOf options.format content with
      | .error reason => (.error reason, e)
      | .ok [] => (.ok none, e)
      | .ok (rule :: rules) =>
        let kept := if options.merge then e.document else .empty
        match Transfer.treesOf (e.supply kept) (rule :: rules) with
        | .error reason => (.error (.conversion reason), e)
        | .ok (trees, ids) => (.ok (trees.head?.map Node.id),
            { e with document := kept.append trees, nextId := ids.next }.commit "import"
              !options.merge) := by
  cases read : Transfer.rulesOf options.format content with
  | error reason => simp [load, read]
  | ok rules =>
      cases rules with
      | nil => simp [load, read]
      | cons rule rules =>
          dsimp only
          cases drawn : Transfer.treesOf
              (e.supply (if options.merge then e.document else .empty)) (rule :: rules) with
          | error reason => simp [load, read, drawn]
          | ok trees =>
              cases merge : options.merge with
              | true =>
                  rw [merge, if_pos rfl] at drawn
                  simp [load, read, drawn, merge, on_plant, Except.map]
              | false =>
                  rw [merge, if_neg Bool.false_ne_true] at drawn
                  simp [load, read, drawn, merge, on_plant, Except.map]

/-! ### Other commands with something to do or not -/

/-- Goes to a state of the history. -/
def visit (h : History Snapshot) : Editor := { e with history := h }.restore h.current

/-- What a step through the history leaves. -/
def resume : Option (History Snapshot) → Bool × Editor
  | none => (false, e)
  | some h => (true, e.visit h)

/-- What is said of a step in time is whether there was one to take. -/
@[simp] theorem resume_done (o : Option (History Snapshot)) : (e.resume o).1 = o.isSome := by
  cases o <;> rfl

/-- An undo is a step to the state before, if there is one. -/
theorem on_undo : undo.on e = e.resume e.history.undo? := by
  cases h : e.history.undo? with
  | none => simp [undo, travel, h, resume]
  | some past => simp [undo, travel, h, resume, visit]

/-- A redo is a step to the state after, if there is one. -/
theorem on_redo : redo.on e = e.resume e.history.redo? := by
  cases h : e.history.redo? with
  | none => simp [redo, travel, h, resume]
  | some later => simp [redo, travel, h, resume, visit]

/-- The subscribers are written before it is known whether one is gone. -/
theorem on_unsubscribe (subscriber : Nat) :
    (unsubscribe subscriber).on e =
      if subscriber ∈ e.subscribers then
        (true, { e with subscribers := e.subscribers.filter fun s => s != subscriber })
      else (false, e) := by
  split
  · rename_i there
    have fewer : (e.subscribers.filter fun s => s != subscriber).length ≠ e.subscribers.length :=
      Nat.ne_of_lt (List.length_filter_lt_length_iff_exists.mpr ⟨subscriber, there, by simp⟩)
    simp [unsubscribe, fewer]
  · rename_i gone
    have same : (e.subscribers.filter fun s => s != subscriber) = e.subscribers :=
      List.filter_eq_self.mpr fun s hs => by simpa using ne_of_mem_of_not_mem hs gone
    simp [unsubscribe, same]

/-! ### Commands

The answer to a command is made of what its steps give, and the editor behind it is what they leave.
-/

theorem perform_add (id : Option String) (new : NewNode) (parent : Option String) :
    e.perform (.add id new parent) =
      (answer .edit .id ((add id new parent).on e).1, ((add id new parent).on e).2) := rfl

theorem perform_update (id : String) (patch : Patch) : e.perform (.update id patch) =
    (.changed ((update id patch).on e).1, ((update id patch).on e).2) := rfl

theorem perform_remove (id : String) :
    e.perform (.remove id) = (.changed ((remove id).on e).1, ((remove id).on e).2) := rfl

theorem perform_move (id : String) (parent : Option String) (index : Option Nat) :
    e.perform (.move id parent index) =
      (answer .edit .changed ((move id parent index).on e).1,
        ((move id parent index).on e).2) := rfl

theorem perform_reorder (id : String) (index : Nat) : e.perform (.reorder id index) =
    (.changed ((reorder id index).on e).1, ((reorder id index).on e).2) := rfl

theorem perform_select (id : Option String) : e.perform (.select id) =
    (answer .edit (fun _ => .nothing) ((select id).on e).1, ((select id).on e).2) := rfl

theorem perform_undo : e.perform .undo = (.changed (undo.on e).1, (undo.on e).2) := rfl

theorem perform_redo : e.perform .redo = (.changed (redo.on e).1, (redo.on e).2) := rfl

theorem perform_load (content : String) (options : ImportOptions) :
    e.perform (.load content options) =
      (answer .load (fun root => root.elim .nothing .id) ((load content options).on e).1,
        ((load content options).on e).2) := rfl

theorem perform_unsubscribe (subscriber : Nat) : e.perform (.unsubscribe subscriber) =
    (.changed ((unsubscribe subscriber).on e).1, ((unsubscribe subscriber).on e).2) := rfl

end Editor

end Rulebook
