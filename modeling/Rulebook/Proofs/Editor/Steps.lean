import Rulebook.Proofs.Editor.Writes
import Rulebook.Proofs.Node.Supply

/-!
# Rulebook — Proofs — Editor — Steps

What a command can do to an editor.  There are ten things that it can do (`Step`), and the steps of
every command come to one of them (`step_perform`): invariants of an editor are proved one by one
for these.

The first of them is nothing at all.  That is what a command comes to that is refused or has nothing
to do (`perform_of_isIdle`), although its steps could have written by then: whatever speaks against
a command is found before the first write.
-/

namespace Rulebook.Editor

/-- Whether a command changes the document, if it is carried out. -/
def Command.isEdit : Command → Bool
  | .add _ _ _ | .update _ _ | .remove _ | .move _ _ _ | .reorder _ _ | .load _ _ => true
  | _ => false

/-- Whether a command goes to another state of the history, if it is carried out. -/
def Command.isTravel : Command → Bool
  | .undo | .redo => true
  | _ => false

/-- Whether an outcome says that something was done. -/
def Outcome.isDone : Outcome → Bool
  | .changed done => done
  | .id _ => true
  | _ => false

/-- Whether a command with that outcome has not been carried out: it was refused, there was nothing
to be done, or it was a question only. -/
def Command.isIdle : Command → Outcome → Bool
  | .write _, _ | .tree _, _ | .node _, _ => true
  | _, .refused _ => true
  | _, .changed done => !done
  | .load _ _, .nothing => true
  | _, _ => false

/-- What one command does to an editor. -/
inductive Step (e : Editor) : Command → Outcome → Editor → Prop where
  | idle {c : Command} {o : Outcome} (ho : o.isDone = false) : Step e c o e
  /-- There is a new document.  The ids of its new nodes have been drawn. -/
  | edit {c : Command} {o : Outcome} (hc : c.isEdit = true) (ho : o.isDone = true) (next : Nat)
      (d : Document) (description : String) (loaded : Bool) :
      Step e c o ({ e with document := d, nextId := next }.commit description loaded)
  | undo {past : History Snapshot} (h : e.history.undo? = some past) :
      Step e .undo (.changed true) (e.visit past)
  | redo {later : History Snapshot} (h : e.history.redo? = some later) :
      Step e .redo (.changed true) (e.visit later)
  | select (id : Option String) : Step e (.select id) .nothing
      ({ e with document := { e.document with selected := id } }.emit .stateChanged)
  | markClean : Step e .markClean .nothing e.markClean
  | validate : Step e .validate (.count e.validate.diagnostics.length) e.validate
  | setView (view : View) : Step e (.setView view) .nothing (e.setView view)
  | subscribe : Step e .subscribe (.count e.subscriptions) e.subscribe.2
  | unsubscribe (subscriber : Nat) : Step e (.unsubscribe subscriber) (.changed true)
      { e with subscribers := e.subscribers.filter fun s => s != subscriber }

variable {e : Editor}

/-- An edit leaves what is settled by it. -/
theorem step_settle {c : Command} (hc : c.isEdit = true) (description : String)
    (o : Option Document) :
    Step e c (.changed (e.settle description o).1) (e.settle description o).2 := by
  cases o with
  | none => exact .idle rfl
  | some d => exact .edit hc rfl e.nextId d description false

/-- **Adding a node makes one step or none**: it commits a node with a new id, or leaves everything.
-/
theorem step_add (id : Option String) (new : NewNode) (parent : Option String) :
    Step e (.add id new parent) (e.perform (.add id new parent)).1
      (e.perform (.add id new parent)).2 := by
  rw [perform_add, on_add]
  cases e.document.add (e.chooseId id).1 new parent with
  | error reason => exact .idle rfl
  | ok d => exact .edit rfl rfl (e.chooseId id).2 d "add node" false

/-- Moving a node commits the move, or leaves everything. -/
theorem step_move (id : String) (parent : Option String) (index : Option Nat) :
    Step e (.move id parent index) (e.perform (.move id parent index)).1
      (e.perform (.move id parent index)).2 := by
  rw [perform_move, on_move]
  cases e.document.move id parent index with
  | error reason => exact .idle rfl
  | ok moved => exact step_settle rfl "move node" moved

/-- A selection is the only edit that no history records. -/
theorem step_select (id : Option String) :
    Step e (.select id) (e.perform (.select id)).1 (e.perform (.select id)).2 := by
  rw [perform_select, on_select, Document.select]
  cases id.filter fun s => !e.document.nodes.contains s with
  | some s => exact .idle rfl
  | none =>
      dsimp only
      split
      · exact .idle rfl
      · exact .select id

/-- **An import commits all its trees or none of them.** -/
theorem step_load (content : String) (options : ImportOptions) :
    Step e (.load content options) (e.perform (.load content options)).1
      (e.perform (.load content options)).2 := by
  rw [perform_load, on_load]
  cases Transfer.rulesOf options.format content with
  | error reason => exact .idle rfl
  | ok rules =>
      cases rules with
      | nil => exact .idle rfl
      | cons rule rules =>
          dsimp only
          cases drawn : Transfer.treesOf
              (e.supply (if options.merge then e.document else .empty)) (rule :: rules) with
          | error reason => exact .idle rfl
          | ok found =>
              obtain ⟨trees, ids⟩ := found
              obtain ⟨tree, u, rest, rfl, -⟩ := Transfer.exists_of_treesOf_cons drawn
              exact .edit rfl rfl ids.next _ "import" _

/-- Somebody who is no subscriber cannot be taken away. -/
theorem step_unsubscribe (subscriber : Nat) :
    Step e (.unsubscribe subscriber) (e.perform (.unsubscribe subscriber)).1
      (e.perform (.unsubscribe subscriber)).2 := by
  rw [perform_unsubscribe, on_unsubscribe]
  split
  · exact .unsubscribe subscriber
  · exact .idle rfl

/-- **Every command does one of the things that a command can do.** -/
theorem step_perform (e : Editor) (c : Command) : Step e c (e.perform c).1 (e.perform c).2 := by
  cases c with
  | add id new parent => exact step_add id new parent
  | update id patch =>
      rw [perform_update, on_update]
      exact step_settle rfl _ _
  | remove id =>
      rw [perform_remove, on_remove]
      exact step_settle rfl _ _
  | move id parent index => exact step_move id parent index
  | reorder id index =>
      rw [perform_reorder, on_reorder]
      exact step_settle rfl _ _
  | select id => exact step_select id
  | undo =>
      rw [perform_undo, on_undo]
      cases h : e.history.undo? with
      | none => exact .idle rfl
      | some past => exact .undo h
  | redo =>
      rw [perform_redo, on_redo]
      cases h : e.history.redo? with
      | none => exact .idle rfl
      | some later => exact .redo h
  | markClean => exact .markClean
  | validate => exact .validate
  | setView view => exact .setView view
  | load content options => exact step_load content options
  | write format =>
      refine .idle ?_
      show (answer Refusal.write Outcome.text (e.write format)).isDone = false
      cases e.write format <;> rfl
  | tree id =>
      refine .idle ?_
      show (answer Refusal.structural Outcome.node (e.document.nodes.build id)).isDone = false
      cases e.document.nodes.build id <;> rfl
  | node id =>
      refine .idle ?_
      show ((e.document.nodes.get? id).elim Outcome.nothing Outcome.node).isDone = false
      cases e.document.nodes.get? id <;> rfl
  | subscribe => exact .subscribe
  | unsubscribe subscriber => exact step_unsubscribe subscriber

/-- What every command preserves is preserved by a run. -/
theorem run_induction {P : Editor → Prop}
    (step : ∀ {e e' : Editor} {c : Command} {o : Outcome}, Step e c o e' → P e → P e') (h : P e)
    (commands : List Command) : P (e.run commands) := by
  induction commands generalizing e with
  | nil => exact h
  | cons c commands ih => exact ih (step (step_perform e c) h)

/-! ### Commands that are not carried out -/

/-- There is nothing to undo exactly if no undo is possible. -/
theorem canUndo_eq_false_iff {h : History Snapshot} : h.canUndo = false ↔ h.undo? = none := by
  simp [History.undo?, History.canUndo]

/-- There is nothing to redo exactly if no redo is possible. -/
theorem canRedo_eq_false_iff {h : History Snapshot} : h.canRedo = false ↔ h.redo? = none := by
  simp [History.redo?, History.canRedo]

/-- An edit that is done answers with an id, or that it is. -/
theorem isIdle_of_isDone {c : Command} {o : Outcome} (hc : c.isEdit = true)
    (ho : o.isDone = true) : c.isIdle o = false := by
  cases o with
  | changed done =>
      cases ho
      cases c <;> first | rfl | cases hc
  | id i => cases c <;> first | rfl | cases hc
  | nothing => cases ho
  | count n => cases ho
  | text s => cases ho
  | node n => cases ho
  | refused r => cases ho

/-- **An idle outcome comes with the state as it was**: no write precedes a refusal, nor the finding
that there is nothing to do. -/
theorem Step.eq_of_isIdle {e' : Editor} {c : Command} {o : Outcome} (h : Step e c o e')
    (hi : c.isIdle o = true) : e' = e := by
  cases h with
  | idle ho => rfl
  | edit hc ho next d description loaded =>
      rw [isIdle_of_isDone hc ho] at hi
      cases hi
  | undo h => cases hi
  | redo h => cases hi
  | select id => cases hi
  | markClean => cases hi
  | validate => cases hi
  | setView view => cases hi
  | subscribe => cases hi
  | unsubscribe subscriber => cases hi

/-- A drawn id is that of no node. -/
theorem contains_draw (e : Editor) :
    e.document.nodes.contains (e.supply e.document).draw.1 = false := by
  have hfree := (IdSupply.Draws.one (e.supply e.document)).free _ List.mem_cons_self
  cases hc : e.document.nodes.contains (e.supply e.document).draw.1 with
  | false => rfl
  | true => exact absurd (KeyMap.contains_iff_mem_keys.mp hc) hfree

/-- There is something against a command, or nothing to be done, or it is a question only. -/
def Futile (e : Editor) : Command → Prop
  | .add id _ parent =>
    (∃ i, id = some i ∧ e.document.nodes.contains i = true) ∨
      ∃ p, parent = some p ∧ e.document.nodes.contains p = false
  | .update id _ | .remove id => e.document.nodes.get? id = none
  | .move id parent _ => ∀ n, e.document.nodes.get? id = some n → n.parent = parent ∨
      ∃ p, parent = some p ∧
        (e.document.nodes.contains p = false ∨ p ∈ e.document.nodes.subtree id)
  | .reorder id index => ∀ n, e.document.nodes.get? id = some n →
      ∀ place, (e.document.siblings n.parent).findIdx? (· = id) = some place →
        min index ((e.document.siblings n.parent).length - 1) = place
  | .select id => ∃ s, id = some s ∧ e.document.nodes.contains s = false
  | .undo => e.history.canUndo = false
  | .redo => e.history.canRedo = false
  | .load content options => ∀ rules, Transfer.rulesOf options.format content = .ok rules →
      rules = [] ∨ ∃ reason, Transfer.treesOf
        (e.supply (if options.merge then e.document else .empty)) rules = .error reason
  | .write _ | .tree _ | .node _ => True
  | .unsubscribe subscriber => subscriber ∉ e.subscribers
  | .markClean | .validate | .setView _ | .subscribe => False

/-- Adding a node is refused for a known id or an unknown parent, and for nothing else. -/
theorem isIdle_add (id : Option String) (new : NewNode) (parent : Option String) :
    (Command.add id new parent).isIdle (e.perform (.add id new parent)).1 = true ↔
      e.Futile (.add id new parent) := by
  have taken : e.document.nodes.contains (e.chooseId id).1 = true ↔
      ∃ i, id = some i ∧ e.document.nodes.contains i = true := by
    cases id with
    | none => simp [chooseId, contains_draw]
    | some i => simp [chooseId]
  rw [perform_add, on_add, Document.add, Futile, ← taken]
  cases e.document.nodes.contains (e.chooseId id).1 with
  | true => simp [answer, Command.isIdle]
  | false =>
      cases parent with
      | none => simp [answer, Command.isIdle]
      | some p => cases there : e.document.nodes.contains p <;>
          simp [there, answer, Command.isIdle, Option.filter_some]

/-- A move comes to nothing for an unknown node, its own parent, an unknown parent, or one below it.
-/
theorem isIdle_move (id : String) (parent : Option String) (index : Option Nat) :
    (Command.move id parent index).isIdle (e.perform (.move id parent index)).1 = true ↔
      e.Futile (.move id parent index) := by
  rw [perform_move, on_move, Document.move, Futile]
  cases e.document.nodes.get? id with
  | none => simp [answer, Command.isIdle]
  | some n =>
      by_cases same : n.parent = parent
      · simp [same, answer, Command.isIdle]
      · cases parent with
        | none => simp [same, answer, Command.isIdle]
        | some p =>
            by_cases there : e.document.nodes.contains p = true
            · by_cases below : p ∈ e.document.nodes.subtree id
              · simp [same, there, below, answer, Command.isIdle, Option.filter_some]
              · simp [same, there, below, answer, Command.isIdle, Option.filter_some]
            · simp [same, there, answer, Command.isIdle, Option.filter_some]

/-- A reordering comes to nothing for an unknown node, or one that is at its place. -/
theorem isIdle_reorder (id : String) (index : Nat) :
    (Command.reorder id index).isIdle (e.perform (.reorder id index)).1 = true ↔
      e.Futile (.reorder id index) := by
  rw [perform_reorder, on_reorder, Document.reorder, Futile]
  cases e.document.nodes.get? id with
  | none => simp [Command.isIdle]
  | some n =>
      cases hp : (e.document.siblings n.parent).findIdx? (· = id) with
      | none => simp [hp, Command.isIdle]
      | some place => simp [hp, Command.isIdle]

/-- An import comes to nothing if there are no rules, or one of them cannot be read or drawn. -/
theorem isIdle_load (content : String) (options : ImportOptions) :
    (Command.load content options).isIdle (e.perform (.load content options)).1 = true ↔
      e.Futile (.load content options) := by
  rw [perform_load, on_load, Futile]
  cases Transfer.rulesOf options.format content with
  | error reason => simp [answer, Command.isIdle]
  | ok rules =>
      cases rules with
      | nil => simp [answer, Command.isIdle]
      | cons rule rules =>
          dsimp only
          cases drawn : Transfer.treesOf
              (e.supply (if options.merge then e.document else .empty)) (rule :: rules) with
          | error reason => simp [drawn, answer, Command.isIdle]
          | ok found =>
              obtain ⟨trees, ids⟩ := found
              obtain ⟨tree, u, rest, rfl, -⟩ := Transfer.exists_of_treesOf_cons drawn
              simp [drawn, answer, Command.isIdle]

/-- **A command is idle where it is futile**, and nowhere else. -/
theorem isIdle_perform (e : Editor) (c : Command) :
    c.isIdle (e.perform c).1 = true ↔ e.Futile c := by
  cases c with
  | add id new parent => exact isIdle_add id new parent
  | update id patch => simp [perform_update, on_update, Document.update, Command.isIdle, Futile]
  | remove id => simp [perform_remove, on_remove, Document.remove, Command.isIdle, Futile]
  | move id parent index => exact isIdle_move id parent index
  | reorder id index => exact isIdle_reorder id index
  | select id =>
      rw [perform_select, on_select, Document.select, Futile]
      cases id with
      | none => simp [answer, Command.isIdle]
      | some s => cases there : e.document.nodes.contains s <;>
          simp [there, answer, Command.isIdle, Option.filter_some]
  | undo => simp [perform_undo, on_undo, Command.isIdle, Futile, canUndo_eq_false_iff]
  | redo => simp [perform_redo, on_redo, Command.isIdle, Futile, canRedo_eq_false_iff]
  | markClean => simp [perform, steps, Command.isIdle, Futile]
  | validate => simp [perform, steps, Command.isIdle, Futile]
  | setView view => simp [perform, steps, Command.isIdle, Futile]
  | load content options => exact isIdle_load content options
  | write format => simp [Command.isIdle, Futile]
  | tree id => simp [Command.isIdle, Futile]
  | node id => simp [Command.isIdle, Futile]
  | subscribe => simp [perform, steps, Command.isIdle, Futile]
  | unsubscribe subscriber =>
      rw [perform_unsubscribe, on_unsubscribe, Futile]
      split <;> simp_all [Command.isIdle]

/-- **A command that is not carried out leaves the editor as it is**, after any run of commands, and
sends nothing to anyone.  It is not carried out exactly if it is futile: it names a node or a parent
that is not there or an id that is, it would lead to a cycle or to where the node is, there is
nothing to go back or on to, or what is to be loaded cannot be read, holds no rule, or holds one
that nodes cannot hold, be it the first or the last. -/
theorem perform_of_isIdle (settings : Settings) (commands : List Command) (c : Command) :
    let e := (new settings).run commands
    (c.isIdle (e.perform c).1 = true → (e.perform c).2 = e) ∧
      (c.isIdle (e.perform c).1 = true ↔ e.Futile c) := by
  intro e
  exact ⟨(step_perform e c).eq_of_isIdle, isIdle_perform e c⟩

/-- A node is not moved below itself, and an array is not loaded whose second element is no rule,
although the first one is: the editor keeps its node, and its subscriber is told of nothing more. -/
theorem perform_of_isIdle_single :
    let e := (new ⟨false, false, 1, .standard⟩).run
      [.subscribe, .add (some "a") ⟨none, none, .group .and⟩ none]
    let rule := "\x7b\"type\":\"field\",\"field\":\"a\",\"operator\":\"equals\",\"value\":1," ++
      "\"valueType\":\"literal\"\x7d"
    let load := Command.load ("[" ++ rule ++ ",\x7b\x7d]") ⟨.json, false⟩
    (e.perform (.move "a" (some "a") none)).2 = e ∧
      (¬ e.Futile (.load rule ⟨.json, false⟩)) ∧ e.Futile load ∧ (e.perform load).2 = e := by
  intro e rule load
  let commands : List Command := [.subscribe, .add (some "a") ⟨none, none, .group .and⟩ none]
  obtain ⟨moved, -⟩ := perform_of_isIdle ⟨false, false, 1, .standard⟩ commands
    (.move "a" (some "a") none)
  obtain ⟨-, single⟩ := perform_of_isIdle ⟨false, false, 1, .standard⟩ commands
    (.load rule ⟨.json, false⟩)
  obtain ⟨kept, both⟩ := perform_of_isIdle ⟨false, false, 1, .standard⟩ commands load
  have refused : load.isIdle (e.perform load).1 = true := by decide +kernel
  exact ⟨moved (by decide +kernel), single.not.mp (by decide +kernel), both.mp refused,
    kept refused⟩

end Rulebook.Editor
