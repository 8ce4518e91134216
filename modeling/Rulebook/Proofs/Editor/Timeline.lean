import Rulebook.Proofs.Editor.Invariant
import Rulebook.Proofs.Editor.Steps

/-!
# Rulebook — Proofs — Editor — Timeline

Going back and forth in the history of an editor.  Its current entry has the nodes and the roots of
the document, whatever is selected meanwhile (`Live`, `Step.live`), so that the same place in the
history always shows the same nodes and roots (`Travels.sameTrees`).  An edit that is carried out
moves what was current one place further from the new current entry, and does not drop it as long as
fewer edits follow than there is room for (`recalls_run`).

* `times_undo_redo`: going forth as often as back leads to where one was, and so does going back as
  often as there were edits.
-/

namespace Rulebook

/-- The nodes and the roots are the same; what is selected may be another. -/
structure Document.SameTrees (d d' : Document) : Prop where
  nodes : d.nodes = d'.nodes
  roots : d.roots = d'.roots

namespace History

variable {α : Type} {h h' : History α} {a : α} {i : Nat}

/-- The cursor points to the current state. -/
theorem getElem?_cursor (h : History α) : h.entries[h.cursor]? = some h.current :=
  List.getElem?_eq_getElem h.inRange

theorem length_take_cursor (h : History α) :
    (h.entries.take (h.cursor + 1)).length = h.cursor + 1 := by
  rw [List.length_take]
  exact Nat.min_eq_left h.inRange

/-- The cursor goes one further, unless the oldest state is dropped. -/
theorem cursor_record (h : History α) (a : α) :
    (h.record a).cursor = min h.capacity (h.cursor + 2) - 1 :=
  congrArg (· - 1) (length_entriesWith h a)

/-- Recording drops as many values from the front as there is no room for. -/
theorem getElem?_record (h : History α) (a : α) (k : Nat) : (h.record a).entries[k]? =
    (h.entries.take (h.cursor + 1) ++ [a])[h.cursor + 2 - h.capacity + k]? := by
  have hlen : (h.entries.take (h.cursor + 1) ++ [a]).length = h.cursor + 2 := by
    rw [List.length_append, length_take_cursor]
    rfl
  show (newest h.capacity (h.entries.take (h.cursor + 1) ++ [a]))[k]? = _
  rw [newest, hlen, List.getElem?_drop]

/-- What is recorded is the current state. -/
theorem current_record (h : History α) (a : α) : (h.record a).current = a := by
  have hplace : h.cursor + 2 - h.capacity + (h.record a).cursor =
      (h.entries.take (h.cursor + 1)).length := by
    have := h.capacity_pos
    rw [cursor_record, length_take_cursor]
    omega
  have hc := getElem?_cursor (h.record a)
  rw [getElem?_record, hplace, List.getElem?_concat_length] at hc
  exact (Option.some.inj hc).symm

/-- A history with the same values, of which one at another place is current. -/
structure At (h : History α) (place : Nat) (h' : History α) : Prop where
  entries : h'.entries = h.entries
  cursor : h'.cursor = place
  capacity : h'.capacity = h.capacity

/-- A history that stands where another one does has the same current state. -/
theorem At.current_eq (ha : h.At h.cursor h') : h'.current = h.current := by
  have hc := getElem?_cursor h'
  rw [ha.entries, ha.cursor, getElem?_cursor] at hc
  exact (Option.some.inj hc).symm

/-- An undo goes one state back, and changes nothing but the cursor. -/
theorem undo?_eq_some (hu : h.undo? = some h') : 0 < h.cursor ∧ h.At (h.cursor - 1) h' := by
  rw [undo?] at hu
  split at hu
  · rename_i hpos
    cases hu
    exact ⟨hpos, rfl, rfl, rfl⟩
  · cases hu

/-- There is a state before unless the cursor is at the first one. -/
theorem exists_undo? (hpos : 0 < h.cursor) : ∃ h', h.undo? = some h' := by
  rw [undo?, if_pos hpos]
  exact ⟨_, rfl⟩

/-- A redo goes one state on, and changes nothing but the cursor. -/
theorem redo?_eq_some (hr : h.redo? = some h') :
    h.cursor + 1 < h.entries.length ∧ h.At (h.cursor + 1) h' := by
  rw [redo?] at hr
  split at hr
  · rename_i hlater
    cases hr
    exact ⟨hlater, rfl, rfl, rfl⟩
  · cases hr

/-- There is a state after unless the cursor is at the last one. -/
theorem exists_redo? (hlater : h.cursor + 1 < h.entries.length) : ∃ h', h.redo? = some h' := by
  rw [redo?, dif_pos hlater]
  exact ⟨_, rfl⟩

/-! ### Values further back -/

/-- A value is so many places before the current one. -/
structure Recalls (h : History α) (i : Nat) (a : α) : Prop where
  le_cursor : i ≤ h.cursor
  getElem? : h.entries[h.cursor - i]? = some a

theorem recalls_current (h : History α) : h.Recalls 0 h.current :=
  ⟨Nat.zero_le _, getElem?_cursor h⟩

/-- **What is recorded comes behind**, and nothing is dropped that there is room for. -/
theorem Recalls.record {b : α} (hr : h.Recalls i a) (hi : i + 1 < h.capacity) :
    (h.record b).Recalls (i + 1) a := by
  have hle := hr.le_cursor
  -- what is dropped from the front makes up for the shorter way to the front
  have hplace : h.cursor + 2 - h.capacity + ((h.record b).cursor - (i + 1)) = h.cursor - i := by
    rw [cursor_record]
    omega
  refine ⟨by rw [cursor_record]; omega, ?_⟩
  rw [getElem?_record, hplace, List.getElem?_append_left (by rw [length_take_cursor]; omega),
    List.getElem?_take_of_lt (by omega)]
  exact hr.getElem?

end History

namespace Editor

variable {e e' : Editor} {c : Command} {o : Outcome}

/-! ### The live document -/

/-- The current entry of the history has the nodes and the roots of the document. -/
def Live (e : Editor) : Prop := e.history.current.document.SameTrees e.document

/-- The history of a new editor holds its empty document. -/
theorem live_new (s : Settings) : (new s).Live := ⟨rfl, rfl⟩

theorem Live.of_agrees (h : e.Live) (ha : Agrees e e') : e'.Live := by
  rw [Live, ha.history, ha.document]
  exact h

/-- Whatever was so before, what is recorded is live. -/
theorem Commits.live {d : Document} (hc : Commits e d e') : e'.Live := by
  obtain ⟨hdoc, description, hhist⟩ := hc
  rw [Live, hhist, History.current_record, hdoc]
  exact ⟨rfl, rfl⟩

/-- An editor goes to a place of its history and shows what is there. -/
structure Travels (e : Editor) (place : Nat) (e' : Editor) : Prop where
  place : e.history.At place e'.history
  live : e'.Live

/-- A step in time leads to the document of the state that the cursor is moved to. -/
theorem travels_visit (e : Editor) {h : History Snapshot} {place : Nat}
    (hp : e.history.At place h) : e.Travels place (e.visit h) := by
  have ha := agrees_afterChange { e with document := h.current.document, history := h } false
  have hhist : (e.visit h).history = h := ha.history
  have hlive : Live { e with document := h.current.document, history := h } := ⟨rfl, rfl⟩
  exact ⟨by rw [hhist]; exact hp, hlive.of_agrees ha⟩

/-- The same place shows the same trees. -/
theorem Travels.sameTrees (h : e.Live) (ht : e.Travels e.history.cursor e') :
    e'.document.SameTrees e.document := by
  have hlive := ht.live
  rw [Live, ht.place.current_eq] at hlive
  exact ⟨hlive.nodes.symm.trans h.nodes, hlive.roots.symm.trans h.roots⟩

/-! ### One command -/

/-- **A command keeps the live document in the current entry.** -/
theorem Step.live (hs : Step e c o e') (h : e.Live) : e'.Live := by
  cases hs with
  | idle ho => exact h
  | edit hc ho next d description loaded => exact (commits_commit e d next description loaded).live
  | undo hu => exact (travels_visit e (History.undo?_eq_some hu).2).live
  | redo hr => exact (travels_visit e (History.redo?_eq_some hr).2).live
  | select id => exact ⟨h.nodes, h.roots⟩
  | markClean => exact h.of_agrees (agrees_markClean e)
  | validate => exact h.of_agrees (agrees_validate e)
  | setView view => exact h.of_agrees (agrees_setView e view)
  | subscribe => exact ⟨h.nodes, h.roots⟩
  | unsubscribe subscriber => exact ⟨h.nodes, h.roots⟩

/-- What a command does to the history: an edit that is carried out is recorded, a step through the
history goes to another place, and anything else leaves it alone. -/
theorem Step.history_cases (hs : Step e c o e') :
    ((c.isEdit && o.isDone) = true ∧ ∃ s, e'.history = e.history.record s) ∨
      ((c.isTravel && o.isDone) = true ∧ ∃ place, e.history.At place e'.history) ∨
      ((c.isEdit && o.isDone) = false ∧ e'.history = e.history) := by
  cases hs with
  | idle ho => exact .inr (.inr ⟨by rw [ho, Bool.and_false], rfl⟩)
  | edit hc ho next d description loaded =>
      obtain ⟨-, description, hhist⟩ := commits_commit e d next description loaded
      exact .inl ⟨by rw [hc, ho]; rfl, ⟨d, description⟩, hhist⟩
  | undo hu =>
      exact .inr (.inl ⟨rfl, _, (travels_visit e (History.undo?_eq_some hu).2).place⟩)
  | redo hr =>
      exact .inr (.inl ⟨rfl, _, (travels_visit e (History.redo?_eq_some hr).2).place⟩)
  | select id => exact .inr (.inr ⟨rfl, rfl⟩)
  | markClean => exact .inr (.inr ⟨rfl, (agrees_markClean e).history⟩)
  | validate => exact .inr (.inr ⟨rfl, (agrees_validate e).history⟩)
  | setView view => exact .inr (.inr ⟨rfl, (agrees_setView e view).history⟩)
  | subscribe => exact .inr (.inr ⟨rfl, rfl⟩)
  | unsubscribe subscriber => exact .inr (.inr ⟨rfl, rfl⟩)

/-- No command changes how many states a history keeps. -/
theorem Step.capacity_eq (hs : Step e c o e') : e'.history.capacity = e.history.capacity := by
  rcases hs.history_cases with ⟨-, s, h⟩ | ⟨-, place, h⟩ | ⟨-, h⟩
  · rw [h]
    rfl
  · exact h.capacity
  · rw [h]

/-! ### Runs -/

/-- **After any run the present document has the nodes and the roots of the current state.** -/
theorem live_run (h : e.Live) (commands : List Command) : (e.run commands).Live :=
  run_induction Step.live h commands

/-- No run changes how many states a history keeps. -/
theorem capacity_run (e : Editor) (commands : List Command) :
    (e.run commands).history.capacity = e.history.capacity :=
  run_induction (P := fun e' => e'.history.capacity = e.history.capacity)
    (fun hs h => hs.capacity_eq.trans h) rfl commands

/-- The number of edits that are carried out in a run. -/
def edits (e : Editor) : List Command → Nat
  | [] => 0
  | c :: commands =>
    (if c.isEdit && (e.perform c).1.isDone then 1 else 0) + edits (e.perform c).2 commands

/-- No step through the history is carried out in a run. -/
def Onward (e : Editor) : List Command → Prop
  | [] => True
  | c :: commands =>
    (c.isTravel && (e.perform c).1.isDone) = false ∧ Onward (e.perform c).2 commands

/-- **Every edit of a run puts what was current one place further back**, as far as there is
room. -/
theorem recalls_run {s : Snapshot} {i : Nat} {commands : List Command} (ho : e.Onward commands)
    (hr : e.history.Recalls i s) (hi : i + e.edits commands < e.history.capacity) :
    (e.run commands).history.Recalls (i + e.edits commands) s := by
  induction commands generalizing e i with
  | nil => exact hr
  | cons c commands ih =>
      obtain ⟨ht, ho⟩ := ho
      have hs := step_perform e c
      have hcap := hs.capacity_eq
      rw [edits] at hi ⊢
      rcases hs.history_cases with ⟨hc, t, h⟩ | ⟨hc, -⟩ | ⟨hc, h⟩
      · rw [if_pos hc, ← Nat.add_assoc] at hi ⊢
        refine ih ho ?_ (hcap ▸ hi)
        rw [h]
        exact hr.record (by omega)
      · rw [hc] at ht
        cases ht
      · rw [hc, if_neg Bool.false_ne_true, Nat.zero_add] at hi ⊢
        exact ih ho (h ▸ hr) (hcap ▸ hi)

/-! ### Back and forth -/

/-- Takes a step so many times, if there is something to do each time. -/
def times (f : Steps Bool) : Nat → Editor → Option Editor
  | 0, e => some e
  | k + 1, e =>
    match f.on e with
    | (false, _) => none
    | (true, e') => times f k e'

/-- Undoing several times leads as many states back. -/
theorem times_undo_eq_some {k : Nat} (h : e.Live) (hk : times undo k e = some e') :
    k ≤ e.history.cursor ∧ e.Travels (e.history.cursor - k) e' := by
  induction k generalizing e with
  | zero =>
      cases hk
      exact ⟨Nat.zero_le _, ⟨rfl, rfl, rfl⟩, h⟩
  | succ k ih =>
      rw [times, on_undo] at hk
      cases hu : e.history.undo? with
      | none =>
          rw [hu] at hk
          cases hk
      | some past =>
          rw [hu] at hk
          obtain ⟨hpos, hat⟩ := History.undo?_eq_some hu
          have ht := travels_visit e hat
          obtain ⟨hle, hplace, hlive⟩ := ih ht.live hk
          rw [ht.place.cursor] at hle hplace
          refine ⟨by omega, ⟨hplace.entries.trans ht.place.entries, ?_,
            hplace.capacity.trans ht.place.capacity⟩, hlive⟩
          rw [hplace.cursor]
          omega

/-- Undoing can be done as many times as there are states before. -/
theorem exists_times_undo {k : Nat} (hk : k ≤ e.history.cursor) :
    ∃ e', times undo k e = some e' := by
  induction k generalizing e with
  | zero => exact ⟨e, rfl⟩
  | succ k ih =>
      obtain ⟨past, hu⟩ := History.exists_undo? (Nat.lt_of_lt_of_le (Nat.succ_pos k) hk)
      have ht := travels_visit e (History.undo?_eq_some hu).2
      obtain ⟨e', he'⟩ := ih (e := e.visit past) (by rw [ht.place.cursor]; omega)
      refine ⟨e', ?_⟩
      rw [times, on_undo, hu]
      exact he'

/-- Redoing can be done as many times as there are states after, and leads as many states on. -/
theorem exists_times_redo {k : Nat} (h : e.Live)
    (hk : e.history.cursor + k < e.history.entries.length) :
    ∃ e', times redo k e = some e' ∧ e.Travels (e.history.cursor + k) e' := by
  induction k generalizing e with
  | zero => exact ⟨e, rfl, ⟨rfl, rfl, rfl⟩, h⟩
  | succ k ih =>
      obtain ⟨later, hr⟩ := History.exists_redo? (h := e.history) (by omega)
      have ht := travels_visit e (History.redo?_eq_some hr).2
      have hlen : (e.visit later).history.cursor + k <
          (e.visit later).history.entries.length := by
        rw [ht.place.cursor, ht.place.entries]
        omega
      obtain ⟨e', he', hplace, hlive⟩ := ih ht.live hlen
      refine ⟨e', ?_, ⟨hplace.entries.trans ht.place.entries, ?_,
        hplace.capacity.trans ht.place.capacity⟩, hlive⟩
      · rw [times, on_redo, hr]
        exact he'
      · rw [hplace.cursor, ht.place.cursor]
        omega

/-- **Going forth as often as back leads to the nodes and the roots where one was**, after any run
of commands, and so does going back as often as there were edits meanwhile, as long as these are
fewer than the states that are kept.  The current state of the history is that of the document. -/
theorem times_undo_redo (settings : Settings) (commands : List Command) :
    let e := (new settings).run commands
    e.history.current.document.SameTrees e.document ∧
      (∀ k e', times undo k e = some e' →
        ∃ e'', times redo k e' = some e'' ∧ e''.document.SameTrees e.document) ∧
      ∀ more, e.Onward more → e.edits more < max 1 settings.maxHistory →
        ∃ e', times undo (e.edits more) (e.run more) = some e' ∧
          e'.document.SameTrees e.document := by
  intro e
  have hlive : e.Live := live_run (live_new settings) commands
  refine ⟨hlive, ?_, ?_⟩
  · intro k e' hk
    obtain ⟨hle, ht⟩ := times_undo_eq_some hlive hk
    have hin := e.history.inRange
    have hback : e'.history.cursor + k = e.history.cursor := by
      rw [ht.place.cursor]
      omega
    obtain ⟨e'', he'', hplace, hlive''⟩ := exists_times_redo (k := k) ht.live
      (by rw [hback, ht.place.entries]; exact hin)
    rw [hback] at hplace
    have hsame : e.Travels e.history.cursor e'' :=
      ⟨⟨hplace.entries.trans ht.place.entries, hplace.cursor,
        hplace.capacity.trans ht.place.capacity⟩, hlive''⟩
    exact ⟨e'', he'', hsame.sameTrees hlive⟩
  · intro more honward hm
    have hcap : e.history.capacity = max 1 settings.maxHistory := capacity_run _ commands
    have hr := recalls_run honward (History.recalls_current e.history)
      (by rw [Nat.zero_add, hcap]; exact hm)
    rw [Nat.zero_add] at hr
    obtain ⟨e', he'⟩ := exists_times_undo hr.le_cursor
    obtain ⟨-, ht⟩ := times_undo_eq_some (live_run hlive more) he'
    -- the entry that is gone back to is the one that was current
    have hcurrent := History.getElem?_cursor e'.history
    rw [ht.place.entries, ht.place.cursor, hr.getElem?] at hcurrent
    have hlive' := ht.live
    rw [Live, ← Option.some.inj hcurrent] at hlive'
    exact ⟨e', he', hlive'.nodes.symm.trans hlive.nodes, hlive'.roots.symm.trans hlive.roots⟩

/-- Where three states are kept, two edits are taken back, one of which removes everything. -/
theorem times_undo_redo_pair :
    let group : NewNode := ⟨none, none, .group .and⟩
    let e := (new ⟨false, false, 3, .standard⟩).run
      [.add (some "a") group none, .add (some "b") group (some "a"), .select (some "b")]
    let more : List Command :=
      [.markClean, .update "b" ⟨some "last", none, none⟩, .remove "c", .validate, .remove "a"]
    (∃ e' e'', times undo 2 e = some e' ∧ times redo 2 e' = some e'' ∧
        e''.document.SameTrees e.document) ∧
      e.Onward more ∧ e.edits more = 2 ∧
        ∃ e', times undo 2 (e.run more) = some e' ∧ e'.document.SameTrees e.document := by
  intro group e more
  obtain ⟨-, forth, back⟩ := times_undo_redo ⟨false, false, 3, .standard⟩
    [.add (some "a") group none, .add (some "b") group (some "a"), .select (some "b")]
  obtain ⟨e', he'⟩ : ∃ e', times undo 2 e = some e' := exists_times_undo (by decide +kernel)
  have onward : e.Onward more :=
    ⟨by decide +kernel, by decide +kernel, by decide +kernel, by decide +kernel,
      by decide +kernel, trivial⟩
  have two : e.edits more = 2 := by decide +kernel
  obtain ⟨e'', he'', hsame⟩ := forth 2 e' he'
  have hback := back more onward (by rw [two]; decide)
  rw [two] at hback
  exact ⟨⟨e', e'', he', he'', hsame⟩, onward, two, hback⟩

end Editor

end Rulebook
