import Rulebook.Proofs.Editor.Edits
import Rulebook.Proofs.Node.Regrow

/-!
# Rulebook — Proofs — Editor — Invariant

What holds of an editor whatever it has been asked.  Its document and every document in its history
stand for a grove, and what is selected is there.

* `sound_perform`: one command keeps this.
* `wellFormed_run`: so it holds after any run, and with it everything that is checked of a
  document's structure.
-/

namespace Rulebook

/-- A document that stands for a grove, with a selection in it. -/
structure Document.Sound (d : Document) : Prop where
  stored : ∃ ts, Stored ts d.nodes d.roots
  selection : ∀ s, d.selected = some s → d.nodes.contains s = true

/-- A document in order: every node is kept under its own id and refers to its children by ids, no
problem is found in the structure, and what is selected is there. -/
structure Document.WellFormed (d : Document) : Prop where
  key : ∀ e ∈ d.nodes.entries, e.2.id = e.1
  ref : ∀ e ∈ d.nodes.entries, ∀ c ∈ e.2.children, ∃ id, c = .ref id
  structured : d.nodes.structureProblems d.roots = []
  selection : ∀ s, d.selected = some s → d.nodes.contains s = true

namespace Document

open Grove

variable {d d' : Document} {ts : List Branch} {id : String} {above : Option String}

/-- A sound document has no flaw in its structure. -/
theorem Sound.wellFormed (h : d.Sound) : d.WellFormed := by
  obtain ⟨⟨ts, hs⟩, hsel⟩ := h
  refine ⟨hs.key, fun e he c hc => ?_, hs.structureProblems_eq_nil, hsel⟩
  · obtain ⟨⟨q, t⟩, -, rfl⟩ := List.mem_map.mp (hs.entries_perm.subset he)
    obtain ⟨s, -, rfl⟩ := List.mem_map.mp hc
    exact ⟨s.id, rfl⟩

/-! ### The nodes that stay -/

/-- A node that is listed elsewhere is no node lost. -/
theorem contains_attach {s : String} (h : d.nodes.contains s = true) (id : String)
    (above : Option String) (index : Option Nat) :
    (d.attach id above index).nodes.contains s = true := by
  cases above with
  | none => exact h
  | some p => exact KeyMap.contains_modify h p _

/-- To list a node nowhere loses none of them. -/
theorem contains_detach {s : String} (h : d.nodes.contains s = true) (id : String)
    (above : Option String) : (d.detach id above).nodes.contains s = true := by
  rw [detach]
  split
  · exact h
  · exact KeyMap.contains_insert h _ _

/-! ### Edits -/

theorem sound_empty : Document.empty.Sound where
  stored := ⟨[], rfl, .refl _⟩
  selection s hs := by cases hs

variable (h : d.Sound)
include h

/-- Adding a node that is not there, below one that is, keeps a document sound. -/
theorem Sound.add {new : NewNode} (hd : d.add id new above = .ok d') : d'.Sound := by
  obtain ⟨⟨ts, hs⟩, hsel⟩ := h
  refine ⟨⟨_, (stored_add hs hd).2.2⟩, fun s hs' => ?_⟩
  rw [Document.add] at hd
  split at hd
  · cases hd
  · split at hd
    · cases hd
    · cases hd
      rw [selected_put, selected_attach] at hs'
      exact KeyMap.contains_insert (contains_attach (hsel s hs') id above none) _ _

/-- An update keeps a document sound, for a patch changes no links. -/
theorem Sound.update {patch : Patch} (hd : d.update id patch = some d') : d'.Sound := by
  obtain ⟨⟨ts, hs⟩, hsel⟩ := h
  refine ⟨⟨_, (stored_update hs hd).2⟩, fun s hs' => ?_⟩
  obtain ⟨n, -, rfl⟩ := Option.map_eq_some_iff.mp hd
  exact KeyMap.contains_insert (hsel s hs') _ _

/-- What is left without a tree is sound. -/
theorem Sound.remove (hd : d.remove id = some d') : d'.Sound := by
  obtain ⟨⟨ts, hs⟩, hsel⟩ := h
  -- a selection that is not dropped is outside the tree that is
  have hs' := (stored_remove hs hd).2
  refine ⟨⟨_, hs'⟩, fun s hsome => ?_⟩
  obtain ⟨q, t, ht, rfl, rfl⟩ := remove_eq_some hs hd
  obtain ⟨hsome, hout⟩ := Option.filter_eq_some_iff.mp hsome
  rw [selected_erase, selected_detach] at hsome
  have hmem := hs.contains_iff.mp (hsel s hsome)
  exact hs'.contains_iff.mpr (mem_ids_prune hs.nodup ht hmem fun hin => by
    rw [List.contains_iff_mem.mpr hin] at hout
    cases hout)

/-- A move that is no cycle keeps a document sound. -/
theorem Sound.move {index : Option Nat} (hd : d.move id above index = .ok (some d')) :
    d'.Sound := by
  obtain ⟨⟨ts, hs⟩, hsel⟩ := h
  obtain ⟨place, -, -, -, hmoved⟩ := stored_move hs hd
  refine ⟨⟨_, hmoved⟩, fun s hsome => ?_⟩
  rw [Document.move] at hd
  split at hd
  · cases hd
  · split at hd
    · cases hd
    · split at hd
      · cases hd
      · split at hd
        · cases hd
        · cases hd
          rw [selected_modify, selected_attach, selected_detach] at hsome
          exact KeyMap.contains_modify
            (contains_attach (contains_detach (hsel s hsome) id _) id above index) _ _

theorem Sound.reorder {index : Nat} (hd : d.reorder id index = some d') : d'.Sound := by
  obtain ⟨⟨ts, hs⟩, hsel⟩ := h
  obtain ⟨place, -, hmoved⟩ := stored_reorder hs hd
  refine ⟨⟨_, hmoved⟩, fun s hsome => ?_⟩
  obtain ⟨n, -, hd⟩ := Option.bind_eq_some_iff.mp hd
  obtain ⟨place, -, hd⟩ := Option.bind_eq_some_iff.mp hd
  dsimp only at hd
  split at hd
  · cases hd
  · cases hd
    rw [selected_attach, selected_detach] at hsome
    exact contains_attach (contains_detach (hsel s hsome) id n.parent) id n.parent _

/-- Only what is there gets selected. -/
theorem Sound.select {s : Option String} (hd : d.select s = .ok d') : d'.Sound := by
  rw [Document.select] at hd
  split at hd
  · cases hd
  · rename_i hknown
    cases hd
    exact ⟨h.stored, filter_eq_none_iff.mp hknown⟩

/-- Trees with new ids can stand behind the others. -/
theorem Sound.append {trees : List Node} (embedded : ∀ n ∈ trees, n.Embedded)
    (nodup : (ids (trees.map Node.branch) ++ d.nodes.keys).Nodup) : (d.append trees).Sound := by
  obtain ⟨⟨ts, hs⟩, hsel⟩ := h
  have hs' := stored_append hs embedded nodup
  refine ⟨⟨_, hs'⟩, fun s hsome => hs'.contains_iff.mpr ?_⟩
  rw [ids_append]
  exact List.mem_append_left _ (hs.contains_iff.mp (hsel s hsome))

end Document

/-- Trees drawn for rules have other ids than the nodes of the document. -/
theorem Transfer.nodup_treesOf {d : Document} {next : Nat} {rules : List Rule}
    {trees : List Node} {rest : IdSupply}
    (ht : treesOf ⟨next, d.nodes.keys⟩ rules = .ok (trees, rest)) :
    (Grove.ids (trees.map Node.branch) ++ d.nodes.keys).Nodup := by
  have hdraws := (draws_treesOf ht).2
  refine List.nodup_append.mpr ⟨hdraws.nodup, d.nodes.nodup_keys, fun i hi k hk e => ?_⟩
  exact hdraws.free i hi (e ▸ hk)

/-! ### History -/

namespace History

variable {α : Type}

/-- What a history holds after a record it held before, or it is what is recorded. -/
theorem mem_record {h : History α} {a b : α} (hb : b ∈ (h.record a).entries) :
    b ∈ h.entries ∨ b = a := by
  have hb : b ∈ h.entries.take (h.cursor + 1) ++ [a] := List.mem_of_mem_drop hb
  rcases List.mem_append.mp hb with hb | hb
  · exact .inl (List.mem_of_mem_take hb)
  · exact .inr (List.mem_singleton.mp hb)

/-- An undo takes nothing out of the history. -/
theorem entries_undo? {h h' : History α} (hu : h.undo? = some h') : h'.entries = h.entries := by
  rw [undo?] at hu
  split at hu
  · cases hu
    rfl
  · cases hu

/-- A redo takes nothing out of the history either. -/
theorem entries_redo? {h h' : History α} (hr : h.redo? = some h') : h'.entries = h.entries := by
  rw [redo?] at hr
  split at hr
  · cases hr
    rfl
  · cases hr

/-- The current state is one of the history's. -/
theorem current_mem (h : History α) : h.current ∈ h.entries := List.get_mem _ _

end History

/-! ### Commands -/

namespace Editor

open Grove

variable {e e' : Editor} {d : Document}

/-- Two editors with the same document and the same history. -/
structure Agrees (e e' : Editor) : Prop where
  document : e'.document = e.document
  history : e'.history = e.history

theorem Agrees.trans {e'' : Editor} (h : Agrees e e') (h' : Agrees e' e'') : Agrees e e'' :=
  ⟨h'.document.trans h.document, h'.history.trans h.history⟩

/-- A change of phase is told, and changes neither document nor history. -/
theorem agrees_enter (e : Editor) (phase : Phase) : Agrees e (e.enter phase) := by
  rw [enter]
  split <;> exact ⟨rfl, rfl⟩

/-- A diagnosis changes neither document nor history. -/
theorem agrees_validate (e : Editor) : Agrees e e.validate := by
  simp only [validate]
  split
  · exact ⟨rfl, rfl⟩
  · have := agrees_enter { e with
      diagnostics := (diagnose e.settings e.document).diagnostics
      text := (diagnose e.settings e.document).text } .validated
    exact ⟨this.document, this.history⟩

/-- What follows a change of the document changes it no further. -/
theorem agrees_afterChange (e : Editor) (loaded : Bool) : Agrees e (e.afterChange loaded) := by
  have hentered : Agrees e (({ e with dirty := true }.enter (e.phaseAfter loaded)).emit
      .stateChanged) := by
    have := agrees_enter { e with dirty := true } (e.phaseAfter loaded)
    exact ⟨this.document, this.history⟩
  simp only [afterChange]
  split
  · exact hentered.trans (agrees_validate _)
  · exact hentered

theorem agrees_markClean (e : Editor) : Agrees e e.markClean := by
  simp only [markClean]
  split
  · exact ⟨rfl, rfl⟩
  · have := agrees_enter { e with dirty := false } .clean
    exact ⟨this.document, this.history⟩

theorem agrees_setView (e : Editor) (view : View) : Agrees e (e.setView view) := by
  rw [setView]
  split <;> exact ⟨rfl, rfl⟩

/-- A document becomes that of an editor, and the last one in its history. -/
structure Commits (e : Editor) (d : Document) (e' : Editor) : Prop where
  document : e'.document = d
  history : ∃ description, e'.history = e.history.record ⟨d, description⟩

/-- A commit records the document that it makes the present one. -/
theorem commits_commit (e : Editor) (d : Document) (next : Nat) (description : String)
    (loaded : Bool) :
    Commits e d ({ e with document := d, nextId := next }.commit description loaded) where
  document := (agrees_afterChange _ loaded).document
  history := ⟨description, (agrees_afterChange _ loaded).history⟩

/-- Where something has been done, a document has been committed. -/
theorem settle_eq_true {o : Option Document} {description : String}
    (h : e.settle description o = (true, e')) : ∃ d, o = some d ∧ Commits e d e' := by
  cases o with
  | none => cases h
  | some d =>
      cases h
      exact ⟨d, rfl, commits_commit e d e.nextId description false⟩

/-- A node is added under the id that is given, or under a new one. -/
theorem add_eq_ok {id : Option String} {new : NewNode} {above : Option String} {i : String}
    (h : (add id new above).on e = (.ok i, e')) : (∀ j, id = some j → i = j) ∧
      ∃ d, e.document.add i new above = .ok d ∧ Commits e d e' := by
  rw [on_add] at h
  split at h
  · cases h
  · rename_i d hd
    cases h
    refine ⟨?_, d, hd, commits_commit e d (e.chooseId id).2 "add node" false⟩
    rintro j rfl
    rfl

/-- A move that is done is committed. -/
theorem move_eq_ok {id : String} {above : Option String} {index : Option Nat}
    (h : (move id above index).on e = (.ok true, e')) :
    ∃ d, e.document.move id above index = .ok (some d) ∧ Commits e d e' := by
  rw [on_move] at h
  split at h
  · cases h
  · rename_i moved hd
    obtain ⟨hdone, rfl⟩ := Prod.ext_iff.mp h
    obtain ⟨d, rfl, hc⟩ := settle_eq_true (Prod.ext (Except.ok.inj hdone) rfl)
    exact ⟨d, hd, hc⟩

/-- What is loaded are the trees of rules, behind those of the document that is kept. -/
theorem load_eq_ok {content : String} {options : ImportOptions} {root : String}
    (h : (load content options).on e = (.ok (some root), e')) :
    ∃ rules trees ids, Transfer.rulesOf options.format content = .ok rules ∧
      Transfer.treesOf (e.supply (if options.merge then e.document else .empty)) rules =
        .ok (trees, ids) ∧
      Commits e ((if options.merge then e.document else .empty).append trees) e' := by
  rw [on_load] at h
  split at h
  · cases h
  · cases h
  · rename_i rule rules hr
    dsimp only at h
    split at h
    · cases h
    · rename_i trees ids ht
      obtain ⟨-, rfl⟩ := Prod.ext_iff.mp h
      exact ⟨rule :: rules, trees, ids, hr, ht, commits_commit _ _ _ _ _⟩

/-- The document and every document in the history are sound. -/
structure Sound (e : Editor) : Prop where
  document : e.document.Sound
  history : ∀ s ∈ e.history.entries, s.document.Sound

/-- What changes neither the document nor the history keeps an editor sound. -/
theorem Sound.of_agrees (h : e.Sound) (ha : Agrees e e') : e'.Sound :=
  ⟨ha.document ▸ h.document, ha.history ▸ h.history⟩

theorem sound_new (s : Settings) : (new s).Sound where
  document := Document.sound_empty
  history t ht := by
    rw [List.mem_singleton.mp ht]
    exact Document.sound_empty

/-- A commit keeps an editor sound if the document it makes the present one is sound. -/
theorem Sound.of_commits (h : e.Sound) (hc : Commits e d e') (hd : d.Sound) : e'.Sound := by
  obtain ⟨hdoc, description, hhist⟩ := hc
  refine ⟨hdoc ▸ hd, fun s hs => ?_⟩
  rw [hhist] at hs
  rcases History.mem_record hs with hs | rfl
  · exact h.history s hs
  · exact hd

/-- An edit keeps an editor sound if it makes sound documents. -/
theorem Sound.settle (h : e.Sound) {o : Option Document} (ho : ∀ d, o = some d → d.Sound)
    (description : String) : (e.settle description o).2.Sound := by
  cases o with
  | none => exact h
  | some d => exact h.of_commits (commits_commit e d e.nextId description false) (ho d rfl)

/-- A step in time keeps an editor sound, for it leads to a document that the history holds. -/
theorem Sound.resume (h : e.Sound) {o : Option (History Snapshot)}
    (ho : ∀ past, o = some past → past.entries = e.history.entries) : (e.resume o).2.Sound := by
  cases o with
  | none => exact h
  | some past =>
      -- what is restored has been in the history all along
      have hcurrent := h.history _ (ho past rfl ▸ past.current_mem)
      have hbefore : Sound { e with document := past.current.document, history := past } :=
        ⟨hcurrent, fun s hs => h.history s (ho past rfl ▸ hs)⟩
      exact hbefore.of_agrees (agrees_afterChange _ false)

/-- Adding a node keeps an editor sound, whatever is given. -/
theorem Sound.add (h : e.Sound) (id : Option String) (new : NewNode) (above : Option String) :
    ((Editor.add id new above).on e).2.Sound := by
  rw [on_add]
  split
  · exact h
  · rename_i d hd
    exact h.of_commits (commits_commit e d _ _ _) (h.document.add hd)

/-- Moving a node keeps an editor sound. -/
theorem Sound.move (h : e.Sound) (id : String) (above : Option String) (index : Option Nat) :
    ((Editor.move id above index).on e).2.Sound := by
  rw [on_move]
  split
  · exact h
  · rename_i moved hd
    refine h.settle (fun d hmoved => ?_) _
    exact h.document.move (hd.trans (congrArg Except.ok hmoved))

/-- Selecting a node keeps an editor sound. -/
theorem Sound.select (h : e.Sound) (id : Option String) :
    ((Editor.select id).on e).2.Sound := by
  rw [on_select]
  split
  · exact h
  · rename_i d hd
    dsimp only
    split
    · exact h
    · exact ⟨h.document.select hd, h.history⟩

/-- An import keeps an editor sound, be it refused, be it merged with what is there. -/
theorem Sound.load (h : e.Sound) (content : String) (options : ImportOptions) :
    ((Editor.load content options).on e).2.Sound := by
  rw [on_load]
  split
  · exact h
  · exact h
  · rename_i rule rules hr
    dsimp only
    split
    · exact h
    · rename_i trees ids ht
      have hkept : Document.Sound (if options.merge then e.document else .empty) := by
        split
        · exact h.document
        · exact Document.sound_empty
      exact h.of_commits (commits_commit e _ _ _ _)
        (hkept.append (Transfer.draws_treesOf ht).1 (Transfer.nodup_treesOf ht))

/-- Who is told of events has nothing to do with the document. -/
theorem Sound.unsubscribe (h : e.Sound) (subscriber : Nat) :
    ((Editor.unsubscribe subscriber).on e).2.Sound := by
  rw [on_unsubscribe]
  split
  · exact ⟨h.document, h.history⟩
  · exact h

/-- **One command keeps the documents sound.** -/
theorem sound_perform (h : e.Sound) (c : Command) : (e.perform c).2.Sound := by
  cases c with
  | add id new above => exact h.add id new above
  | update id patch =>
      rw [perform_update, on_update]
      exact h.settle (fun d hd => h.document.update hd) _
  | remove id =>
      rw [perform_remove, on_remove]
      exact h.settle (fun d hd => h.document.remove hd) _
  | move id above index => exact h.move id above index
  | reorder id index =>
      rw [perform_reorder, on_reorder]
      exact h.settle (fun d hd => h.document.reorder hd) _
  | select id => exact h.select id
  | undo =>
      rw [perform_undo, on_undo]
      exact h.resume fun past hp => History.entries_undo? hp
  | redo =>
      rw [perform_redo, on_redo]
      exact h.resume fun later hl => History.entries_redo? hl
  | markClean => exact h.of_agrees (agrees_markClean e)
  | validate => exact h.of_agrees (agrees_validate e)
  | setView view => exact h.of_agrees (agrees_setView e view)
  | load content options => exact h.load content options
  | write format => exact h
  | tree id => exact h
  | node id => exact h
  | subscribe => exact ⟨h.document, h.history⟩
  | unsubscribe subscriber => exact h.unsubscribe subscriber

/-- **An editor is sound after any run.** -/
theorem sound_run (h : e.Sound) (commands : List Command) : (e.run commands).Sound := by
  induction commands generalizing e with
  | nil => exact h
  | cons c commands ih => exact ih (sound_perform h c)

/-- **After any run of commands the document of an editor is in order, and so is every document in
its history.** -/
theorem wellFormed_run (settings : Settings) (commands : List Command) :
    ((new settings).run commands).document.WellFormed ∧
      ∀ s ∈ ((new settings).run commands).history.entries, s.document.WellFormed := by
  have h := sound_run (sound_new settings) commands
  exact ⟨h.document.wellFormed, fun s hs => (h.history s hs).wellFormed⟩

end Editor

end Rulebook
