import Rulebook.Proofs.Editor.Invariant
import Rulebook.Proofs.Node.Convert

/-!
# Rulebook — Proofs — Editor — Refinement

An editor edits an ordered grove.  The grove that its document stands for is read back from the
document.  Every command that is carried out does to it what the command says and nothing else
(`Refines`), and a command is carried out where this says something about the grove and changes it
(`Accepts`).

* `refines_run`: both hold after any run of commands.
-/

namespace Rulebook

/-- The grove that a document stands for, read from the roots down. -/
def Document.grove (d : Document) : List Branch := d.nodes.treesAt d.nodes.size d.roots

/-- The trees that are drawn for rules are converted back to them. -/
theorem Transfer.toRule_treesOf {rules : List Rule} {trees : List Node} {s t : IdSupply}
    (h : treesOf s rules = .ok (trees, t)) :
    List.Forall₂ (fun n r => n.toRule = .ok r) trees rules := by
  induction rules generalizing s trees with
  | nil =>
      cases h
      exact .nil
  | cons r rules ih =>
      obtain ⟨tree, u, rest, rfl, drawn, more⟩ := exists_of_treesOf_cons h
      exact .cons (Rule.toRule_of_toNodeWith drawn).2 (ih more)

namespace Editor

open Grove

/-- The grove that an editor's document stands for. -/
abbrev grove (e : Editor) : List Branch := e.document.grove

/-- What the commands do to the grove of an editor. -/
structure Refines (e : Editor) : Prop where
  /-- The document has the roots and the entries of the grove, and no others. -/
  stored : Stored e.grove e.document.nodes e.document.roots
  /-- A new vertex without children is put last below its parent, or is the last root. -/
  add : ∀ id new above i e', (Editor.add id new above).on e = (.ok i, e') →
    (∀ j, id = some j → i = j) ∧ i ∉ ids e.grove ∧ (∀ p, above = some p → p ∈ ids e.grove) ∧
      e'.grove = graft above none ⟨new.vertex i, []⟩ e.grove
  /-- Only what the vertex carries is changed, as the patch says. -/
  update : ∀ id patch e', (Editor.update id patch).on e = (true, e') →
    id ∈ ids e.grove ∧ e'.grove = revise id patch e.grove
  /-- The vertex and all below it are gone. -/
  remove : ∀ id e', (Editor.remove id).on e = (true, e') →
    id ∈ ids e.grove ∧ e'.grove = prune id e.grove
  /-- The tree is cut out and put among the children of another parent, or among the roots. -/
  move : ∀ id above index e', (Editor.move id above index).on e = (.ok true, e') →
    ∃ place, locate id e.grove = some place ∧ place.above ≠ above ∧
      (∀ p, above = some p → p ∈ ids (prune id e.grove)) ∧
      e'.grove = graft above index place.branch (prune id e.grove)
  /-- A move is refused as a cycle if the new parent is the node or stands below it. -/
  cycle : ∀ id above index i p,
    ((Editor.move id above index).on e).1 = .error (.wouldCreateCycle i p) ↔
      i = id ∧ above = some p ∧ ∃ place, locate id e.grove = some place ∧ p ∈ ids [place.branch]
  /-- The tree is put to another place among its siblings. -/
  reorder : ∀ id index e', (Editor.reorder id index).on e = (true, e') →
    ∃ place, locate id e.grove = some place ∧
      e'.grove = below place.above (arrange index place.branch) e.grove
  /-- The trees of the rules that were read, each converted back to its rule, are the grove, or come
  behind it. -/
  load : ∀ content options root e', (Editor.load content options).on e = (.ok (some root), e') →
    ∃ rules trees rest, Transfer.rulesOf options.format content = .ok rules ∧
      Transfer.treesOf (e.supply (if options.merge then e.document else .empty)) rules =
        .ok (trees, rest) ∧
      (∀ t ∈ trees, t.Embedded) ∧ List.Forall₂ (fun t r => t.toRule = .ok r) trees rules ∧
      e'.grove = (if options.merge then e.grove else []) ++ trees.map Node.branch

/-- The commands that an editor carries out. -/
structure Accepts (e : Editor) : Prop where
  /-- The id is new if one is given, and there is a vertex for the parent if there is one. -/
  add : ∀ id new above, (∀ j, id = some j → j ∉ ids e.grove) →
    (∀ p, above = some p → p ∈ ids e.grove) →
      ∃ i e', (Editor.add id new above).on e = (.ok i, e')
  update : ∀ id patch, id ∈ ids e.grove → ∃ e', (Editor.update id patch).on e = (true, e')
  remove : ∀ id, id ∈ ids e.grove → ∃ e', (Editor.remove id).on e = (true, e')
  /-- The new parent is another one, outside the tree. -/
  move : ∀ id above index place, locate id e.grove = some place → place.above ≠ above →
    (∀ p, above = some p → p ∈ ids (prune id e.grove)) →
      ∃ e', (Editor.move id above index).on e = (.ok true, e')
  /-- The new place is another one. -/
  reorder : ∀ id index place, locate id e.grove = some place →
    below place.above (arrange index place.branch) e.grove ≠ e.grove →
      ∃ e', (Editor.reorder id index).on e = (true, e')
  /-- Rules are read, and trees drawn for them. -/
  load : ∀ content options rules tree trees rest,
    Transfer.rulesOf options.format content = .ok rules →
    Transfer.treesOf (e.supply (if options.merge then e.document else .empty)) rules =
      .ok (tree :: trees, rest) →
    ∃ root e', (Editor.load content options).on e = (.ok (some root), e')

variable {e e' : Editor} {d : Document}

/-- The grove that a document is known to stand for is the one that is read. -/
theorem grove_of_commits {ts : List Branch} (hc : Commits e d e')
    (hd : Stored ts d.nodes d.roots) : e'.grove = ts := by
  rw [grove, hc.document]
  exact hd.treesAt_eq

/-- A sound document stands for the grove that is read from it. -/
theorem Sound.stored (h : e.Sound) : Stored e.grove e.document.nodes e.document.roots := by
  obtain ⟨ts, hs⟩ := h.document.stored
  rwa [grove, Document.grove, hs.treesAt_eq]

/-- A sound editor does to its grove what each command says. -/
theorem Sound.refines (h : e.Sound) : e.Refines where
  stored := h.stored
  add id new above i e' he := by
    obtain ⟨hi, d, hd, hc⟩ := add_eq_ok he
    obtain ⟨hfresh, habove, hstored⟩ := Document.stored_add h.stored hd
    exact ⟨hi, hfresh, habove, grove_of_commits hc hstored⟩
  update id patch e' he := by
    rw [on_update] at he
    obtain ⟨d, hd, hc⟩ := settle_eq_true he
    obtain ⟨hmem, hstored⟩ := Document.stored_update h.stored hd
    exact ⟨hmem, grove_of_commits hc hstored⟩
  remove id e' he := by
    rw [on_remove] at he
    obtain ⟨d, hd, hc⟩ := settle_eq_true he
    obtain ⟨hmem, hstored⟩ := Document.stored_remove h.stored hd
    exact ⟨hmem, grove_of_commits hc hstored⟩
  move id above index e' he := by
    obtain ⟨d, hd, hc⟩ := move_eq_ok he
    obtain ⟨place, hplace, hother, habove, hstored⟩ := Document.stored_move h.stored hd
    exact ⟨place, hplace, hother, habove, grove_of_commits hc hstored⟩
  cycle id above index i p := by
    rw [← @Document.move_wouldCreateCycle_iff e.document e.grove id above h.stored index i p,
      on_move]
    cases e.document.move id above index with
    | error reason => exact ⟨fun he => congrArg Except.error (Except.error.inj he),
        fun he => congrArg Except.error (Except.error.inj he)⟩
    | ok moved =>
        constructor
        · intro he
          cases he
        · intro he
          cases he
  reorder id index e' he := by
    rw [on_reorder] at he
    obtain ⟨d, hd, hc⟩ := settle_eq_true he
    obtain ⟨place, hplace, hstored⟩ := Document.stored_reorder h.stored hd
    exact ⟨place, hplace, grove_of_commits hc hstored⟩
  load content options root e' he := by
    obtain ⟨rules, trees, rest, hrules, htrees, hc⟩ := load_eq_ok he
    obtain ⟨embedded, hdraws⟩ := Transfer.draws_treesOf htrees
    have kept : Stored (if options.merge then e.grove else [])
        (if options.merge then e.document else .empty).nodes
        (if options.merge then e.document else .empty).roots := by
      split
      · exact h.stored
      · exact ⟨rfl, .refl _⟩
    exact ⟨rules, trees, rest, hrules, htrees, embedded, Transfer.toRule_treesOf htrees,
      grove_of_commits hc
        (Document.stored_append kept embedded (Transfer.nodup_treesOf htrees))⟩

/-- A drawn id is that of no vertex. -/
theorem chooseId_not_mem_ids (h : e.Sound) {id : Option String}
    (hid : ∀ j, id = some j → j ∉ ids e.grove) : (e.chooseId id).1 ∉ ids e.grove := by
  cases id with
  | some j => exact hid j rfl
  | none =>
      exact fun hm => (IdSupply.Draws.one (e.supply e.document)).free _ List.mem_cons_self
        (h.stored.keys_perm.mem_iff.mpr hm)

/-- A sound editor accepts what each command asks for, where the grove allows it. -/
theorem Sound.accepts (h : e.Sound) : e.Accepts where
  add id new above hid habove := by
    obtain ⟨d, hd⟩ := Document.exists_add h.stored new (chooseId_not_mem_ids h hid) habove
    rw [on_add, hd]
    exact ⟨_, _, rfl⟩
  update id patch hid := by
    obtain ⟨d, hd⟩ := Document.exists_update h.stored patch hid
    rw [on_update, hd]
    exact ⟨_, rfl⟩
  remove id hid := by
    obtain ⟨d, hd⟩ := Document.exists_remove h.stored hid
    rw [on_remove, hd]
    exact ⟨_, rfl⟩
  move id above index place hplace hother habove := by
    obtain ⟨d, hd⟩ := Document.exists_move h.stored hplace hother habove index
    rw [on_move, hd]
    exact ⟨_, rfl⟩
  reorder id index place hplace hne := by
    obtain ⟨d, hd⟩ := Document.exists_reorder h.stored hplace hne
    rw [on_reorder, hd]
    exact ⟨_, rfl⟩
  load content options rules tree trees rest hrules htrees := by
    cases rules with
    | nil => cases htrees
    | cons rule rules =>
        rw [on_load, hrules]
        simp only [htrees]
        exact ⟨_, _, rfl⟩

/-- **After any run of commands an editor edits an ordered grove.** -/
theorem refines_run (settings : Settings) (commands : List Command) :
    ((new settings).run commands).Refines ∧ ((new settings).run commands).Accepts :=
  have h := sound_run (sound_new settings) commands
  ⟨h.refines, h.accepts⟩

/-- A comparison is loaded behind a group, and then a negated one in place of both. -/
example :
    let e := (new ⟨false, false, 1, .standard⟩).run
      [.add (some "g") ⟨none, none, .group .and⟩ none, .load "a == 1" ⟨.dsl, true⟩]
    let e' := e.run [.load "NOT (b == 2)" ⟨.dsl, false⟩]
    e.grove.map Branch.id = ["g", "@0001"] ∧
      e'.grove.map Branch.id = ["@0002"] ∧ ids e'.grove = ["@0002", "@0003"] := by
  decide +kernel

end Editor

end Rulebook
