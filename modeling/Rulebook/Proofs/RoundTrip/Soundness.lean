import Rulebook.Proofs.Dsl.Accepted
import Rulebook.Proofs.Dsl.Written
import Rulebook.Proofs.Node.Agreement
import Rulebook.Proofs.RoundTrip.Stages

/-!
# Rulebook — Proofs — RoundTrip — Soundness

A round trip without warnings has lost nothing.  The comparison at its end sees nodes only by kind,
number of children, record and configuration in JSON, where absent, null and non-finite values look
the same.  None of them hides a difference: the rules on both sides can be written, the one because
it was, the other because it was read from a written one, and so the numbers in them are finite.

* `agrees_of_differences`: two trees without differences mirror rules that agree.
* `agrees_of_success`: the whole report, whatever the functions of the tree are named and however
  deep its payloads nest.
-/

namespace Rulebook

/-! ### What a configuration tells -/

theorem Literal.isRenderable_of_check {v : Literal} (h : v.check = .ok ()) :
    v.isRenderable = true := by
  cases v with
  | float x => exact Dsl.isFinite_of_check h
  | _ => rfl

theorem Literal.isRenderable_of_checkOperand {v : Literal} {kind : OperandKind}
    (h : v.checkOperand kind = .ok ()) : v.isRenderable = true := by
  cases kind with
  | literal => exact isRenderable_of_check h
  | fieldReference =>
      obtain ⟨s, rfl, -⟩ := Dsl.exists_field_of_checkReference h
      rfl

namespace Rule

theorem check_children {r : Rule} (h : r.check = .ok ()) : ∀ q ∈ r.children, q.check = .ok () := by
  cases r with
  | atom a note => exact fun _ hq => nomatch hq
  | scope s body note => exact List.forall_mem_singleton.mpr (check_scope h).2
  | junction j members note => exact check_junction h

/-- The values in a rule that passes the check can be written. -/
theorem isRenderable_of_check {r : Rule} (h : r.check = .ok ()) :
    ∀ v ∈ r.head.literals, v.isRenderable = true := by
  intro v hv
  cases r with
  | junction j members note => cases hv
  | scope s body note =>
      cases s with
      | withDefault field w =>
          obtain rfl := List.mem_singleton.mp hv
          exact Literal.isRenderable_of_check (Scope.check_withDefault (check_scope h).1).2
      | _ => cases hv
  | atom a note =>
      cases a with
      | condition c =>
          obtain rfl := List.mem_singleton.mp hv
          exact Literal.isRenderable_of_checkOperand (Atom.check_condition h).2
      | call name args =>
          obtain ⟨a, ha, rfl⟩ := List.mem_map.mp hv
          exact Literal.isRenderable_of_checkOperand ((Atom.check_call h).2.2 a ha)
      | template id params =>
          obtain ⟨e, he, rfl⟩ := List.mem_map.mp hv
          exact Literal.isRenderable_of_check (Atom.check_template h e he).2
      | _ => cases hv

/-- Nodes can hold the rule, and a text can say it. -/
structure Told (r : Rule) : Prop where
  nodes : r.checkNodes = .ok ()
  text : r.check = .ok ()

namespace Told

variable {r : Rule}

theorem head (h : r.Told) : r.head.check = .ok () := (r.checkNodes_ok_iff.mp h.nodes).1

theorem children (h : r.Told) : ∀ q ∈ r.children, q.Told := fun q hq =>
  ⟨checkNodesAll_ok_iff.mp (r.checkNodes_ok_iff.mp h.nodes).2 q hq, check_children h.text q hq⟩

end Told

/-- Rules agree if their heads, the rules below and their records do. -/
theorem agrees_iff {r q : Rule} : r.agrees q = true ↔
    r.head.agrees q.head = true ∧ agreesAll r.children q.children = true ∧ r.note = q.note := by
  cases r <;> cases q <;>
    simp [agrees, agreesAll, Head.agrees, head, children, note, and_assoc]

theorem toNode_eq_ok_iff {r : Rule} {n : Node} :
    r.toNode = .ok n ↔ ∃ t, r.toNodeWith .fresh = .ok (n, t) := by
  rw [toNode]
  cases r.toNodeWith .fresh with
  | error e => simp [Except.map]
  | ok p =>
      obtain ⟨m, t⟩ := p
      simp [Except.map]

end Rule

namespace RoundTrip

variable {s : Settings} {n m : Node}

/-! ### Trees without differences -/

/-- What is compared of two nodes. -/
theorem parts_of_differences (hr : s.checkRecords = true) (hc : s.checkConfigs = true)
    (h : differences s n m = []) :
    n.children.length = m.children.length ∧ n.note = m.note ∧
      n.config.toJson.agrees m.config.toJson = true ∧
      differencesBelow s n.children m.embedded = [] := by
  obtain ⟨id, label, note, children, parent, config⟩ := n
  rw [differences] at h
  split at h
  · cases h
  · rename_i shape
    obtain ⟨parts, below⟩ := List.append_eq_nil_iff.mp h
    obtain ⟨records, configs⟩ := List.append_eq_nil_iff.mp parts
    simp only [shapeDiffers, Bool.or_eq_true, bne_iff_ne, not_or, not_not] at shape
    refine ⟨shape.2, ?_, ?_, below⟩
    · simpa [hr] using records
    · simpa [hc] using configs

mutual

/-- **Trees without differences mirror rules that agree.** -/
theorem agrees_of_differences (hs : s.checkRecords = true) (hc : s.checkConfigs = true) :
    (n m : Node) → (r q : Rule) → n.Mirrors r → m.Mirrors q → r.Told → q.Told →
    differences s n m = [] → r.agrees q = true
  | ⟨id, label, note, children, parent, config⟩, m, r, q, hn, hm, hr, hq, h => by
      obtain ⟨hl, hnote, hconfig, below⟩ := parts_of_differences hs hc h
      obtain ⟨hnc, hnn, hes⟩ := hn
      obtain ⟨hmc, hmn, hfs⟩ := Node.mirrors_iff.mp hm
      simp only [hnc, hmc] at hconfig
      have heads := Head.agrees_of_toJson hr.head hq.head (Rule.isRenderable_of_check hr.text)
        (Rule.isRenderable_of_check hq.text) hconfig
      have notes : r.note = q.note := by rw [← hnn, ← hmn, ← hnote]
      exact Rule.agrees_iff.mpr ⟨heads, agreesAll_of_differences hs hc children m.children
        r.children q.children hes hfs hr.children hq.children hl below, notes⟩

/-- Rules whose trees do not differ agree, records and configurations having been compared. -/
theorem agreesAll_of_differences (hs : s.checkRecords = true) (hc : s.checkConfigs = true) :
    (es fs : List Entry) → (rs qs : List Rule) → Node.MirrorsAll es rs → Node.MirrorsAll fs qs →
    (∀ r ∈ rs, r.Told) → (∀ q ∈ qs, q.Told) → es.length = fs.length →
    differencesBelow s es (fs.filterMap Entry.node?) = [] → Rule.agreesAll rs qs = true
  | [], [], [], [], _, _, _, _, _, _ => rfl
  | .node n :: es, .node m :: fs, r :: rs, q :: qs, hn, hm, hr, hq, hl, h => by
      rw [List.filterMap_cons_some (f := Entry.node?) rfl, differencesBelow] at h
      obtain ⟨first, more⟩ := List.append_eq_nil_iff.mp h
      rw [List.forall_mem_cons] at hr hq
      rw [Rule.agreesAll, Bool.and_eq_true]
      exact ⟨agrees_of_differences hs hc n m r q hn.1 hm.1 hr.1 hq.1 first,
        agreesAll_of_differences hs hc es fs rs qs hn.2 hm.2 hr.2 hq.2 (Nat.succ.inj hl) more⟩

end

/-! ### The whole report -/

theorem readRule_eq_ok {text : String} {r : Rule} (h : readRule text = .ok r) :
    Dsl.parse text = .ok (some r) := by
  rw [readRule] at h
  split at h
  · cases h
  · cases h
  · rename_i q hq
    cases h
    exact hq

/-- What was done when every stage passed. -/
theorem exists_of_success (h : (validate s n).success = true) :
    ∃ r text q m, n.toRule = .ok r ∧ Dsl.print r s.layout = .ok text ∧
      Dsl.parse text = .ok (some q) ∧ q.toNode = .ok m ∧
      validate s n =
        { stages := Report.allPassed
          rule := some r
          text := some text
          reparsed := some q
          rebuilt := some m
          errors := []
          warnings := countWarnings n m ++ differences s n m } := by
  rcases runStages_cases s n with ⟨r, text, q, m, hr, ht, hq, hm⟩ | ⟨k, halted⟩
  · exact ⟨r, text, q, m, hr, ht, readRule_eq_ok hq, hm, validate_of_ok hr ht hq hm⟩
  · rw [validate_of_halted halted, halted.success_eq_false] at h
    cases h

/-- **A round trip that passes without warnings has lost nothing.**  The rule of the tree is
written, and the text that is written is read back as a rule that agrees with it, records included;
nodes are drawn for the rule that was read, and the tree that is rebuilt so is converted back to it.
-/
theorem agrees_of_success (hs : s.checkRecords = true) (hc : s.checkConfigs = true)
    (h : (validate s n).success = true) (hw : (validate s n).warnings = []) :
    ∃ r text q m, (validate s n).rule = some r ∧ (validate s n).text = some text ∧
      (validate s n).reparsed = some q ∧ (validate s n).rebuilt = some m ∧
      n.toRule = .ok r ∧ Dsl.print r s.layout = .ok text ∧ Dsl.parse text = .ok (some q) ∧
      q.toNode = .ok m ∧ m.toRule = .ok q ∧ r.agrees q = true := by
  obtain ⟨r, text, q, m, hr, ht, hq, hm, report⟩ := exists_of_success h
  rw [report] at hw ⊢
  obtain ⟨t, drawn⟩ := Rule.toNode_eq_ok_iff.mp hm
  obtain ⟨mirrors, drawable⟩ := Node.toRule_eq_ok_iff.mp hr
  obtain ⟨rebuilt, back⟩ := Rule.toRule_of_toNodeWith drawn
  -- what was read back can be written, since it was read from a written rule
  obtain ⟨written, tame⟩ := Dsl.tame_of_print ht
  have told : r.Told := ⟨Rule.checkNodes_of_checkDrawable drawable, written⟩
  have told' : q.Told :=
    ⟨Rule.checkNodes_of_checkDrawable (Node.toRule_eq_ok_iff.mp back).2, Dsl.check_of_parse tame hq⟩
  have same := agrees_of_differences hs hc n m r q mirrors rebuilt told told'
    (List.append_eq_nil_iff.mp hw).2
  exact ⟨r, text, q, m, rfl, rfl, rfl, rfl, hr, ht, hq, hm, back, same⟩

/-- A function named like a keyword that reads back where it stands. -/
theorem agrees_of_success_keyword :
    let n : Node := .bare "top" (.call (some "AND") [⟨.string "a", .fieldReference⟩])
    ∃ r text q m, (validate .standard n).rule = some r ∧ (validate .standard n).text = some text ∧
      (validate .standard n).reparsed = some q ∧ (validate .standard n).rebuilt = some m ∧
      n.toRule = .ok r ∧ Dsl.print r .standard = .ok text ∧ Dsl.parse text = .ok (some q) ∧
      q.toNode = .ok m ∧ m.toRule = .ok q ∧ r.agrees q = true := by
  intro n
  have report : (validate .standard n).success = true ∧
      (validate .standard n).warnings.isEmpty = true := by decide +kernel
  exact agrees_of_success rfl rfl report.1 (List.isEmpty_iff.mp report.2)

end RoundTrip

end Rulebook
