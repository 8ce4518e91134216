import Rulebook.Proofs.Dsl.RoundTrip
import Rulebook.Proofs.Node.Agreement
import Rulebook.Proofs.RoundTrip.Stages

/-!
# Rulebook — Proofs — RoundTrip — Drift

A round trip raises no false alarm.  What is written reads back as the rule it was, with its
records or without them, and so the tree that is rebuilt has drifted from its source by nothing but
the records that were not written.

* `differences_of_mirrors`: what is found between two trees of one rule, of which the second may be
  without records.
* `validate_of_print`: the whole report on a tree that is converted and written.
-/

namespace Rulebook

/-! ### A rule without its records -/

namespace Rule

/-- The rule, without its records unless they are kept. -/
def kept (keep : Bool) (r : Rule) : Rule := if keep then r else r.bare

theorem bareAll_eq_map (rs : List Rule) : bareAll rs = rs.map bare := by
  induction rs with
  | nil => rfl
  | cons r rs ih => rw [bareAll, ih, List.map_cons]

section

variable (keep : Bool) (r : Rule)

@[simp] theorem head_kept : (r.kept keep).head = r.head := by
  cases keep <;> cases r <;> rfl

theorem note_kept : (r.kept keep).note = if keep then r.note else none := by
  cases keep <;> cases r <;> rfl

theorem children_kept : (r.kept keep).children = r.children.map (kept keep) := by
  cases keep with
  | true => exact (List.map_id r.children).symm
  | false =>
      cases r with
      | junction j members note => exact bareAll_eq_map members
      | _ => rfl

end

mutual

/-- Records make no difference to the levels, to the number of rules and to what nodes can hold. -/
theorem extent_bare : (r : Rule) →
    r.bare.depth = r.depth ∧ r.bare.count = r.count ∧ r.bare.checkNodes = r.checkNodes
  | .atom _ _ => ⟨rfl, rfl, rfl⟩
  | .scope s body _ => by
      obtain ⟨hd, hc, hk⟩ := extent_bare body
      simp only [bare, depth, count, checkNodes, hd, hc, hk, and_self]
  | .junction j members _ => by
      obtain ⟨hd, hc, hk⟩ := extent_bareAll members
      simp only [bare, depth, count, checkNodes, hd, hc, hk, and_self]

theorem extent_bareAll : (rs : List Rule) → depthAll (bareAll rs) = depthAll rs ∧
    countAll (bareAll rs) = countAll rs ∧ checkNodesAll (bareAll rs) = checkNodesAll rs
  | [] => ⟨rfl, rfl, rfl⟩
  | r :: rs => by
      obtain ⟨hd, hc, hk⟩ := extent_bare r
      obtain ⟨hds, hcs, hks⟩ := extent_bareAll rs
      simp only [bareAll, depthAll, countAll, checkNodesAll, hd, hc, hk, hds, hcs, hks, and_self]

end

theorem count_kept (keep : Bool) (r : Rule) : (r.kept keep).count = r.count := by
  cases keep with
  | true => rfl
  | false => exact r.extent_bare.2.1

theorem checkDrawable_kept (keep : Bool) (r : Rule) :
    (r.kept keep).checkDrawable = r.checkDrawable := by
  cases keep with
  | true => rfl
  | false =>
      obtain ⟨hd, -, hk⟩ := r.extent_bare
      simp only [kept, Bool.false_eq_true, if_false, checkDrawable, hd, hk]

end Rule

namespace Node

mutual

/-- Every node of an embedded tree, each before the nodes below it. -/
def preorder : Node → List Node
  | ⟨id, label, note, children, parent, config⟩ =>
    ⟨id, label, note, children, parent, config⟩ :: preorderEntries children

/-- Every node of several embedded trees, tree after tree. -/
def preorderEntries : List Entry → List Node
  | [] => []
  | .ref _ :: es => preorderEntries es
  | .node n :: es => preorder n ++ preorderEntries es

end

end Node

namespace RoundTrip

/-! ### Differences -/

/-- The warning about a record that was lost. -/
def lostRecord (n : Node) : Diagnostic :=
  .warning .roundTripMetadata "metadata was not preserved" (some n.id)

/-- The warnings about the records of nodes, all of which were lost. -/
def lostRecords (ns : List Node) : List Diagnostic :=
  (ns.filter fun n => n.note.isSome).map lostRecord

theorem lostRecords_append (ms ns : List Node) :
    lostRecords (ms ++ ns) = lostRecords ms ++ lostRecords ns := by
  rw [lostRecords, List.filter_append, List.map_append]
  rfl

section

variable {s : Settings} {n m : Node}

/-- Nodes of one configuration and with as many children differ in their records at most. -/
theorem differences_of_config (hc : n.config = m.config)
    (hl : n.children.length = m.children.length) : differences s n m =
      (if s.checkRecords && n.note != m.note then [lostRecord n] else []) ++
        differencesBelow s n.children m.embedded := by
  obtain ⟨id, label, note, children, parent, config⟩ := n
  have hshape : shapeDiffers ⟨id, label, note, children, parent, config⟩ m = false := by
    simp only at hc hl
    simp [shapeDiffers, Node.kind, hc, hl]
  have hconfig : config.toJson.agrees m.config.toJson = true := hc ▸ config.agrees_toJson_self
  rw [differences, hshape, if_neg Bool.false_ne_true, partWarnings, hconfig]
  simp [lostRecord]

end

mutual

/-- Between two trees that mirror one rule, the second one perhaps without its records, only the
records that were lost are found. -/
theorem differences_of_mirrors (s : Settings) (keep : Bool) : (n m : Node) → (r : Rule) →
    n.Mirrors r → m.Mirrors (r.kept keep) → differences s n m =
      if keep || !s.checkRecords then [] else lostRecords n.preorder
  | ⟨id, label, note, children, parent, config⟩, m, r, hn, hm => by
      obtain ⟨hc, hnote, hes⟩ := hn
      obtain ⟨hc', hnote', hfs⟩ := Node.mirrors_iff.mp hm
      rw [Rule.head_kept] at hc'
      rw [Rule.note_kept] at hnote'
      rw [Rule.children_kept] at hfs
      have hl : children.length = m.children.length := by
        rw [hes.length_eq, hfs.length_eq, List.length_map]
      rw [differences_of_config (hc.trans hc'.symm) hl, Node.embedded,
        differencesBelow_of_mirrors s keep children m.children r.children hes hfs, hnote',
        Node.preorder]
      obtain rfl := hnote
      cases keep with
      | true => simp
      | false =>
          cases s.checkRecords with
          | false => simp
          | true => cases r.note <;> simp [lostRecords, lostRecord, List.filter]

theorem differencesBelow_of_mirrors (s : Settings) (keep : Bool) : (es fs : List Entry) →
    (rs : List Rule) → Node.MirrorsAll es rs → Node.MirrorsAll fs (rs.map (Rule.kept keep)) →
    differencesBelow s es (fs.filterMap Entry.node?) =
      if keep || !s.checkRecords then [] else lostRecords (Node.preorderEntries es)
  | [], _, [], _, _ => by simp [differencesBelow, Node.preorderEntries, lostRecords]
  | .node _ :: _, [], _ :: _, _, hm => hm.elim
  | .node n :: es, .node m :: fs, r :: rs, hn, hm => by
      rw [List.filterMap_cons_some (f := Entry.node?) rfl, differencesBelow,
        differences_of_mirrors s keep n m r hn.1 hm.1,
        differencesBelow_of_mirrors s keep es fs rs hn.2 hm.2, Node.preorderEntries,
        lostRecords_append]
      split <;> rfl

end

/-! ### The whole report -/

/-- **A tree that is converted and written passes every stage.**  It is read back as its rule, with
the records that were written; a warning is given for each record that was not, in order of the
nodes, and for nothing else.

A plain function named like a keyword would read as that keyword, and a payload that nests too deep
would not read as JSON; the members of any list in memory can be counted in words of 64 bits. -/
theorem validate_of_print {s : Settings} {n : Node} {r : Rule} {text : String}
    (hr : n.toRule = .ok r) (ht : Dsl.print r s.layout = .ok text)
    (calls : ∀ name args note, Rule.atom (.call name args) note ∈ r.preorder →
      Connective.ofKeyword? name.toList = none)
    (payloads : ∀ name payload note, Rule.atom (.custom name payload) note ∈ r.preorder →
      payload.value.nesting ≤ Json.depthLimit)
    (sizes : ∀ q ∈ r.preorder, q.children.length ≤ UInt64.size) :
    (validate s n).success = true ∧
      (validate s n).stages = Report.allPassed ∧
      (validate s n).errors = [] ∧
      (validate s n).rule = some r ∧
      (validate s n).text = some text ∧
      (validate s n).reparsed = some (if s.layout.withRecords then r else r.bare) ∧
      (∃ m, (validate s n).rebuilt = some m) ∧
      (validate s n).warnings =
        if s.layout.withRecords || !s.checkRecords then []
        else (n.preorder.filter fun a => a.note.isSome).map fun a =>
          .warning .roundTripMetadata "metadata was not preserved" (some a.id) := by
  have read : readRule text = .ok (r.kept s.layout.withRecords) := by
    rw [readRule, Dsl.parse_print ht calls payloads sizes]
    rfl
  obtain ⟨mirrors, drawable⟩ := Node.toRule_eq_ok_iff.mp hr
  -- what is read back can be drawn as well, and the drawn tree mirrors it
  obtain ⟨m, t, drawn⟩ : ∃ m t, (r.kept s.layout.withRecords).toNodeWith .fresh = .ok (m, t) :=
    ⟨_, _, Rule.toNodeWith_eq_ok_iff.mpr ⟨(Rule.checkDrawable_kept _ r).trans drawable, rfl⟩⟩
  have rebuilt : m.Mirrors (r.kept s.layout.withRecords) :=
    (Rule.toRule_of_toNodeWith drawn).1
  have count : countWarnings n m = [] := by
    rw [countWarnings, if_pos]
    rw [mirrors.count_eq, rebuilt.count_eq, Rule.count_kept]
  have back : (r.kept s.layout.withRecords).toNode = .ok m := by rw [Rule.toNode, drawn]; rfl
  rw [validate_of_ok hr ht read back, count, differences_of_mirrors s _ n m r mirrors rebuilt]
  exact ⟨rfl, rfl, rfl, rfl, rfl, rfl, ⟨m, rfl⟩, rfl⟩

/-- The record of a negation is not written, and the only warning names its node. -/
theorem validate_of_print_not :
    let n : Node := ⟨"top", none, some ⟨some "E1", none, none⟩,
      [.node (.bare "below" (.fieldCondition (some "age") (some .lessThan) (some (.int 18))))],
      none, .group .not⟩
    let s : Settings := ⟨⟨false, 2, false, .before⟩, true, true⟩
    (validate s n).success = true ∧ (validate s n).warnings =
      [.warning .roundTripMetadata "metadata was not preserved" (some "top")] := by
  intro n s
  let r : Rule := .junction (.connective .not) [.compare "age" .lessThan (.int 18)] n.note
  have all : r.preorder = [r, .compare "age" .lessThan (.int 18)] := rfl
  have report := validate_of_print (s := s) (n := n) (r := r) rfl rfl
    (fun name args note h => by
      rw [all] at h
      simp [r, Rule.compare] at h)
    (fun name payload note h => by
      rw [all] at h
      simp [r, Rule.compare] at h)
    (fun q hq => by
      rw [all] at hq
      rcases List.mem_cons.mp hq with rfl | hq
      · decide
      · obtain rfl := List.mem_singleton.mp hq
        decide)
  exact ⟨report.1, report.2.2.2.2.2.2.2⟩

end RoundTrip

end Rulebook
