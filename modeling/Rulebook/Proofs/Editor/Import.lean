import Rulebook.Editor.Transfer
import Rulebook.Proofs.Dsl.Produced

/-!
# Rulebook — Proofs — Editor — Import

Importing a rule text.  The grammar reads names where nodes ask for them, so that behind the grammar
only two things can go wrong: nodes hold fewer levels than a text can have, and a text in quotes may
be empty.

* `toNode_of_named`: the node tree of a rule with named heads, and why there may be none.
* `treeOf_of_parse`: the same for a text that holds a rule.
-/

namespace Rulebook

namespace Rule

/-- A rule that can be drawn is a tree of nodes, which is that rule. -/
theorem toNode_of_checkDrawable {r : Rule} (h : r.checkDrawable = .ok ()) :
    ∃ n, r.toNode = .ok n ∧ n.toRule = .ok r := by
  have drawn := toNodeWith_eq_ok_iff (s := .fresh).mpr ⟨h, rfl⟩
  refine ⟨_, ?_, (toRule_of_toNodeWith drawn).2⟩
  rw [toNode, drawn]
  rfl

/-- A rule that cannot be drawn is no tree, for the same reason. -/
theorem toNode_of_refused {r : Rule} {e : ConversionError} (h : r.checkDrawable = .error e) :
    r.toNode = .error e := by
  rw [toNode, toNodeWith, h]
  rfl

/-- A rule with named heads has a node tree, which is converted back to the rule, unless it has too
many levels or one of its texts is empty. -/
theorem toNode_of_named {r : Rule} (named : ∀ q ∈ r.preorder, q.head.Named) :
    (r.depth ≤ nestingLimit ∧ "" ∉ r.texts ∧ ∃ n, r.toNode = .ok n ∧ n.toRule = .ok r) ∨
      (nestingLimit < r.depth ∧ r.toNode = .error (.tooDeep r.depth)) ∨
      (r.depth ≤ nestingLimit ∧ "" ∈ r.texts ∧ ∃ what, r.toNode = .error (.emptyName what)) := by
  rcases checkDrawable_of_named named with ⟨deep, h⟩ | ⟨shallow, empty, what, h⟩ |
      ⟨shallow, full, h⟩
  · exact .inr (.inl ⟨deep, toNode_of_refused h⟩)
  · exact .inr (.inr ⟨shallow, empty, what, toNode_of_refused h⟩)
  · exact .inl ⟨shallow, full, toNode_of_checkDrawable h⟩

end Rule

namespace Transfer

variable {content : String} {r : Rule} {n : Node} {e : ConversionError}

/-- The tree of a text is that of the rule that is read from it. -/
theorem treeOf_eq_ok (h : Dsl.parse content = .ok (some r)) (hn : r.toNode = .ok n) :
    treeOf content = .ok (some n) := by
  simp only [treeOf, h, hn]

/-- Where the rule cannot be drawn the text is no tree. -/
theorem treeOf_eq_error (h : Dsl.parse content = .ok (some r)) (hn : r.toNode = .error e) :
    treeOf content = .error (.conversion e) := by
  simp only [treeOf, h, hn]

/-- **A text that holds a rule is imported** as a tree that is converted back to the rule, unless
the rule has too many levels or one of these is empty: a key, the source of a contextual template
or of an expression, the id of a template, a custom kind. -/
theorem treeOf_of_parse (h : Dsl.parse content = .ok (some r)) :
    (r.depth ≤ nestingLimit ∧ "" ∉ r.texts ∧
        ∃ n, treeOf content = .ok (some n) ∧ n.toRule = .ok r) ∨
      (nestingLimit < r.depth ∧ treeOf content = .error (.conversion (.tooDeep r.depth))) ∨
      (r.depth ≤ nestingLimit ∧ "" ∈ r.texts ∧
        ∃ what, treeOf content = .error (.conversion (.emptyName what))) := by
  rcases Rule.toNode_of_named (Dsl.named_of_parse h) with ⟨shallow, full, n, hn, back⟩ |
      ⟨deep, hn⟩ | ⟨shallow, empty, what, hn⟩
  · exact .inl ⟨shallow, full, n, treeOf_eq_ok h hn, back⟩
  · exact .inr (.inl ⟨deep, treeOf_eq_error h hn⟩)
  · exact .inr (.inr ⟨shallow, empty, what, treeOf_eq_error h hn⟩)

/-- A key is needed, and whatever it is, it is kept. -/
theorem treeOf_of_parse_key :
    (∃ n, treeOf "uniqueBy(items, \" \")" = .ok (some n) ∧
      n.toRule = .ok (.atom (.uniqueBy "items" " ") none)) ∧
    ∃ what, treeOf "uniqueBy(items, \"\")" = .error (.conversion (.emptyName what)) := by
  have blank : Dsl.parse "uniqueBy(items, \" \")" =
      .ok (some (.atom (.uniqueBy "items" " ") none)) := rfl
  have empty : Dsl.parse "uniqueBy(items, \"\")" =
      .ok (some (.atom (.uniqueBy "items" "") none)) := rfl
  constructor
  · rcases treeOf_of_parse blank with ⟨-, -, imported⟩ | ⟨deep, -⟩ | ⟨-, missing, -⟩
    · exact imported
    · exact absurd deep (by decide)
    · exact absurd missing (by decide)
  · rcases treeOf_of_parse empty with ⟨-, full, -⟩ | ⟨deep, -⟩ | ⟨-, -, refused⟩
    · exact absurd (by decide) full
    · exact absurd deep (by decide)
    · exact refused

end Transfer

end Rulebook
