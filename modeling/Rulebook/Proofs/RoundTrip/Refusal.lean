import Rulebook.Proofs.Rule.Codec
import Rulebook.Proofs.RoundTrip.Soundness

/-!
# Rulebook — Proofs — RoundTrip — Refusal

Why a rule that was read is not written back.  The grammar admits no name that the printer refuses
(`Dsl.clears_of_parse`), but a number with a point has as many digits as it likes, and one beyond
the range of floating-point numbers is read as infinity.  So a rule of admissible depth that was
read is written, in every layout, if its numbers are finite, and otherwise refused for one that is
not.

* `not_finite_of_check`: a refusal for a number that is not finite means that there is one.
* `print_of_parse`: both outcomes, for whole texts.
-/

namespace Rulebook

variable {ε α : Type}

/-- A traversal that fails has failed at one of the elements. -/
theorem exists_of_forM_error {f : α → Except ε Unit} {l : List α} {e : ε}
    (h : l.forM f = .error e) : ∃ a ∈ l, f a = .error e := by
  induction l with
  | nil => cases h
  | cons a l ih =>
      rcases andThen_error_iff.mp h with ha | ⟨-, hl⟩
      · exact ⟨a, List.mem_cons_self, ha⟩
      · obtain ⟨b, hb, hf⟩ := ih hl
        exact ⟨b, List.mem_cons_of_mem a hb, hf⟩

/-! ### Refused numbers -/

variable {x : Binary64}

theorem checkName_ne_notFinite {role : NameRole} {name : String} :
    checkName role name ≠ .error (.notFinite x) := by
  intro h
  rw [checkName] at h
  split at h <;> cases h

namespace Literal

theorem isRenderable_of_refused {v : Literal} (h : v.check = .error (.notFinite x)) :
    v.isRenderable = false := by
  cases v with
  | float y =>
      rw [check] at h
      split at h
      · cases h
      · rename_i infinite
        exact Bool.eq_false_of_not_eq_true infinite
  | _ => cases h

/-- A reference is refused as a name. -/
theorem isRenderable_of_refusedOperand {v : Literal} {kind : OperandKind}
    (h : v.checkOperand kind = .error (.notFinite x)) : v.isRenderable = false := by
  cases kind with
  | literal => exact isRenderable_of_refused h
  | fieldReference =>
      cases v with
      | string s =>
          rw [checkOperand, checkReference] at h
          split at h <;> cases h
      | _ => cases h

end Literal

namespace Rule

theorem exists_refused_atom {a : Atom} (h : a.check = .error (.notFinite x)) :
    ∃ v ∈ (Head.atom a).literals, v.isRenderable = false := by
  cases a with
  | condition c =>
      rcases andThen_error_iff.mp h with h | ⟨-, h⟩
      · exact absurd h checkName_ne_notFinite
      · exact ⟨c.value, List.mem_singleton_self _, Literal.isRenderable_of_refusedOperand h⟩
  | call name args =>
      rw [Atom.check] at h
      split at h
      · obtain ⟨b, hb, h⟩ := exists_of_forM_error h
        exact ⟨b.value, List.mem_map_of_mem hb, Literal.isRenderable_of_refusedOperand h⟩
      · cases h
  | template id params =>
      obtain ⟨e, he, h⟩ := exists_of_forM_error h
      rcases andThen_error_iff.mp h with h | ⟨-, h⟩
      · exact absurd h checkName_ne_notFinite
      · exact ⟨e.2, List.mem_map_of_mem he, Literal.isRenderable_of_refused h⟩
  | uniqueBy array key => exact absurd h checkName_ne_notFinite
  | length bound array limit => exact absurd h checkName_ne_notFinite
  | _ => cases h

theorem exists_refused_scope {s : Scope} (h : s.check = .error (.notFinite x)) :
    ∃ v ∈ (Head.scope s).literals, v.isRenderable = false := by
  cases s with
  | withDefault field v =>
      rcases andThen_error_iff.mp h with h | ⟨-, h⟩
      · exact absurd h checkName_ne_notFinite
      · exact ⟨v, List.mem_singleton_self _, Literal.isRenderable_of_refused h⟩
  | _ => exact absurd h checkName_ne_notFinite

/-- A rule with a value in its head that cannot be written is not finite. -/
theorem not_finite_of_head {r : Rule} (h : ∃ v ∈ r.head.literals, v.isRenderable = false) :
    ¬ r.Finite := by
  obtain ⟨v, hv, infinite⟩ := h
  intro finite
  rw [(finite_iff.mp finite).1 v hv] at infinite
  cases infinite

mutual

/-- **A refusal for a number that is not finite means that there is one.** -/
theorem not_finite_of_check : (r : Rule) → r.check = .error (.notFinite x) → ¬ r.Finite
  | .atom _ _, h => not_finite_of_head (exists_refused_atom h)
  | .scope s body note, h => by
      rw [check, andThen_error_iff] at h
      rcases h with h | ⟨-, h⟩
      · exact not_finite_of_head (exists_refused_scope h)
      · exact fun finite =>
          not_finite_of_check body h ((finite_iff.mp finite).2 body (List.mem_singleton_self _))
  | .junction j members note, h => fun finite => by
      obtain ⟨r, hr, infinite⟩ := exists_not_finite_of_checkAll members h
      exact infinite ((finite_iff.mp finite).2 r hr)

theorem exists_not_finite_of_checkAll : (rs : List Rule) →
    checkAll rs = .error (.notFinite x) → ∃ r ∈ rs, ¬ r.Finite
  | [], h => nomatch h
  | r :: rs, h => by
      rw [checkAll, andThen_error_iff] at h
      rcases h with h | ⟨-, h⟩
      · exact ⟨r, List.mem_cons_self, not_finite_of_check r h⟩
      · obtain ⟨q, hq, infinite⟩ := exists_not_finite_of_checkAll rs h
        exact ⟨q, List.mem_cons_of_mem r hq, infinite⟩

end

mutual

/-- What passes the check is finite. -/
theorem finite_of_check : (r : Rule) → r.check = .ok () → r.Finite
  | .atom _ _, h => finite_iff.mpr ⟨isRenderable_of_check h, nofun⟩
  | .scope _ body _, h => finite_iff.mpr ⟨isRenderable_of_check h,
      List.forall_mem_singleton.mpr (finite_of_check body (check_scope h).2)⟩
  | .junction _ members _, h => finite_iff.mpr ⟨isRenderable_of_check h,
      finite_of_checkAll members (checkAll_ok_iff.mpr (check_junction h))⟩

theorem finite_of_checkAll : (rs : List Rule) → checkAll rs = .ok () → ∀ r ∈ rs, r.Finite
  | [], _ => List.forall_mem_nil _
  | r :: rs, h => by
      obtain ⟨hr, hrs⟩ := List.forall_mem_cons.mp (checkAll_ok_iff.mp h)
      exact List.forall_mem_cons.mpr
        ⟨finite_of_check r hr, finite_of_checkAll rs (checkAll_ok_iff.mpr hrs)⟩

end

end Rule

/-! ### Whole texts -/

namespace Dsl

/-- A rule that fails the check is not written, for the same reason. -/
theorem print_of_refused {r : Rule} {e : RenderError} (hd : r.depth ≤ nestingLimit)
    (hc : r.check = .error e) (o : Layout) : print r o = .error e := by
  rw [print, write, if_neg (Nat.not_lt.mpr hd), hc]
  rfl

/-- **What was read is written back unless a number in it is not finite.**  A rule of admissible
depth that was read from a text is written in every layout if its numbers are finite; otherwise the
text holds a number beyond the range of floating-point numbers, and every layout refuses such a
one. -/
theorem print_of_parse {text : String} {r : Rule} (h : parse text = .ok (some r))
    (hd : r.depth ≤ nestingLimit) (o : Layout) :
    (r.Finite ∧ ∃ t, print r o = .ok t) ∨
      (¬ r.Finite ∧ ¬ Tame text.toList ∧
        ∃ x, x.isFinite = false ∧ print r o = .error (.notFinite x)) := by
  cases hc : r.check with
  | ok u => exact .inl ⟨r.finite_of_check hc, _, print_eq_ok_iff.mpr ⟨hd, hc, rfl⟩⟩
  | error e =>
      obtain ⟨wild, x, infinite, rfl⟩ := clears_of_parse h e hc
      exact .inr ⟨r.not_finite_of_check hc, wild, x, infinite, print_of_refused hd hc o⟩

/-- Keywords as names, and a number within the range. -/
theorem print_of_parse_keywords :
    let r : Rule := .group .or
      [.atom (.condition ⟨"and", .equals, .float (.ofDecimal true 25 (-1)), .literal⟩) none,
        .atom (.call "f" [⟨.string "xor", .fieldReference⟩]) none]
    parse "and == -2.5 OR f(xor)" = .ok (some r) ∧ r.Finite ∧
      ∃ t, print r .standard = .ok t := by
  have finite : (Rule.group .or
      [.atom (.condition ⟨"and", .equals, .float (.ofDecimal true 25 (-1)), .literal⟩) none,
        .atom (.call "f" [⟨.string "xor", .fieldReference⟩]) none]).Finite := by decide +kernel
  have read : parse "and == -2.5 OR f(xor)" = .ok (some (.group .or
      [.atom (.condition ⟨"and", .equals, .float (.ofDecimal true 25 (-1)), .literal⟩) none,
        .atom (.call "f" [⟨.string "xor", .fieldReference⟩]) none])) := rfl
  rcases print_of_parse read (by decide) .standard with ⟨-, h⟩ | ⟨infinite, -⟩
  · exact ⟨read, finite, h⟩
  · exact absurd finite infinite

/-- One with 309 zeros in front of its point is read as infinity, which no layout writes. -/
theorem print_of_parse_overflow :
    let text := String.ofList ("a == 1".toList ++ List.replicate 309 '0' ++ ".0".toList)
    ∃ r, parse text = .ok (some r) ∧ r.depth ≤ nestingLimit ∧
      ∀ o, print r o = .error (.notFinite (.infinity false)) := by
  intro text
  let refused (r : Rule) : Bool :=
    r.depth ≤ nestingLimit && r.check = .error (.notFinite (.infinity false))
  have found : (read ("a == 1".toList ++ List.replicate 309 '0' ++ ".0".toList)).toOption.join.any
      refused = true := by decide +kernel
  rw [parse, String.toList_ofList]
  cases h : read ("a == 1".toList ++ List.replicate 309 '0' ++ ".0".toList) with
  | error e => rw [h] at found; cases found
  | ok o =>
      rw [h] at found
      cases o with
      | none => cases found
      | some r =>
          obtain ⟨hd, hc⟩ := Bool.and_eq_true_iff.mp found
          rw [decide_eq_true_eq] at hd hc
          exact ⟨r, rfl, hd, print_of_refused hd hc⟩

end Dsl

end Rulebook
