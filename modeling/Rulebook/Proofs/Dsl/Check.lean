import Rulebook.Dsl.Printer

/-!
# Rulebook — Proofs — Dsl — Check

What the parts of a rule are like that passes the check in front of the printer.
-/

namespace Rulebook

variable {ε α : Type}

theorem bind_eq_ok_iff {β : Type} {x : Except ε α} {f : α → Except ε β} {b : β} :
    (x >>= f) = .ok b ↔ ∃ a, x = .ok a ∧ f a = .ok b := by
  cases x with
  | error e => exact ⟨nofun, fun ⟨_, h, _⟩ => nomatch h⟩
  | ok a => exact ⟨fun h => ⟨a, rfl, h⟩, fun ⟨_, h, hb⟩ => Except.ok.inj h ▸ hb⟩

theorem pure_eq_ok_iff {a b : α} : (pure a : Except ε α) = .ok b ↔ a = b :=
  ⟨Except.ok.inj, congrArg Except.ok⟩

theorem ok_andThen_iff {x y : Except ε Unit} :
    (do x; y) = Except.ok () ↔ x = .ok () ∧ y = .ok () := by
  cases x with
  | error e => exact ⟨nofun, fun h => nomatch h.1⟩
  | ok u => exact ⟨fun h => ⟨rfl, h⟩, fun h => h.2⟩

theorem andThen_error_iff {x y : Except ε Unit} {e : ε} :
    (do x; y) = Except.error e ↔ x = .error e ∨ (x = .ok () ∧ y = .error e) := by
  cases x with
  | error d => exact ⟨.inl, fun h => h.elim id fun h => nomatch h.1⟩
  | ok u => exact ⟨fun h => .inr ⟨rfl, h⟩, fun h => h.elim (nomatch ·) And.right⟩

theorem forM_ok_iff {f : α → Except ε Unit} {l : List α} :
    l.forM f = Except.ok () ↔ ∀ a ∈ l, f a = .ok () := by
  induction l with
  | nil => exact ⟨fun _ _ ha => (nomatch ha), fun _ => rfl⟩
  | cons a l ih =>
      show (do f a; l.forM f) = Except.ok () ↔ _
      rw [ok_andThen_iff, ih]
      simp

theorem checkName_ok_iff {role : NameRole} {name : String} :
    checkName role name = .ok () ↔ isName name = true := by
  rw [checkName]
  split <;> simp_all

namespace Atom

theorem check_condition {c : Condition} (h : (condition c).check = .ok ()) :
    isName c.field = true ∧ c.value.checkOperand c.kind = .ok () := by
  obtain ⟨hf, hv⟩ := ok_andThen_iff.mp h
  exact ⟨checkName_ok_iff.mp hf, hv⟩

theorem check_uniqueBy {array key : String} (h : (uniqueBy array key).check = .ok ()) :
    isName array = true := checkName_ok_iff.mp h

theorem check_length {bound : LengthBound} {array : String} {limit : UInt64}
    (h : (length bound array limit).check = .ok ()) : isName array = true :=
  checkName_ok_iff.mp h

theorem check_call {name : String} {args : List Argument} (h : (call name args).check = .ok ()) :
    isName name = true ∧ isReservedCall name = false ∧
      ∀ a ∈ args, a.value.checkOperand a.kind = .ok () := by
  simp only [check] at h
  split at h
  · rename_i hc
    rw [Bool.and_eq_true, Bool.not_eq_true'] at hc
    exact ⟨hc.1, hc.2, forM_ok_iff.mp h⟩
  · cases h

theorem check_template {id : String} {params : KeyMap Literal}
    (h : (template id params).check = .ok ()) :
    ∀ e ∈ params.entries, isName e.1 = true ∧ e.2.check = .ok () := by
  intro e he
  obtain ⟨hk, hv⟩ := ok_andThen_iff.mp (forM_ok_iff.mp h e he)
  exact ⟨checkName_ok_iff.mp hk, hv⟩

end Atom

namespace Scope

theorem check_withDefault {field : String} {v : Literal}
    (h : (withDefault field v).check = .ok ()) : isName field = true ∧ v.check = .ok () := by
  obtain ⟨hf, hv⟩ := ok_andThen_iff.mp h
  exact ⟨checkName_ok_iff.mp hf, hv⟩

end Scope

namespace Rule

theorem check_scope {s : Scope} {body : Rule} {note : Option Metadata}
    (h : (scope s body note).check = .ok ()) : s.check = .ok () ∧ body.check = .ok () := by
  rw [check] at h
  exact ok_andThen_iff.mp h

theorem checkAll_ok_iff {rs : List Rule} :
    checkAll rs = .ok () ↔ ∀ r ∈ rs, r.check = .ok () := by
  induction rs with
  | nil => simp [checkAll]
  | cons r rs ih => rw [checkAll, ok_andThen_iff, ih]; simp

theorem check_junction {j : Junction} {members : List Rule} {note : Option Metadata}
    (h : (junction j members note).check = .ok ()) : ∀ r ∈ members, r.check = .ok () := by
  rw [check] at h
  exact checkAll_ok_iff.mp h

end Rule

/-- Written is what has few enough levels and passes the check. -/
theorem Dsl.print_eq_ok_iff {r : Rule} {o : Layout} {text : String} : print r o = .ok text ↔
    r.depth ≤ nestingLimit ∧ r.check = .ok () ∧ text = String.ofList (o.render r) := by
  rw [print, write]
  split
  · exact ⟨nofun, fun h => absurd h.1 (by omega)⟩
  · rename_i hd
    cases hc : r.check with
    | error e => exact ⟨nofun, fun h => nomatch h.2.1⟩
    | ok u =>
        exact ⟨fun h => ⟨Nat.le_of_not_lt hd, rfl, (Except.ok.inj h).symm⟩,
          fun h => congrArg Except.ok h.2.2.symm⟩

end Rulebook
