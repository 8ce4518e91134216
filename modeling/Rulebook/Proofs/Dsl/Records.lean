import Rulebook.Proofs.Dsl.Comment

/-!
# Rulebook — Proofs — Dsl — Records

The records of a rule in its text.

* `Scans.lay`: the comments in the text of a rule are those of its records, when these are written
  in place, and there are none otherwise.
* `annotateAll_records`: setting the records of a rule one by one, each at its path, on the rule
  without records gives the rule.
-/

namespace Rulebook

open Dsl

/-! ### Found in the text -/

namespace Dsl

variable {o : Layout}

theorem quiet_opening (o : Layout) (level : Nat) (members : List Rule) (j : Junction) :
    Quiet (o.opening level members j) := by
  cases j with
  | quota kind count =>
      have name : Quiet kind.name.toList := by cases kind <;> decide
      have e : o.opening level members (.quota kind count) =
          kind.name.toList ++ (['('] ++ (Decimal.digitsOf count.toNat ++ [',', ' ', '['])) := by
        simp [Layout.opening]
      rw [e]
      exact name.append (.append (by decide) ((quiet_digitsOf _).append (by decide)))
  | connective op =>
      have word := quiet_keyword op
      have paren : Quiet ['('] := by decide
      cases members with
      | nil => exact paren.append word
      | cons m ms =>
          cases ms with
          | nil => exact paren.append (word.append (by decide))
          | cons _ _ =>
              simp only [Layout.opening]
              split
              · exact paren.append (word.append (by decide))
              · split
                · exact paren.append (quiet_newline o _)
                · exact paren

theorem quiet_separator (o : Layout) (level : Nat) (j : Junction) :
    Quiet (o.separator level j) := by
  cases j with
  | quota kind count => exact (by decide : Quiet [',', ' '])
  | connective op =>
      have word : Quiet (op.keyword.toList ++ [' ']) := (quiet_keyword op).append (by decide)
      have before : Quiet (if o.pretty then o.newline level else [' ']) := by
        split
        · exact quiet_newline o level
        · decide
      cases op with
      | not => exact (by decide : Quiet [',', ' '])
      | _ => exact (before.append (quiet_keyword _)).append (by decide)

theorem quiet_closing (o : Layout) (level : Nat) (members : List Rule) (j : Junction) :
    Quiet (o.closing level members j) := by
  cases j with
  | quota kind count => exact (by decide : Quiet [']', ')'])
  | connective op =>
      rw [Layout.closing]
      refine .append ?_ (by decide)
      split
      · exact quiet_newline o level
      · decide

mutual

/-- **The comments in the text of a rule.** -/
theorem Scans.lay : ∀ {r : Rule} (path : List Nat) (level : Nat), r.check = .ok () →
    Scans (o.lay path level r) (foundInline o (r.records path))
  | .atom a note, path, level, h => by
      rw [Layout.lay, Rule.records]
      exact (Scans.atom h).silent (.inlineRecord o path level note)
  | .scope s body note, path, level, h => by
      obtain ⟨hs, hb⟩ := Rule.check_scope h
      rw [Layout.lay, Rule.records, foundInline_append]
      exact (Scans.scope hs (.lay (path ++ [0]) level hb)).append (.inlineRecord o path level note)
  | .junction j members note, path, level, h => by
      have opening := Scans.quiet _ (quiet_opening o level members j)
      have closing := Scans.quiet _ (quiet_closing o level members j)
      rw [Layout.lay, Rule.records, foundInline_append]
      exact ((opening.silent (.layMembers path _ j 0 (Rule.check_junction h))).then closing).append
        (.inlineRecord o path level note)

theorem Scans.layMembers : ∀ {rs : List Rule} (path : List Nat) (level : Nat) (j : Junction)
    (i : Nat), (∀ r ∈ rs, r.check = .ok ()) →
    Scans (o.layMembers path level (o.separator level j) i rs)
      (foundInline o (Rule.recordsFrom path i rs))
  | [], _, _, _, _, _ => by
      rw [Layout.layMembers, Rule.recordsFrom]
      simpa [foundInline] using Scans.nil
  | r :: rs, path, level, j, i, h => by
      have first : Scans (o.lay (path ++ [i]) level r) (foundInline o (r.records (path ++ [i]))) :=
        .lay (path ++ [i]) level (h r List.mem_cons_self)
      have more := Scans.layMembers path level j (i + 1) fun r hr =>
        h r (List.mem_cons_of_mem _ hr)
      have separator : Scans (if i = 0 then [] else o.separator level j) [] := by
        split
        · exact .nil
        · exact .quiet _ (quiet_separator o level j)
      rw [Layout.layMembers, Rule.recordsFrom, foundInline_append]
      exact (separator.silent first).append more

end

end Dsl

/-! ### Set on the rule -/

namespace Rule

/-- Sets several records, each on the rule at its path. -/
def annotateAll (records : List PathRecord) (r : Rule) : Option Rule :=
  records.foldlM (fun r record => r.annotate (some record.metadata) record.path) r

/-- Records in two parts are set one part after the other. -/
theorem annotateAll_append (as bs : List PathRecord) (r : Rule) :
    annotateAll (as ++ bs) r = (annotateAll as r).bind (annotateAll bs) := by
  rw [annotateAll, List.foldlM_append]
  rfl

theorem annotateAll_cons (a : PathRecord) (as : List PathRecord) (r : Rule) :
    annotateAll (a :: as) r = (r.annotate (some a.metadata) a.path).bind (annotateAll as) := rfl

/-- A record as seen from further up, `i` being the position of the member it is in. -/
def deeper (i : Nat) (record : PathRecord) : PathRecord := ⟨i :: record.path, record.metadata⟩

mutual

/-- The records of a rule at a longer path. -/
theorem records_cons (i : Nat) : ∀ (r : Rule) (path : List Nat),
    r.records (i :: path) = (r.records path).map (deeper i)
  | .atom _ note, path => by cases note <;> rfl
  | .scope _ body note, path => by
      rw [records, records, List.cons_append, records_cons i body, List.map_append]
      cases note <;> rfl
  | .junction _ members note, path => by
      rw [records, records, recordsFrom_cons i members, List.map_append]
      cases note <;> rfl

/-- Records below a rule are those of the rule, each one level deeper. -/
theorem recordsFrom_cons (i : Nat) : ∀ (rs : List Rule) (path : List Nat) (k : Nat),
    recordsFrom (i :: path) k rs = (recordsFrom path k rs).map (deeper i)
  | [], _, _ => rfl
  | r :: rs, path, k => by
      rw [recordsFrom, recordsFrom, List.cons_append, records_cons i r,
        recordsFrom_cons i rs, List.map_append]

end

/-- Records that go below a scope are set in its body. -/
theorem annotateAll_deeper_scope {s : Scope} {body : Rule} {note : Option Metadata}
    (records : List PathRecord) :
    annotateAll (records.map (deeper 0)) (.scope s body note) =
      (annotateAll records body).map fun b => .scope s b note := by
  induction records generalizing body with
  | nil => rfl
  | cons a as ih =>
      rw [List.map_cons, annotateAll_cons, annotateAll_cons, deeper, annotate, if_pos rfl]
      cases annotate (some a.metadata) a.path body with
      | none => rfl
      | some b => exact ih

theorem updateAt_length {α : Type} (f : α → Option α) (as : List α) (a : α) (bs : List α) :
    updateAt f (as ++ a :: bs) as.length = (f a).map fun b => as ++ b :: bs := by
  induction as with
  | nil => rfl
  | cons c as ih =>
      rw [List.cons_append, List.length_cons, updateAt, ih, Option.map_map]
      rfl

/-- Records that go below a junction are set in the member with their index. -/
theorem annotateAll_deeper_junction {j : Junction} {as bs : List Rule} {body : Rule}
    {note : Option Metadata} (records : List PathRecord) :
    annotateAll (records.map (deeper as.length)) (.junction j (as ++ body :: bs) note) =
      (annotateAll records body).map fun b => .junction j (as ++ b :: bs) note := by
  induction records generalizing body with
  | nil => rfl
  | cons a rest ih =>
      rw [List.map_cons, annotateAll_cons, annotateAll_cons, deeper, annotate, updateAt_length]
      cases annotate (some a.metadata) a.path body with
      | none => rfl
      | some b => exact ih

/-- The last record is the rule's own. -/
theorem annotateAll_pathRecord {r : Rule} (note : Option Metadata) (h : r.note = none) :
    annotateAll (pathRecord [] note) r = some (r.withNote note) := by
  cases note with
  | none => cases r <;> cases h <;> rfl
  | some m => cases r <;> rfl

mutual

/-- **The records of a rule make it out of the rule without records.** -/
theorem annotateAll_records : ∀ r : Rule, annotateAll (r.records []) r.bare = some r
  | .atom a note => by
      rw [records, bare, annotateAll_pathRecord note rfl]
      rfl
  | .scope s body note => by
      rw [records, bare, annotateAll_append, List.nil_append, records_cons,
        annotateAll_deeper_scope, annotateAll_records body]
      exact annotateAll_pathRecord note rfl
  | .junction j members note => by
      have all := annotateAll_recordsFrom j [] members
      rw [records, bare, annotateAll_append]
      rw [List.nil_append, List.nil_append, List.length_nil] at all
      rw [all]
      exact annotateAll_pathRecord note rfl

/-- The records of members, set in the members without any, give the members. -/
theorem annotateAll_recordsFrom (j : Junction) : ∀ as rs : List Rule,
    annotateAll (recordsFrom [] as.length rs) (.junction j (as ++ bareAll rs) none) =
      some (.junction j (as ++ rs) none)
  | as, [] => rfl
  | as, r :: rs => by
      have more := annotateAll_recordsFrom j (as ++ [r]) rs
      rw [List.append_assoc, List.append_assoc, List.length_append] at more
      rw [recordsFrom, bareAll, annotateAll_append, List.nil_append, records_cons,
        annotateAll_deeper_junction, annotateAll_records r]
      exact more

end

end Rule

end Rulebook
