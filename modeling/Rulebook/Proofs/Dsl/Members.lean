import Rulebook.Proofs.Dsl.Parentheses
import Rulebook.Proofs.Json.Line

/-!
# Rulebook — Proofs — Dsl — Members

The laid out text of a rule is its core and the comment with its record, if that is written in place
(`lay_eq`).  Readers of operands stop in front of that comment, and every other reader passes over
it with the blanks.

The members of a rule are read one after the other, as soon as each of them is (`Readable`): with
commas between them (`manyWithin_members`), and with the keyword of a chain between them
(`linksWithin_members`).
-/

namespace Rulebook

open Dsl Dsl.Grammar
open Text (StartsOutside startsOutside_cons)

namespace Layout

variable {o : Layout}

/-- The text of a rule without the comment behind it. -/
def core (o : Layout) (path : List Nat) (level : Nat) : Rule → List Char
  | .atom a _ => a.render
  | .scope s body _ => s.render (o.lay (path ++ [0]) level body)
  | .junction j members _ =>
    let inner := if o.spreads j members then level + 1 else level
    o.opening level members j ++
      o.layMembers path inner (o.separator inner j) 0 members ++ o.closing level members j

/-- A rule is laid out as its core and the comment with its record. -/
theorem lay_eq (o : Layout) (path : List Nat) (level : Nat) (r : Rule) :
    o.lay path level r = o.core path level r ++ o.inlineRecord path level r.note := by
  cases r <;> rfl

/-! ### Blanks and comments between the parts -/

theorem skipTrivia_newline (o : Layout) (level : Nat) (cs : List Char) :
    skipTrivia (o.newline level ++ cs) = skipTrivia cs := by
  rw [newline, List.cons_append, skipTrivia_lineFeed, skipTrivia_spaces]

/-- The comment with a record stays on its line. -/
theorem onLine_render (record : PathRecord) :
    ∃ body, record.render = '#' :: body ∧ OnLine body := by
  refine ⟨' ' :: (recordMarker ++ ' ' :: record.toJson.write), rfl, ?_⟩
  have visible : Json.Visible (' ' :: (recordMarker ++ ' ' :: record.toJson.write)) :=
    .cons (by decide) (.append (by decide) (.cons (by decide) (Json.visible_write _)))
  intro c hc
  have hv := visible c hc
  constructor
  · rintro rfl
    exact absurd hv (by decide)
  · rintro rfl
    exact absurd hv (by decide)

/-- A record that is written in place is skipped. -/
theorem skipTrivia_inlineRecord (o : Layout) (path : List Nat) (level : Nat)
    (note : Option Metadata) (cs : List Char) :
    skipTrivia (o.inlineRecord path level note ++ cs) = skipTrivia cs := by
  cases note with
  | none => rfl
  | some m =>
      rw [inlineRecord]
      split
      · obtain ⟨body, e, hb⟩ := onLine_render ⟨path, m⟩
        rw [e, newline, List.cons_append, skipTrivia_space, List.cons_append, List.cons_append,
          List.append_assoc, List.cons_append, skipTrivia_line hb, skipTrivia_spaces]
      · rfl

theorem ends_inlineRecord (o : Layout) (path : List Nat) (level : Nat) (note : Option Metadata)
    {cs : List Char} (h : Ends cs) : Ends (o.inlineRecord path level note ++ cs) := by
  cases note with
  | none => exact h
  | some m =>
      rw [inlineRecord]
      split
      · exact startsOutside_cons (by decide)
      · exact h

/-! ### Starts -/

/-- The characters that the text of a rule starts with. -/
def opens (c : Char) : Bool := Text.isNameStart c || c = '(' || c = '$'

theorem isSolid_of_opens {c : Char} (h : opens c = true) : isSolid c = true :=
  isSolid_of_class (by decide) h

theorem exists_of_name {name : String} (hn : isName name = true) (cs : List Char) :
    ∃ c t, name.toList ++ cs = c :: t ∧ opens c = true := by
  obtain ⟨c, t, e, hc⟩ := exists_cons_of_isName hn
  exact ⟨c, t ++ cs, by rw [e]; rfl, by simp [opens, hc]⟩

theorem exists_callText {name : String} (hn : isName name = true) (args : List (List Char))
    (rest : List Char) : ∃ c t, callText name args ++ rest = c :: t ∧ opens c = true := by
  rw [callText_append]
  exact exists_of_name hn _

theorem plain_callText {name : String} (hn : isName name = true)
    (hk : Connective.ofKeyword? name.toList = none) (args : List (List Char)) (rest : List Char) :
    Plain (callText name args ++ rest) := by
  rw [callText_append]
  exact plain_name hn hk (startsOutside_cons (by decide))

/-- The text of an atom starts like an operand. -/
theorem exists_atom {a : Atom} (h : a.check = .ok ()) (rest : List Char) :
    ∃ c t, a.render ++ rest = c :: t ∧ opens c = true := by
  have reserved (name : String) (hn : name ∈ reservedCalls) (args : List (List Char)) :=
    exists_callText (isName_of_mem_reservedCalls name hn).1 args rest
  cases a with
  | condition c =>
      obtain ⟨hf, -⟩ := Atom.check_condition h
      rw [Atom.render, render_condition, fieldText]
      split
      · exact ⟨'$', _, rfl, by decide⟩
      · exact exists_of_name hf _
  | uniqueBy array key => exact reserved _ (by decide) _
  | length bound array limit => exact reserved _ (by cases bound <;> decide) _
  | call name args => exact exists_callText (Atom.check_call h).1 _ rest
  | contextual source => exact reserved _ (by decide) _
  | expression source => exact reserved _ (by decide) _
  | template name params => exact reserved _ (by decide) _
  | custom name payload => exact reserved _ (by decide) _

/-- The text of an atom starts with a keyword only if it is a call that is named like it. -/
theorem plain_atom {a : Atom} {note : Option Metadata} (h : a.check = .ok ())
    (hk : Rule.keyword? (.atom a note) = none) (rest : List Char) : Plain (a.render ++ rest) := by
  have reserved (name : String) (hn : name ∈ reservedCalls) (args : List (List Char)) :=
    plain_callText (isName_of_mem_reservedCalls name hn).1 (isName_of_mem_reservedCalls name hn).2
      args rest
  cases a with
  | condition c =>
      obtain ⟨hf, -⟩ := Atom.check_condition h
      rw [Atom.render, render_condition, fieldText]
      split
      · exact plain_of_ends (startsOutside_cons (by decide))
      · rename_i hfield
        exact plain_name hf (by simpa using hfield) (startsOutside_cons (by decide))
  | uniqueBy array key => exact reserved _ (by decide) _
  | length bound array limit => exact reserved _ (by cases bound <;> decide) _
  | call name args => exact plain_callText (Atom.check_call h).1 hk _ rest
  | contextual source => exact reserved _ (by decide) _
  | expression source => exact reserved _ (by decide) _
  | template name params => exact reserved _ (by decide) _
  | custom name payload => exact reserved _ (by decide) _

/-- The text of a rule starts like an operand. -/
theorem exists_core {r : Rule} (h : r.check = .ok ()) (path : List Nat) (level : Nat)
    (rest : List Char) : ∃ c t, o.core path level r ++ rest = c :: t ∧ opens c = true := by
  cases r with
  | atom a note => exact exists_atom h rest
  | scope s body note =>
      rw [core, render_scope]
      exact exists_callText (isName_of_mem_reservedCalls _ (scopeName_mem s)).1 _ rest
  | junction j members note =>
      rw [core]
      cases j with
      | connective op => exact ⟨'(', _, rfl, by decide⟩
      | quota kind count =>
          obtain ⟨hn, -⟩ := isName_of_mem_reservedCalls kind.name (by cases kind <;> decide)
          simp only [opening, List.append_assoc, List.cons_append]
          exact exists_of_name hn _

/-- The text of a rule starts with a keyword only if it is a call that is named like it. -/
theorem plain_core {r : Rule} (h : r.check = .ok ()) (hk : r.keyword? = none) (path : List Nat)
    (level : Nat) (rest : List Char) : Plain (o.core path level r ++ rest) := by
  cases r with
  | atom a note => exact plain_atom h hk rest
  | scope s body note =>
      obtain ⟨hn, hs⟩ := isName_of_mem_reservedCalls _ (scopeName_mem s)
      rw [core, render_scope]
      exact plain_callText hn hs _ rest
  | junction j members note =>
      rw [core]
      cases j with
      | connective op => exact plain_of_ends (startsOutside_cons (by decide))
      | quota kind count =>
          obtain ⟨hn, hs⟩ := isName_of_mem_reservedCalls kind.name (by cases kind <;> decide)
          simp only [opening, List.append_assoc, List.cons_append]
          exact plain_name hn hs (startsOutside_cons (by decide))

/-- Nothing is skipped in front of a rule that passes the check. -/
theorem skipTrivia_core {r : Rule} (h : r.check = .ok ()) (path : List Nat) (level : Nat)
    (rest : List Char) :
    skipTrivia (o.core path level r ++ rest) = o.core path level r ++ rest := by
  obtain ⟨c, t, e, hc⟩ := exists_core (o := o) h path level rest
  rw [e, skipTrivia_solid t (isSolid_of_opens hc)]

/-! ### Members -/

/-- The reader with `n` levels left reads the rule as it is to be read, wherever it stands. -/
def Reads (o : Layout) (n : Nat) (r : Rule) : Prop :=
  ∀ (path : List Nat) (level : Nat) (rest : List Char), Ends rest →
    (unary n (o.core path level r ++ rest)).Yields r.reread rest

/-- What is asked of the members of a rule for their text to be read. -/
structure Readable (o : Layout) (n : Nat) (r : Rule) : Prop where
  check : r.check = .ok ()
  reads : Reads o n r

/-- A bracket follows. -/
structure Closes (close : List Char) : Prop where
  ends : Ends close
  bracket : ∃ c t, skipTrivia close = c :: t ∧ (c = ')' ∨ c = ']')

theorem Closes.plain {close : List Char} (h : Closes close) : Plain (skipTrivia close) := by
  obtain ⟨c, t, e, hc⟩ := h.bracket
  rw [e]
  rcases hc with rfl | rfl <;> exact plain_of_ends (startsOutside_cons (by decide))

theorem Closes.refuses_comma {cs close : List Char} (h : Closes close)
    (hs : skipTrivia cs = skipTrivia close) : (spaced ',').Refuses cs := by
  obtain ⟨c, t, e, hc⟩ := h.bracket
  refine refuses_spaced fun u he => ?_
  rw [hs, e] at he
  cases he
  rcases hc with hc | hc <;> cases hc

variable {n : Nat} {path : List Nat} {level : Nat} {rs : List Rule} {close : List Char}

theorem layMembers_cons (o : Layout) (path : List Nat) (level : Nat) (separator : List Char)
    (i : Nat) (r : Rule) (rs : List Rule) (close : List Char) :
    o.layMembers path level separator (i + 1) (r :: rs) ++ close =
      separator ++ (o.core (path ++ [i + 1]) level r ++
        (o.inlineRecord (path ++ [i + 1]) level r.note ++
          (o.layMembers path level separator (i + 2) rs ++ close))) := by
  rw [layMembers, if_neg (Nat.succ_ne_zero i), lay_eq]
  simp only [List.append_assoc]

theorem layMembers_zero (o : Layout) (path : List Nat) (level : Nat) (separator : List Char)
    (r : Rule) (rs : List Rule) (close : List Char) :
    o.layMembers path level separator 0 (r :: rs) ++ close =
      o.core (path ++ [0]) level r ++ (o.inlineRecord (path ++ [0]) level r.note ++
        (o.layMembers path level separator 1 rs ++ close)) := by
  rw [layMembers, if_pos rfl, lay_eq]
  simp only [List.append_assoc, List.nil_append]

/-- Further members go on no name. -/
theorem ends_layMembers {separator : List Char} (hs : ∀ cs, Ends (separator ++ cs))
    (hc : Closes close) (i : Nat) :
    Ends (o.layMembers path level separator (i + 1) rs ++ close) := by
  cases rs with
  | nil => exact hc.ends
  | cons r rs =>
      rw [layMembers_cons]
      exact hs _

/-- After a member comes a comma or the bracket, and no keyword. -/
theorem plain_layMembers (hc : Closes close) (i : Nat) :
    Plain (skipTrivia (o.layMembers path level [',', ' '] (i + 1) rs ++ close)) := by
  cases rs with
  | nil => exact hc.plain
  | cons r rs =>
      rw [layMembers_cons, List.cons_append, skipTrivia_solid _ (by decide)]
      exact plain_of_ends (startsOutside_cons (by decide))

theorem length_le_layMembers {separator : List Char} (hs : separator ≠ []) (i : Nat) :
    rs.length ≤ (o.layMembers path level separator (i + 1) rs).length := by
  have pos := List.length_pos_iff.mpr hs
  induction rs generalizing i with
  | nil => exact Nat.zero_le _
  | cons r rs ih =>
      have := ih (i + 1)
      simp only [layMembers, Nat.succ_ne_zero, if_false, List.length_append, List.length_cons]
      omega

/-- An expression yields what the implication in it does. -/
theorem expression_yields {cs rest : List Char} {want : Option Rule}
    (h : (implication (unary n) (skipTrivia cs)).Yields want rest) :
    (expression (some (unary n)) cs).Yields want rest := h

/-- A lone operand in the place of an expression. -/
theorem expression_core {r : Rule} (h : Readable o n r) (path : List Nat) (level : Nat)
    {cs rest : List Char} (hs : skipTrivia cs = o.core path level r ++ rest) (he : Ends rest)
    (hp : Plain (skipTrivia rest)) : (expression (some (unary n)) cs).Yields r.reread rest := by
  refine expression_yields ?_
  rw [hs]
  exact implication_single (h.reads path level rest he) hp

/-- Members after commas. -/
theorem manyWithin_members (path : List Nat) (level : Nat) (h : ∀ r ∈ rs, Readable o n r)
    (hc : Closes close) (i : Nat) {fuel : Nat} (hf : rs.length ≤ fuel) {cs : List Char}
    (hs : skipTrivia cs = skipTrivia (o.layMembers path level [',', ' '] (i + 1) rs ++ close)) :
    ∃ rest, (manyWithin (do spaced ','; expression (some (unary n))) fuel cs).Yields
        (Rule.rereadAll rs) rest ∧ skipTrivia rest = skipTrivia close := by
  induction rs generalizing i fuel cs with
  | nil => exact ⟨cs, manyWithin_of_refuses ((hc.refuses_comma hs).bind _) fuel, hs⟩
  | cons r rs ih =>
      obtain ⟨fuel, rfl⟩ : ∃ f, fuel = f + 1 := ⟨fuel - 1, by simp at hf; omega⟩
      have hr := h r List.mem_cons_self
      have comma : ∀ cs, Ends ([',', ' '] ++ cs) := fun cs => startsOutside_cons (by decide)
      rw [layMembers_cons] at hs
      generalize ht : o.layMembers path level [',', ' '] (i + 2) rs ++ close = tail at hs
      have htail : Ends tail := ht ▸ ends_layMembers comma hc (i + 1)
      have hplain : Plain (skipTrivia tail) := ht ▸ plain_layMembers hc (i + 1)
      have first := expression_core hr (path ++ [i + 1]) level
        ((skipTrivia_space _).trans (skipTrivia_core hr.check _ _ _))
        (ends_inlineRecord o (path ++ [i + 1]) level r.note htail)
        (by rwa [skipTrivia_inlineRecord])
      obtain ⟨rest, more, hrest⟩ := ih (fun q hq => h q (List.mem_cons_of_mem r hq)) (i + 1)
        (by simpa using hf) (skipTrivia_inlineRecord o (path ++ [i + 1]) level r.note _)
      rw [ht] at more
      have hcomma : spaced ',' cs = .ok () (' ' :: (o.core (path ++ [i + 1]) level r ++
          (o.inlineRecord (path ++ [i + 1]) level r.note ++ tail))) :=
        spaced_ok (hs.trans (skipTrivia_solid _ (by decide)))
      exact ⟨rest, manyWithin_yields (bind_ok_yields hcomma first) more, hrest⟩

/-- The keyword between the members of a chain. -/
theorem skipTrivia_separator {op : Connective} (hop : op ≠ .not) (cs : List Char) :
    skipTrivia (o.separator level (.connective op) ++ cs) = op.keyword.toList ++ ' ' :: cs := by
  have e : o.separator level (.connective op) ++ cs =
      (if o.pretty then o.newline level else [' ']) ++ (op.keyword.toList ++ ' ' :: cs) := by
    cases op <;> first | exact absurd rfl hop | simp [separator]
  rw [e]
  split
  · rw [skipTrivia_newline, skipTrivia_keyword]
  · rw [List.singleton_append, skipTrivia_space, skipTrivia_keyword]

theorem ends_separator (j : Junction) (cs : List Char) : Ends (o.separator level j ++ cs) := by
  cases j with
  | quota kind count => exact startsOutside_cons (by decide)
  | connective op =>
      cases op with
      | not => exact startsOutside_cons (by decide)
      | _ =>
          simp only [separator]
          split <;> exact startsOutside_cons (by decide)

theorem separator_ne_nil (level : Nat) (j : Junction) : o.separator level j ≠ [] := by
  cases j with
  | quota kind count => exact List.cons_ne_nil _ _
  | connective op => cases op <;> simp [separator]

theorem unary_space (n : Nat) (cs : List Char) : unary n (' ' :: cs) = unary n cs := by
  rw [unary_eq, operandWith_space]

/-- After a member of a chain comes its connective or the bracket. -/
theorem between_layMembers {op : Connective} (hop : op ≠ .not) (hc : Closes close) (i : Nat) :
    Between op (skipTrivia
      (o.layMembers path level (o.separator level (.connective op)) (i + 1) rs ++ close)) := by
  cases rs with
  | nil => exact .inr hc.plain
  | cons r rs =>
      rw [layMembers_cons, skipTrivia_separator hop]
      exact .inl (headWord_append (isNamePart_keyword op) (startsOutside_cons (by decide)))

/-- Members of a chain after their keywords. -/
theorem linksWithin_members (path : List Nat) (level : Nat) {op : Connective} (hop : op ≠ .not)
    (h : ∀ r ∈ rs, Readable o n r) (hc : Closes close) (i : Nat) {fuel : Nat}
    (hf : rs.length ≤ fuel) {cs : List Char} (hs : skipTrivia cs = skipTrivia
      (o.layMembers path level (o.separator level (.connective op)) (i + 1) rs ++ close)) :
    ∃ rest, (linksWithin op (operandOf op (unary n)) fuel cs).Yields (Rule.rereadAll rs) rest ∧
      skipTrivia rest = skipTrivia close := by
  induction rs generalizing i fuel cs with
  | nil =>
      refine ⟨cs, linksWithin_nil ?_ fuel, hs⟩
      rw [hs]
      exact refuses_keyword_of_none hc.plain op
  | cons r rs ih =>
      obtain ⟨fuel, rfl⟩ : ∃ f, fuel = f + 1 := ⟨fuel - 1, by simp at hf; omega⟩
      have hr := h r List.mem_cons_self
      rw [layMembers_cons, skipTrivia_separator hop] at hs
      generalize ht : o.layMembers path level (o.separator level (.connective op)) (i + 2) rs ++
        close = tail at hs
      have htail : Ends tail := ht ▸ ends_layMembers (ends_separator _) hc (i + 1)
      have hbetween : Between op (skipTrivia tail) := ht ▸ between_layMembers hop hc (i + 1)
      have first : (operandOf op (unary n) (' ' :: (o.core (path ++ [i + 1]) level r ++
          (o.inlineRecord (path ++ [i + 1]) level r.note ++ tail)))).Yields r.reread
            (o.inlineRecord (path ++ [i + 1]) level r.note ++ tail) := by
        refine operandOf_single ?_ (by rwa [skipTrivia_inlineRecord])
        rw [unary_space]
        exact hr.reads _ _ _ (ends_inlineRecord o _ _ r.note htail)
      obtain ⟨rest, more, hrest⟩ := ih (fun q hq => h q (List.mem_cons_of_mem r hq)) (i + 1)
        (by simpa using hf) (skipTrivia_inlineRecord o (path ++ [i + 1]) level r.note _)
      rw [ht] at more
      exact ⟨rest, linksWithin_cons hs (startsOutside_cons (by decide)) first more, hrest⟩

end Layout

end Rulebook
