import Rulebook.Proofs.Dsl.Members

/-!
# Rulebook — Proofs — Dsl — Structure

The laid out text of a rule is read as what it is to be read as (`Rule.reread`) by the reader with
enough levels left (`unary_core`): two for each level of the rule.
-/

namespace Rulebook

open Dsl Dsl.Grammar
open Text (StartsOutside startsOutside_cons)

namespace Rule

/-- No payload in the rule nests deeper than JSON is read. -/
def Shallow (r : Rule) : Prop := ∀ name payload note,
  .atom (.custom name payload) note ∈ r.preorder → payload.value.nesting ≤ Json.depthLimit

theorem Shallow.of_scope {s : Scope} {body : Rule} {note : Option Metadata}
    (h : (scope s body note).Shallow) : body.Shallow := fun name payload n hp =>
  h name payload n (by rw [preorder]; exact List.mem_cons_of_mem _ hp)

theorem Shallow.of_mem {j : Junction} {members : List Rule} {note : Option Metadata}
    (h : (junction j members note).Shallow) {r : Rule} (hr : r ∈ members) : r.Shallow :=
  fun name payload n hp => h name payload n (by
    rw [preorder]
    exact List.mem_cons_of_mem _ (preorder_subset_preorderAll hr _ hp))

end Rule

namespace Layout

variable {o : Layout} {n : Nat} {rs : List Rule} {close : List Char}

/-! ### Groups, chains and quotas -/

section Junctions

variable {op : Connective} {m : Rule} {rest : List Char} {note : Option Metadata}

theorem closes_close (rest : List Char) : Closes (')' :: rest) :=
  ⟨ends_close rest, ')', rest, skipTrivia_close rest, .inl rfl⟩

theorem ne_close_of_opens {cs : List Char} (h : ∃ c t, cs = c :: t ∧ opens c = true) :
    ∀ u, cs ≠ ')' :: u := by
  rintro u rfl
  obtain ⟨c, t, e, hc⟩ := h
  cases e
  exact absurd hc (by decide)

/-- Members after their connective, with commas between them, as under `NOT`. -/
theorem many_members (path : List Nat) (level : Nat) (h : ∀ r ∈ rs, Readable o n r)
    (hc : Closes close) (note : Option Metadata) :
    ∃ rest, (many (do spaced ','; expression (some (unary n)))
        (o.inlineRecord (path ++ [0]) level note ++
          (o.layMembers path level [',', ' '] 1 rs ++ close))).Yields (Rule.rereadAll rs) rest ∧
      skipTrivia rest = skipTrivia close := by
  refine manyWithin_members path level h hc 0 ?_ (skipTrivia_inlineRecord o _ _ note _)
  have : rs.length ≤ (o.layMembers path level [',', ' '] 1 rs).length :=
    length_le_layMembers (by decide) 0
  simp only [List.length_append]
  omega

/-- Where there is no comma there are no further members. -/
theorem many_none {p : Grammar Rule} {cs : List Char} (h : (spaced ',').Refuses cs) :
    (many (do spaced ','; p) cs).Yields (some []) cs :=
  manyWithin_of_refuses (h.bind _) _

/-- A connective without members. -/
theorem unary_empty : Reads o n (.junction (.connective op) [] note) := by
  intro path level rest hr
  have text : o.core path level (.junction (.connective op) [] note) ++ rest =
      '(' :: (op.keyword.toList ++ ')' :: rest) := by
    simp [core, opening, closing, spreads, layMembers]
  rw [text, unary_eq]
  exact operandWith_group (group_nil (ofKeyword?_keyword op) rest)
    (skipTrivia_close rest)

theorem reread_single : Rule.reread (.junction (.connective op) [m] note) =
    m.reread.map fun r => .group op [r] := by
  rw [Rule.reread, Rule.rereadAll, Rule.rereadAll]
  cases m.reread <;> rfl

/-- A connective in front of one member. -/
theorem unary_single (h : Readable o n m) (h' : Readable o (n + 1) m) :
    Reads o (n + 2) (.junction (.connective op) [m] note) := by
  intro path level rest hr
  have text : o.core path level (.junction (.connective op) [m] note) ++ rest =
      '(' :: (op.keyword.toList ++ ' ' :: (o.core (path ++ [0]) level m ++
        (o.inlineRecord (path ++ [0]) level m.note ++ ')' :: rest))) := by
    have e := layMembers_zero o path level (o.separator level (.connective op)) m []
      (o.closing level [m] (.connective op) ++ rest)
    rw [core]
    simp [opening, closing, spreads, layMembers] at e ⊢
    rw [e]
  have skip : skipTrivia (' ' :: (o.core (path ++ [0]) level m ++
      (o.inlineRecord (path ++ [0]) level m.note ++ ')' :: rest))) =
        o.core (path ++ [0]) level m ++
          (o.inlineRecord (path ++ [0]) level m.note ++ ')' :: rest) :=
    (skipTrivia_space _).trans (skipTrivia_core h.check _ _ _)
  have ends := ends_inlineRecord o (path ++ [0]) level m.note (ends_close rest)
  have close : skipTrivia (o.inlineRecord (path ++ [0]) level m.note ++ ')' :: rest) =
      ')' :: rest := by rw [skipTrivia_inlineRecord, skipTrivia_close]
  have plain : Plain (skipTrivia (o.inlineRecord (path ++ [0]) level m.note ++ ')' :: rest)) := by
    rw [close]
    exact plain_of_ends (ends_close rest)
  have comma := (closes_close rest).refuses_comma (close.trans (skipTrivia_close rest).symm)
  have notClose := ne_close_of_opens (exists_core (o := o) h.check (path ++ [0]) level
    (o.inlineRecord (path ++ [0]) level m.note ++ ')' :: rest))
  rw [← skip] at notClose
  have blank : Ends (' ' :: (o.core (path ++ [0]) level m ++
    (o.inlineRecord (path ++ [0]) level m.note ++ ')' :: rest))) := startsOutside_cons (by decide)
  rw [text, unary_eq, reread_single]
  -- `NOT` takes its member as an operand, the others take theirs as an expression
  by_cases hop : op = .not
  · subst hop
    refine operandWith_group (group_not_expression (ofKeyword?_keyword .not) blank notClose
      ?_) close
    rw [skip, Option.map_map]
    exact negated_single (h.reads _ _ _ ends) plain comma
  · refine operandWith_group ?_ close
    rw [Option.map_eq_bind]
    exact group_cons (ofKeyword?_keyword op) hop blank notClose
      (expression_core h' (path ++ [0]) level (by rw [skip, skipTrivia_core h.check]) ends plain)
      (many_none comma)

/-- `NOT` in front of several members. -/
theorem unary_not {q : Rule} {qs : List Rule} (hm : Readable o n m)
    (h : ∀ r ∈ q :: qs, Readable o (n + 1) r) :
    Reads o (n + 2) (.junction (.connective .not) (m :: q :: qs) note) := by
  intro path level rest hr
  have text : o.core path level (.junction (.connective .not) (m :: q :: qs) note) ++ rest =
      '(' :: (Connective.not.keyword.toList ++ ' ' :: (o.core (path ++ [0]) level m ++
        (o.inlineRecord (path ++ [0]) level m.note ++
          (o.layMembers path level [',', ' '] 1 (q :: qs) ++ ')' :: rest)))) := by
    have e := layMembers_zero o path level [',', ' '] m (q :: qs) (')' :: rest)
    rw [core]
    simp [opening, closing, spreads, separator] at e ⊢
    rw [e]
  generalize ht : o.inlineRecord (path ++ [0]) level m.note ++
    (o.layMembers path level [',', ' '] 1 (q :: qs) ++ ')' :: rest) = tail at text
  have skip : skipTrivia (' ' :: (o.core (path ++ [0]) level m ++ tail)) =
      o.core (path ++ [0]) level m ++ tail :=
    (skipTrivia_space _).trans (skipTrivia_core hm.check _ _ _)
  have notClose := ne_close_of_opens (exists_core (o := o) hm.check (path ++ [0]) level tail)
  rw [← skip] at notClose
  have ends : Ends tail := ht ▸ ends_inlineRecord o _ _ m.note
    (ends_layMembers (fun cs => startsOutside_cons (by decide)) (closes_close rest) 0)
  have next : ∃ t, skipTrivia tail = ',' :: t := by
    rw [← ht, skipTrivia_inlineRecord, layMembers_cons]
    exact ⟨_, skipTrivia_solid _ (by decide)⟩
  obtain ⟨t, next⟩ := next
  have plain : Plain (skipTrivia tail) := next ▸ plain_of_ends (startsOutside_cons (by decide))
  obtain ⟨rest', more, hrest⟩ := many_members path level h (closes_close rest) m.note
  rw [ht] at more
  have reread : Rule.reread (.junction (.connective .not) (m :: q :: qs) note) =
      m.reread.bind fun r => (Rule.rereadAll (q :: qs)).map fun rs => .group .not (r :: rs) := by
    rw [Rule.reread, Rule.rereadAll]
    cases m.reread <;> cases Rule.rereadAll (q :: qs) <;> rfl
  rw [text, unary_eq, reread]
  refine operandWith_group (group_not_cons (ofKeyword?_keyword .not)
    (startsOutside_cons (by decide)) notClose ?_ plain (spaced_ok next) more)
    (hrest.trans (skipTrivia_close rest))
  rw [skip]
  exact hm.reads _ _ _ ends

/-- Spread over lines or not, the text of a chain is that of its members between blanks. -/
theorem exists_chainText (o : Layout) (hop : op ≠ .not) (m q : Rule) (qs : List Rule)
    (note : Option Metadata) (path : List Nat) (level : Nat) (rest : List Char) :
    ∃ before inner after,
      o.core path level (.junction (.connective op) (m :: q :: qs) note) ++ rest =
        '(' :: (before ++ (o.core (path ++ [0]) inner m ++
          (o.inlineRecord (path ++ [0]) inner m.note ++
            (o.layMembers path inner (o.separator inner (.connective op)) 1 (q :: qs) ++
              (after ++ ')' :: rest))))) ∧
      (∀ cs, skipTrivia (before ++ cs) = skipTrivia cs) ∧
      Ends (after ++ ')' :: rest) ∧ skipTrivia (after ++ ')' :: rest) = ')' :: rest := by
  refine ⟨if o.pretty then o.newline (level + 1) else [],
    if o.spreads (.connective op) (m :: q :: qs) then level + 1 else level,
    if o.spreads (.connective op) (m :: q :: qs) then o.newline level else [], ?_, ?_, ?_⟩
  · simp only [core, opening, closing, if_neg hop, List.append_assoc, List.cons_append,
      layMembers_zero, List.nil_append]
  · intro cs
    split
    · exact skipTrivia_newline o _ cs
    · rfl
  · split
    · exact ⟨startsOutside_cons (by decide),
        (skipTrivia_newline o level _).trans (skipTrivia_close rest)⟩
    · exact ⟨ends_close rest, skipTrivia_close rest⟩

/-- The rest of the text of a chain behind its first member. -/
structure Chained (o : Layout) (op : Connective) (n : Nat) (rs : List Rule)
    (tail rest : List Char) : Prop where
  ends : Ends tail
  between : Between op (skipTrivia tail)
  more : ∃ rest', (links op (operandOf op (unary n)) tail).Yields (Rule.rereadAll rs) rest' ∧
    skipTrivia rest' = ')' :: rest

theorem chained_members {q : Rule} {qs : List Rule} (hop : op ≠ .not)
    (h : ∀ r ∈ q :: qs, Readable o n r) (hc : Closes close)
    (hclose : skipTrivia close = ')' :: rest) (path : List Nat) (level : Nat)
    (note : Option Metadata) :
    Chained o op n (q :: qs) (o.inlineRecord (path ++ [0]) level note ++
      (o.layMembers path level (o.separator level (.connective op)) 1 (q :: qs) ++ close)) rest where
  ends := ends_inlineRecord o _ _ note (ends_layMembers (ends_separator _) hc 0)
  between := by
    rw [skipTrivia_inlineRecord]
    exact between_layMembers hop hc 0
  more := by
    rw [← hclose, links]
    refine linksWithin_members path level hop h hc 0 ?_ (by rw [skipTrivia_inlineRecord])
    have : (q :: qs).length ≤
        (o.layMembers path level (o.separator level (.connective op)) 1 (q :: qs)).length :=
      length_le_layMembers (separator_ne_nil level _) 0
    simp only [List.length_append]
    omega

section Chained

variable {q : Rule} {qs : List Rule} {tail before : List Char}

/-- A first operand in front of the rest of a chain. -/
theorem Chained.implication_yields {cs : List Char} {want : Option Rule}
    (h : Chained o op n (q :: qs) tail rest) (hop : op ≠ .not)
    (hf : (unary n cs).Yields want tail) : ∃ rest', (implication (unary n) cs).Yields
      (want.bind fun r => (Rule.rereadAll (q :: qs)).map fun rs => .group op (r :: rs)) rest' ∧
        skipTrivia rest' = ')' :: rest := by
  obtain ⟨rest', more, hrest⟩ := h.more
  refine ⟨rest', implication_of_chain op hop
    (chain_yields (operandOf_single hf h.between) more fun rs hrs => Rule.rereadAll_ne_nil hrs) ?_,
    hrest⟩
  rw [hrest]
  exact plain_of_ends (ends_close rest)

/-- A chain whose first member does not start with a keyword. -/
theorem Chained.unary_plain (h : Chained o op (n + 1) (q :: qs) tail rest) (hop : op ≠ .not)
    (hm : Readable o (n + 1) m) (hk : m.keyword? = none)
    (hb : ∀ cs, skipTrivia (before ++ cs) = skipTrivia cs) (path : List Nat) (level : Nat) :
    (unary (n + 2) ('(' :: (before ++ (o.core path level m ++ tail)))).Yields
      (Rule.reread (.junction (.connective op) (m :: q :: qs) note)) rest := by
  have skip : skipTrivia (before ++ (o.core path level m ++ tail)) =
      o.core path level m ++ tail := (hb _).trans (skipTrivia_core hm.check path level tail)
  have lead : Rule.leading? (.connective op) (m :: q :: qs) = none := by
    rw [Rule.leading?, if_neg hop, hk]
    rfl
  obtain ⟨rest', whole, hrest⟩ := h.implication_yields hop (hm.reads path level tail h.ends)
  rw [unary_eq, Rule.reread_junction_cons lead]
  refine operandWith_expression ?_ (expression_yields ?_) hrest
  · rw [skip]
    exact plain_core hm.check hk path level tail
  · rw [skip]
    exact whole

/-- A chain whose first member is a call that is named like a keyword, behind that keyword. -/
theorem Chained.group_yields {name : String} {args : List Argument} {kw : Connective}
    (note note' : Option Metadata) (h : Chained o op (n + 1) (q :: qs) tail rest) (hop : op ≠ .not)
    (hargs : ∀ a ∈ args, a.value.checkOperand a.kind = .ok ())
    (hk : Connective.ofKeyword? name.toList = some kw) :
    ∃ rest', (group (some (unary (n + 1))) (some (unary n)) (name.toList ++
        '(' :: (commaSeparated (args.map Argument.render) ++ ')' :: tail))).Yields
      (Rule.reread (.junction (.connective op) (.atom (.call name args) note' :: q :: qs) note))
      rest' ∧ skipTrivia rest' = ')' :: rest := by
  have parentheses (k : Nat) := unary_parentheses hargs k tail
  generalize ht : '(' :: (commaSeparated (args.map Argument.render) ++ ')' :: tail) = t
    at parentheses ⊢
  have skip : skipTrivia t = t := ht ▸ skipTrivia_solid _ (by decide)
  have ends : Ends t := ht ▸ startsOutside_cons (by decide)
  have notClose : ∀ u, skipTrivia t ≠ ')' :: u := fun u e => by
    rw [skip, ← ht] at e
    cases e
  have keyword : Rule.keyword? (.atom (.call name args) note') = some kw := hk
  by_cases hkw : kw = .not
  · -- `NOT` takes the parentheses for its operand, and that is the first one of the chain
    subst hkw
    have lead :
        Rule.leading? (.connective op) (.atom (.call name args) note' :: q :: qs) = none := by
      rw [Rule.leading?, if_neg hop, keyword]
      rfl
    obtain ⟨rest', more, hrest⟩ := h.more
    have comma : (spaced ',').Refuses rest' :=
      (closes_close rest).refuses_comma (hrest.trans (skipTrivia_close rest).symm)
    have plain : Plain (skipTrivia rest') := hrest ▸ plain_of_ends (ends_close rest)
    refine ⟨rest', group_not_expression hk ends notClose ?_, hrest⟩
    have shape (first : Option Rule) (rs : Option (List Rule)) :
        (((first.map fun r => Rule.group .not [r]).bind fun r =>
          rs.map fun qs => .junction (.connective op) (r :: qs) none).map Negated.expression) =
        first.bind fun r => rs.map fun qs => .expression (.group op (.group .not [r] :: qs)) := by
      cases first <;> cases rs <;> rfl
    rw [skip, Rule.reread_junction_cons lead, Rule.reread, if_pos keyword, shape]
    exact negated_chain hop (parentheses n) h.between more
      (fun rs hrs => Rule.rereadAll_ne_nil hrs) plain comma
  · have lead : Rule.leading? (.connective op) (.atom (.call name args) note' :: q :: qs) =
        some kw := by
      rw [Rule.leading?, if_neg hop, keyword]
      simp [hkw]
    obtain ⟨rest', whole, hrest⟩ := h.implication_yields hop (parentheses (n + 1))
    have comma : (spaced ',').Refuses rest' :=
      (closes_close rest).refuses_comma (hrest.trans (skipTrivia_close rest).symm)
    have shape (first : Option Rule) (rs : Option (List Rule)) :
        (first.bind fun r => rs.map fun qs =>
          Rule.group kw [.junction (.connective op) (r :: qs) none]) =
        (first.bind fun r => rs.map fun qs => Rule.group op (r :: qs)).bind fun r =>
          (some []).map fun qs => Rule.group kw (r :: qs) := by
      cases first <;> cases rs <;> rfl
    refine ⟨rest', ?_, hrest⟩
    rw [Rule.reread_junction_leading lead, shape]
    exact group_cons hk hkw ends notClose (expression_yields (by rwa [skip, skip]))
      (many_none comma)

/-- A chain whose first member is a call that is named like a keyword. -/
theorem Chained.unary_keyword {name : String} {args : List Argument} {note' : Option Metadata}
    {kw : Connective} (h : Chained o op (n + 1) (q :: qs) tail rest) (hop : op ≠ .not)
    (hm : (Rule.atom (.call name args) note').check = .ok ())
    (hk : Connective.ofKeyword? name.toList = some kw)
    (hb : ∀ cs, skipTrivia (before ++ cs) = skipTrivia cs) (path : List Nat) (level : Nat) :
    (unary (n + 2) ('(' :: (before ++
      (o.core path level (.atom (.call name args) note') ++ tail)))).Yields
      (Rule.reread (.junction (.connective op) (.atom (.call name args) note' :: q :: qs) note))
      rest := by
  obtain ⟨-, -, hargs⟩ := Atom.check_call hm
  obtain ⟨rest', read, hrest⟩ := h.group_yields note note' hop hargs hk
  have text : o.core path level (.atom (.call name args) note') ++ tail =
      name.toList ++ '(' :: (commaSeparated (args.map Argument.render) ++ ')' :: tail) :=
    callText_append name _ tail
  have blanks (below below₂ : Option (Grammar Rule)) (cs : List Char) :
      group below below₂ (before ++ cs) = group below below₂ cs := by
    rw [← group_skipTrivia, hb, group_skipTrivia]
  rw [unary_eq, text]
  refine operandWith_group ?_ hrest
  rw [blanks]
  exact read

end Chained

/-- **Members with the keyword of their connective between them.** -/
theorem unary_chain {q : Rule} {qs : List Rule} (hop : op ≠ .not)
    (h : ∀ r ∈ m :: q :: qs, Readable o (n + 1) r) :
    Reads o (n + 2) (.junction (.connective op) (m :: q :: qs) note) := by
  intro path level rest hr
  have hm := h m List.mem_cons_self
  obtain ⟨before, inner, after, text, hbefore, hends, hclose⟩ :=
    exists_chainText o hop m q qs note path level rest
  have close : Closes (after ++ ')' :: rest) := ⟨hends, ')', rest, hclose, .inl rfl⟩
  have chained := chained_members hop (fun r hr => h r (List.mem_cons_of_mem m hr)) close hclose
    path inner m.note
  rw [text]
  cases hk : m.keyword? with
  | none => exact chained.unary_plain hop hm hk hbefore (path ++ [0]) inner
  | some kw =>
      obtain ⟨name, args, note', rfl, hname⟩ := Rule.exists_of_keyword? hk
      exact chained.unary_keyword hop hm.check hname hbefore (path ++ [0]) inner

/-- No expression starts with a bracket. -/
theorem refuses_expression (n : Nat) (rest : List Char) :
    (expression (some (unary n))).Refuses (']' :: rest) := by
  have skip : skipTrivia (']' :: rest) = ']' :: rest := skipTrivia_solid rest (by decide)
  have operand : Refuses (unary n) (']' :: rest) := by
    rw [unary_eq]
    exact refuses_operandWith (by decide) (by decide) (by decide) (by decide)
  obtain ⟨e, t, h, he⟩ := (((operand.bind _).bind _).bind _).bind _
  refine ⟨e, t, ?_, he⟩
  refine (expression_some (unary n) _).trans ?_
  rw [skip]
  exact h

/-- **Rules in the brackets of a quota.** -/
theorem unary_quota {kind : Quota} {count : UInt32} (h : ∀ r ∈ rs, Readable o n r) :
    Reads o (n + 1) (.junction (.quota kind count) rs note) := by
  intro path level rest hr
  have text : o.core path level (.junction (.quota kind count) rs note) ++ rest =
      kind.name.toList ++ '(' :: (Decimal.digitsOf count.toNat ++ ',' :: ' ' :: '[' ::
        (o.layMembers path level [',', ' '] 0 rs ++ ']' :: ')' :: rest)) := by
    simp [core, opening, closing, spreads, separator]
  have close : Closes (']' :: ')' :: rest) :=
    ⟨startsOutside_cons (by decide), ']', _, skipTrivia_solid _ (by decide), .inr rfl⟩
  have skip : skipTrivia (']' :: ')' :: rest) = ']' :: ')' :: rest :=
    skipTrivia_solid _ (by decide)
  have reread : Rule.reread (.junction (.quota kind count) rs note) =
      (Rule.rereadAll rs).map fun qs => .junction (.quota kind count) qs none := by
    rw [Rule.reread, Option.map_eq_bind]
    rfl
  obtain ⟨rest', list, hrest⟩ : ∃ rest', (separated (expression (some (unary n))) (spaced ',')
      (o.layMembers path level [',', ' '] 0 rs ++ ']' :: ')' :: rest)).Yields
        (Rule.rereadAll rs) rest' ∧ skipTrivia rest' = ']' :: ')' :: rest := by
    cases rs with
    | nil => exact ⟨_, separated_of_refuses (refuses_expression n _), skip⟩
    | cons m ms =>
        have hm := h m List.mem_cons_self
        rw [layMembers_zero]
        obtain ⟨rest', more, hrest⟩ := many_members path level
          (fun r hr => h r (List.mem_cons_of_mem m hr)) close m.note
        generalize ht : o.inlineRecord (path ++ [0]) level m.note ++
          (o.layMembers path level [',', ' '] 1 ms ++ ']' :: ')' :: rest) = tail at more
        have ends : Ends tail := ht ▸ ends_inlineRecord o _ _ m.note
          (ends_layMembers (fun cs => startsOutside_cons (by decide)) close 0)
        have plain : Plain (skipTrivia tail) := by
          rw [← ht, skipTrivia_inlineRecord]
          exact plain_layMembers close 0
        have first := expression_core hm (path ++ [0]) level
          (skipTrivia_core hm.check _ _ _) ends plain
        exact ⟨rest', separated_yields first more, hrest.trans skip⟩
  rw [text, unary_eq, reread]
  exact operandWith_reserved (by cases kind <;> decide) (callBody_quota list hrest)

end Junctions

/-! ### Rules -/

/-- An atom, which may be a call that is named like `NOT`. -/
theorem unary_atom {a : Atom} {note : Option Metadata} (h : (Rule.atom a note).check = .ok ())
    (hs : (Rule.atom a note).Shallow) (n : Nat) : Reads o (n + 1) (.atom a note) := by
  intro path level rest hr
  rw [unary_eq, Rule.reread]
  split
  · rename_i hk
    obtain ⟨name, args, n', e, hname⟩ := Rule.exists_of_keyword? hk
    cases e
    obtain ⟨-, -, hargs⟩ := Atom.check_call h
    rw [core, Atom.render, callText_append]
    exact operandWith_negation hname (startsOutside_cons (by decide))
      (unary_parentheses hargs n rest)
  · rename_i hk
    refine operandWith_atom h ?_ ?_ hr
    · rintro name args rfl
      exact hk
    · rintro name payload rfl
      exact hs name payload note (Rule.mem_preorder_self _)

mutual

/-- **The core of a rule is read as the rule is to be read**, with two levels left for each level
of the rule. -/
theorem unary_core : ∀ {r : Rule} {n : Nat}, r.check = .ok () → r.Shallow →
    2 * r.depth ≤ n + 1 → Reads o n r
  | .atom a note, n, h, hs, hn => by
      rw [Rule.depth] at hn
      obtain ⟨n, rfl⟩ : ∃ k, n = k + 1 := ⟨n - 1, by omega⟩
      exact unary_atom h hs n
  | .scope s body note, n, h, hl, hn => by
      intro path level rest hr
      obtain ⟨hs, hb⟩ := Rule.check_scope h
      rw [Rule.depth] at hn
      obtain ⟨n, rfl⟩ : ∃ k, n = k + 1 := ⟨n - 1, by omega⟩
      have inner : Readable o n body := ⟨hb, unary_core hb hl.of_scope (by omega)⟩
      have skip (rest : List Char) := skipTrivia_core (o := o) hb (path ++ [0]) level rest
      have ends := ends_inlineRecord o (path ++ [0]) level body.note (ends_close rest)
      have close : skipTrivia (o.inlineRecord (path ++ [0]) level body.note ++ ')' :: rest) =
          ')' :: rest := by rw [skipTrivia_inlineRecord, skipTrivia_close]
      rw [unary_eq, core, Rule.reread]
      refine operandWith_scope hs ?_ close
      refine expression_core inner (path ++ [0]) level ?_ ends
        (by rw [close]; exact plain_of_ends (ends_close rest))
      rw [lay_eq, List.append_assoc, skip, skip]
  | .junction j members note, n, h, hl, hn => by
      have hc := Rule.check_junction h
      rw [Rule.depth] at hn
      have readable (k : Nat) (hk : 2 * Rule.depthAll members ≤ k + 1) :
          ∀ r ∈ members, Readable o k r := fun r hr =>
        ⟨hc r hr, unary_cores hc (fun _ => hl.of_mem) hk r hr⟩
      cases j with
      | quota kind count =>
          obtain ⟨n, rfl⟩ : ∃ k, n = k + 1 := ⟨n - 1, by omega⟩
          exact unary_quota (readable n (by omega))
      | connective op =>
          -- one level is taken by the parentheses, and under `NOT` one more by the operand
          match members with
          | [] => exact unary_empty
          | [m] =>
              have hd : 0 < m.depth := m.depth_pos
              have hn : 2 * (1 + m.depth) ≤ n + 1 := by simpa [Rule.depthAll] using hn
              obtain ⟨n, rfl⟩ : ∃ k, n = k + 2 := ⟨n - 2, by omega⟩
              exact unary_single (readable n (by simp [Rule.depthAll]; omega) m List.mem_cons_self)
                (readable (n + 1) (by simp [Rule.depthAll]; omega) m List.mem_cons_self)
          | m :: q :: qs =>
              have hd : 0 < m.depth := m.depth_pos
              have hn' : 2 * (1 + m.depth) ≤ n + 1 := by
                rw [Rule.depthAll] at hn
                omega
              obtain ⟨n, rfl⟩ : ∃ k, n = k + 2 := ⟨n - 2, by omega⟩
              by_cases hop : op = .not
              · subst hop
                exact unary_not (readable n (by omega) m List.mem_cons_self)
                  fun r hr => readable (n + 1) (by omega) r (List.mem_cons_of_mem m hr)
              · exact unary_chain hop (readable (n + 1) (by omega))

theorem unary_cores : ∀ {rs : List Rule} {n : Nat}, (∀ r ∈ rs, r.check = .ok ()) →
    (∀ r ∈ rs, r.Shallow) → 2 * Rule.depthAll rs ≤ n + 1 → ∀ r ∈ rs, Reads o n r
  | [], _, _, _, _ => fun _ hr => nomatch hr
  | q :: qs, n, h, hl, hn => by
      rw [Rule.depthAll] at hn
      intro r hr
      have first : Reads o n q :=
        unary_core (h q List.mem_cons_self) (hl q List.mem_cons_self) (by omega)
      have further : ∀ r ∈ qs, Reads o n r :=
        unary_cores (fun r hr => h r (List.mem_cons_of_mem q hr))
          (fun r hr => hl r (List.mem_cons_of_mem q hr)) (by omega)
      rcases List.mem_cons.mp hr with rfl | hr
      · exact first
      · exact further r hr

end

end Layout

end Rulebook
