import Rulebook.Proofs.Dsl.Produced

/-!
# Rulebook — Proofs — Dsl — Counted

The grammar with a nesting counter.  Here the levels of text are not given out from above, as in
`unary`, but counted: one reading within another raises the counter before it and lowers it behind,
and fails where the counter has reached the limit.  The counter is no part of the text, so that
nothing resets it when a reading fails and the text goes back.  Every reading is put down with the
counter before and behind it (`Visit`).

Both grammars read the same (`tallies_unary`), so that a recursion that is bounded by nothing but
the counter ends: whatever fuel there is beyond the limit is not used.  On the way every reading
leaves the counter as it was, however it ends, and the counter never exceeds the limit.

* `Tallies`: a counted reader does what a plain one does, with so many levels left.
* `counted_document`: whole texts.
-/

namespace Rulebook.Dsl

open Grammar

variable {α β : Type}

/-- The nesting counter before and behind a reading. -/
structure Visit where
  start : Nat
  stop : Nat
  deriving DecidableEq, Repr

/-- The nesting counter, and the readings so far. -/
structure Nesting where
  now : Nat
  visits : List Visit
  deriving DecidableEq, Repr

/-- Nothing has been read. -/
def Nesting.fresh : Nesting := ⟨0, []⟩

/-- A reader that counts how deep it nests. -/
def Counted (α : Type) : Type := Nesting → List Char → Outcome α × Nesting

namespace Counted

def done (a : α) : Counted α := fun s cs => (.ok a cs, s)

/-- One reader after the other. -/
def andThen (p : Counted α) (f : α → Counted β) : Counted β := fun s cs =>
  match p s cs with
  | (.ok a rest, t) => f a t rest
  | (.fail e rest, t) => (.fail e rest, t)

instance : Monad Counted where
  pure := done
  bind := andThen

/-! ### Combinators -/

/-- Puts a reading down, however it ends. -/
def visited (p : Counted α) : Counted α := fun s cs =>
  let (x, t) := p s cs
  (x, ⟨t.now, t.visits ++ [⟨s.now, t.now⟩]⟩)

/-- A reader that nothing nests in. -/
def flat (p : Grammar α) : Counted α := visited fun s cs => (p cs, s)

/-- What a combinator makes of an outcome; the counter stays as the reader has left it. -/
def through (f : Grammar α → Grammar β) (p : Counted α) : Counted β := visited fun s cs =>
  let (x, t) := p s cs
  (f (fun _ => x) cs, t)

/-- The second reader, from the same place, if the first one fails openly. -/
def orElse (p q : Counted α) : Counted α := visited fun s cs =>
  match p s cs with
  | (.ok a rest, t) => (.ok a rest, t)
  | (.fail e rest, t) => if e.committed then (.fail e rest, t) else q t cs

/-- Readings one after the other, up to the first open failure; `fuel` bounds their number. -/
def manyWithin (p : Counted α) : Nat → Counted (List α)
  | 0, s, cs => (.ok [] cs, s)
  | fuel + 1, s, cs =>
    match p s cs with
    | (.fail e rest, t) => if e.committed then (.fail e rest, t) else (.ok [] cs, t)
    | (.ok a rest, t) => (do let as ← manyWithin p fuel; return a :: as : Counted (List α)) t rest

/-- Any number of readings, each of which takes some text. -/
def many (p : Counted α) : Counted (List α) := visited fun s cs =>
  manyWithin p (cs.length + 1) s cs

/-- Any number of readings with a separator between them. -/
def separated (p : Counted α) (separator : Grammar Unit) : Counted (List α) :=
  visited fun s cs =>
    match p s cs with
    | (.fail e rest, t) => if e.committed then (.fail e rest, t) else (.ok [] cs, t)
    | (.ok a rest, t) =>
      (do
        let as ← many (do flat separator; p)
        return a :: as : Counted (List α)) t rest

/-- Reads one level further down, unless the counter has reached the limit. -/
def nested (p : Counted α) : Counted α := visited fun s cs =>
  if textNestingLimit ≤ s.now then
    (abort [.label "nesting depth", .expected "shallower nesting"] cs, s)
  else
    let (x, t) := visited p ⟨s.now + 1, s.visits⟩ cs
    (x, ⟨t.now - 1, t.visits⟩)

/-! ### Chains -/

/-- The further operands of a chain; `fuel` bounds their number. -/
def linksWithin (op : Connective) (operand : Counted Rule) : Nat → Counted (List Rule)
  | 0, s, cs => (.ok [] cs, s)
  | fuel + 1, s, cs =>
    match keyword op (skipTrivia cs) with
    | .fail _ _ => (.ok [] cs, s)
    | .ok _ rest =>
      (do
        let r ← through commit operand
        let rs ← linksWithin op operand fuel
        return r :: rs : Counted (List Rule)) s rest

/-- The further operands of a chain, each after its keyword. -/
def links (op : Connective) (operand : Counted Rule) : Counted (List Rule) :=
  visited fun s cs => linksWithin op operand (cs.length + 1) s cs

/-- The rest of a chain after its first operand, and whether there was any. -/
def chainFrom (op : Connective) (operand : Counted Rule) (first : Rule) : Counted (Rule × Bool) :=
  visited do
    match ← links op operand with
    | [] => return (first, false)
    | r :: rs => return (.group op (first :: r :: rs), true)

/-- A chain of one connective; a lone operand stands for itself. -/
def chain (op : Connective) (operand : Counted Rule) : Counted Rule := visited do
  let first ← operand
  let (r, _) ← chainFrom op operand first
  return r

section

variable (unary : Counted Rule)

def conjunction : Counted Rule := chain .and unary

def exclusion : Counted Rule := chain .xor (conjunction unary)

def disjunction : Counted Rule := chain .or (exclusion unary)

def implication : Counted Rule := chain .implies (disjunction unary)

/-- The rest of an expression after its first operand, and how many junctions were built around
that operand. -/
def expressionFrom (first : Rule) : Counted (Rule × Nat) := visited do
  let (r, a) ← chainFrom .and unary first
  let (r, b) ← chainFrom .xor (conjunction unary) r
  let (r, c) ← chainFrom .or (exclusion unary) r
  let (r, d) ← chainFrom .implies (disjunction unary) r
  return (r, a.toNat + b.toNat + c.toNat + d.toNat)

/-- An expression, one level down. -/
def expression : Counted Rule := nested do
  flat trivia
  implication unary

end

/-! ### Calls -/

/-- An argument that has to follow, after blanks and comments. -/
def argument (p : Counted α) : Counted α := visited do
  flat trivia
  through commit p

/-- A list of rules in brackets. -/
def ruleList (rule : Counted Rule) : Counted (List Rule) := visited do
  flat trivia
  flat (expectingChar '[' (commit (char '[')))
  let rules ← separated rule (spaced ',')
  flat (punctuation ']')
  return rules

/-- The arguments of a call up to its closing parenthesis.  Only those with a rule among them can
nest anything. -/
def callArguments (rule : Counted Rule) (name : String) : CallForm → Counted Rule
  | .requirement kind => visited do
    let target ← flat (Dsl.argument fieldName)
    flat (punctuation ',')
    let body ← argument rule
    return .scope (.conditional kind target) body none
  | .forEach => visited do
    let array ← flat (Dsl.argument fieldName)
    flat (punctuation ',')
    let body ← argument rule
    return .scope (.forEach array) body none
  | .guarded guard => visited do
    let field ← flat (Dsl.argument fieldName)
    flat (punctuation ',')
    let body ← argument rule
    return .scope (.guarded guard field) body none
  | .withDefault => visited do
    let field ← flat (Dsl.argument fieldName)
    flat (punctuation ',')
    let value ← flat (Dsl.argument literalValue)
    flat (punctuation ',')
    let body ← argument rule
    return .scope (.withDefault field value) body none
  | .quota kind => visited do
    let count ← flat (Dsl.argument (naturalBelow UInt32.size))
    flat (punctuation ',')
    let members ← ruleList rule
    return .junction (.quota kind (UInt32.ofNat count)) members none
  | form => flat (Dsl.callArguments refuse name form)

/-- A call after its opening parenthesis. -/
def callBody (rule : Counted Rule) (name : String) : Counted Rule := visited do
  let r ← callArguments rule name (callForm name)
  flat (punctuation ')')
  return r

/-! ### Primaries -/

section

variable (unary : Counted Rule)

/-- What follows `NOT` at the start of parentheses: the first member of a group if a comma comes
next. -/
def negated : Counted Negated := nested do
  let first ← nested unary
  let (r, levels) ← expressionFrom unary first
  match ← flat (optional (peek (spaced ','))) with
  | some _ => return .member r
  | none => return .expression (negateFirst levels r)

/-- A group in parentheses, up to the closing one. -/
def group : Counted Rule := visited do
  flat trivia
  let op ← flat connective
  flat trivia
  match ← flat (optional (peek (char ')'))) with
  | some _ => return .group op []
  | none =>
    if op = .not then
      match ← negated unary with
      | .expression r => return r
      | .member r =>
        return .group op (r :: (← many (do flat (spaced ','); expression unary)))
    else
      let first ← expression unary
      return .group op (first :: (← many (do flat (spaced ','); expression unary)))

/-- A group or an expression in parentheses. -/
def parenthesized : Counted Rule := visited do
  flat (char '(')
  let r ← match ← through optional (group unary) with
    | some r => pure r
    | none => through commit (expression unary)
  flat (punctuation ')')
  return r

/-- A call, or a condition that starts with a bare name. -/
def named : Counted Rule := visited do
  let name ← flat nameString
  match ← flat (optional (spaced '(')) with
  | some _ => callBody (expression unary) name
  | none => flat (conditionRest name)

/-- An operand without a `NOT` in front. -/
def primary : Counted Rule := visited do
  flat trivia
  through (expecting "expression")
    (orElse (parenthesized unary) (orElse (flat referenceCondition) (named unary)))

/-- An operand, in terms of what reads the operands below it. -/
def operandWith : Counted Rule := visited do
  flat trivia
  match ← flat (optional (keyword .not)) with
  | some _ =>
    let r ← nested (through commit unary)
    return .group .not [r]
  | none => primary unary

end

/-- An operand; `fuel` bounds the calls inside of one another, apart from the counter. -/
def unary : (fuel : Nat) → Counted Rule
  | 0 => flat refuse
  | fuel + 1 => operandWith (unary fuel)

/-- A text: an expression between blanks and comments, or nothing but those. -/
def document (fuel : Nat) : Counted (Option Rule) := visited do
  flat trivia
  fun s cs =>
    match cs with
    | [] => (.ok none [], s)
    | _ =>
      (do
        let r ← expression (unary fuel)
        flat trivia
        return some r : Counted (Option Rule)) s cs

end Counted

/-! ### Agreement -/

/-- The counter leaves `k` levels up to the limit, every reading so far has left it as it was, and
none has found it beyond the limit. -/
structure Nesting.Leaves (k : Nat) (s : Nesting) : Prop where
  now : s.now + k = textNestingLimit
  settled : ∀ v ∈ s.visits, v.stop = v.start ∧ v.start ≤ textNestingLimit

/-- With `k` levels left the counted reader does what the plain one does, and leaves as many. -/
def Tallies (k : Nat) (p : Counted α) (q : Grammar α) : Prop :=
  ∀ s cs, s.Leaves k → ∃ t, p s cs = (q cs, t) ∧ t.Leaves k

namespace Tallies

variable {k : Nat} {p p' : Counted α} {q q' : Grammar α}

theorem pure (a : α) : Tallies k (Pure.pure a) (Pure.pure a : Grammar α) :=
  fun s _ hs => ⟨s, rfl, hs⟩

/-- One counted reader behind another does what the plain ones do. -/
theorem bind {f : α → Counted β} {g : α → Grammar β} (h : Tallies k p q)
    (hf : ∀ a, Tallies k (f a) (g a)) : Tallies k (p >>= f) (q >>= g) := by
  intro s cs hs
  obtain ⟨t, ht, hl⟩ := h s cs hs
  show ∃ u, Counted.andThen p f s cs = (Grammar.andThen q g cs, u) ∧ u.Leaves k
  rw [Counted.andThen, ht, Grammar.andThen]
  cases q cs with
  | ok a rest => exact hf a t rest hl
  | fail e rest => exact ⟨t, rfl, hl⟩

/-- A reading that leaves the counter as it was may be put down. -/
theorem visited (h : Tallies k p q) : Tallies k (Counted.visited p) q := by
  intro s cs hs
  obtain ⟨t, ht, hl⟩ := h s cs hs
  have same : t.now = s.now := Nat.add_right_cancel (hl.now.trans hs.now.symm)
  refine ⟨⟨t.now, t.visits ++ [⟨s.now, t.now⟩]⟩, by rw [Counted.visited, ht], hl.now, ?_⟩
  intro v hv
  rcases List.mem_append.mp hv with hv | hv
  · exact hl.settled v hv
  · obtain rfl := List.mem_singleton.mp hv
    exact ⟨same, hs.now ▸ Nat.le_add_right _ _⟩

/-- A reader that nothing nests in does what it does without a counter. -/
theorem flat (q : Grammar α) : Tallies k (Counted.flat q) q :=
  visited fun s _ hs => ⟨s, rfl, hs⟩

/-- A combinator that looks at nothing but the outcome. -/
theorem through {f : Grammar α → Grammar β} (hf : ∀ q cs, f q cs = f (fun _ => q cs) cs)
    (h : Tallies k p q) : Tallies k (Counted.through f p) (f q) := by
  refine visited fun s cs hs => ?_
  obtain ⟨t, ht, hl⟩ := h s cs hs
  exact ⟨t, by rw [hf q cs, ht], hl⟩

theorem commit (h : Tallies k p q) :
    Tallies k (Counted.through Grammar.commit p) (Grammar.commit q) :=
  h.through fun _ _ => rfl

theorem optional (h : Tallies k p q) :
    Tallies k (Counted.through Grammar.optional p) (Grammar.optional q) :=
  h.through fun _ _ => rfl

theorem expecting (h : Tallies k p q) (what : String) :
    Tallies k (Counted.through (Grammar.expecting what) p) (Grammar.expecting what q) :=
  h.through fun _ _ => rfl

/-- The counter is as it was when the second of two alternatives is tried. -/
theorem orElse (h : Tallies k p q) (h' : Tallies k p' q') :
    Tallies k (Counted.orElse p p') (q <|> q') := by
  refine visited fun s cs hs => ?_
  obtain ⟨t, ht, hl⟩ := h s cs hs
  show ∃ u, _ = (Grammar.orElse q (fun _ => q') cs, u) ∧ Nesting.Leaves k u
  rw [Grammar.orElse, ht]
  cases q cs with
  | ok a rest => exact ⟨t, rfl, hl⟩
  | fail e rest =>
      -- a failure that is not for good goes back in the text, with the counter as it is
      cases hc : e.committed with
      | true => exact ⟨t, by simp only [hc, if_true], hl⟩
      | false => simpa only [hc, Bool.false_eq_true, if_false] using h' t cs hl

/-- One more in front of what is read. -/
theorem consed {ps : Counted (List α)} {qs : Grammar (List α)} (h : Tallies k ps qs) (a : α)
    {s : Nesting} (hs : s.Leaves k) (cs : List Char) : ∃ t,
    (do let as ← ps; return a :: as : Counted (List α)) s cs =
      (match qs cs with
        | .ok as rest => .ok (a :: as) rest
        | .fail e rest => .fail e rest, t) ∧ t.Leaves k := by
  obtain ⟨t, ht, hl⟩ := (h.bind fun as => .pure (a :: as)) s cs hs
  refine ⟨t, ht.trans ?_, hl⟩
  rw [bind_apply]
  cases qs cs <;> rfl

theorem manyWithin (h : Tallies k p q) (fuel : Nat) :
    Tallies k (Counted.manyWithin p fuel) (Grammar.manyWithin q fuel) := by
  induction fuel with
  | zero => exact fun s _ hs => ⟨s, rfl, hs⟩
  | succ fuel ih =>
      intro s cs hs
      obtain ⟨t, ht, hl⟩ := h s cs hs
      rw [Counted.manyWithin, Grammar.manyWithin, ht]
      cases q cs with
      | fail e rest => exact ⟨t, by dsimp only; split <;> rfl, hl⟩
      | ok a rest => exact ih.consed a hl rest

/-- A repetition of a counted reader does what that of the plain one does. -/
theorem many (h : Tallies k p q) : Tallies k (Counted.many p) (Grammar.many q) :=
  visited fun s cs hs => h.manyWithin (cs.length + 1) s cs hs

theorem separated (h : Tallies k p q) (separator : Grammar Unit) :
    Tallies k (Counted.separated p separator) (Grammar.separated q separator) := by
  refine visited fun s cs hs => ?_
  obtain ⟨t, ht, hl⟩ := h s cs hs
  rw [Grammar.separated, ht]
  cases q cs with
  | fail e rest => exact ⟨t, by dsimp only; split <;> rfl, hl⟩
  | ok a rest =>
      have more : Tallies k (Counted.many (do Counted.flat separator; p))
          (Grammar.many (separator >>= fun _ => q)) :=
        ((flat separator).bind fun _ => h).many
      exact more.consed a hl rest

/-- A level is taken and given back, or there is none left. -/
theorem nested {f : Grammar Rule → Grammar α}
    (h : ∀ j, k = j + 1 → Tallies j p (f (Dsl.unary j))) :
    Tallies k (Counted.nested p) (Dsl.nested (levelBelow k) f) := by
  refine visited fun s cs hs => ?_
  have now := hs.now
  cases k with
  | zero => exact ⟨s, if_pos (Nat.le_of_eq now.symm), hs⟩
  | succ j =>
      have below : Nesting.Leaves j ⟨s.now + 1, s.visits⟩ :=
        ⟨by rw [Nat.add_right_comm]; exact now, hs.settled⟩
      obtain ⟨t, ht, hl⟩ := (h j rfl).visited ⟨s.now + 1, s.visits⟩ cs below
      have within : ¬ textNestingLimit ≤ s.now := by omega
      have above : t.now = s.now + 1 := Nat.add_right_cancel (hl.now.trans below.now.symm)
      refine ⟨⟨t.now - 1, t.visits⟩, ?_, ?_, hl.settled⟩
      · rw [if_neg within, ht]
        rfl
      · rw [above]
        exact now

/-! ### Chains -/

section

variable {p : Counted Rule} {q : Grammar Rule}

/-- The links of a chain are counted like those without a counter. -/
theorem linksWithin (op : Connective) (h : Tallies k p q) (fuel : Nat) :
    Tallies k (Counted.linksWithin op p fuel) (Dsl.linksWithin op q fuel) := by
  induction fuel with
  | zero => exact fun s _ hs => ⟨s, rfl, hs⟩
  | succ fuel ih =>
      intro s cs hs
      rw [Counted.linksWithin, Dsl.linksWithin]
      cases keyword op (skipTrivia cs) with
      | fail e rest => exact ⟨s, rfl, hs⟩
      | ok u rest =>
          exact (h.commit.bind fun r => ih.bind fun rs => .pure (r :: rs)) s rest hs

theorem chainFrom (op : Connective) (h : Tallies k p q) (first : Rule) :
    Tallies k (Counted.chainFrom op p first) (Dsl.chainFrom op q first) := by
  have links : Tallies k (Counted.links op p) (Dsl.links op q) :=
    visited fun s cs hs => h.linksWithin op (cs.length + 1) s cs hs
  refine (links.bind fun rs => ?_).visited
  cases rs with
  | nil => exact .pure _
  | cons r rs => exact .pure _

/-- Chains of counted readers do what those of plain ones do. -/
theorem chain (op : Connective) (h : Tallies k p q) :
    Tallies k (Counted.chain op p) (Dsl.chain op q) :=
  (h.bind fun first => (h.chainFrom op first).bind fun _ => .pure _).visited

/-- Implications of counted readers do what those of plain ones do. -/
theorem implication (h : Tallies k p q) :
    Tallies k (Counted.implication p) (Dsl.implication q) :=
  (((h.chain .and).chain .xor).chain .or).chain .implies

/-- An expression from its first operand on does what the plain one does. -/
theorem expressionFrom (h : Tallies k p q) (first : Rule) :
    Tallies k (Counted.expressionFrom p first) (Dsl.expressionFrom q first) :=
  ((h.chainFrom .and first).bind fun a =>
    ((h.chain .and).chainFrom .xor a.1).bind fun b =>
      (((h.chain .and).chain .xor).chainFrom .or b.1).bind fun c =>
        ((((h.chain .and).chain .xor).chain .or).chainFrom .implies c.1).bind fun _ =>
          .pure _).visited

end

/-! ### Calls -/

theorem argument (h : Tallies k p q) : Tallies k (Counted.argument p) (Dsl.argument q) :=
  ((flat trivia).bind fun _ => h.commit).visited

section

variable {rule : Counted Rule} {rule' : Grammar Rule} (h : Tallies k rule rule')
include h

/-- A counted list of rules does what the plain one does. -/
theorem ruleList : Tallies k (Counted.ruleList rule) (Dsl.ruleList rule') :=
  ((flat _).bind fun _ => (flat _).bind fun _ => (h.separated _).bind fun _ =>
    (flat _).bind fun _ => .pure _).visited

/-- The counted arguments of a call do what the plain ones do. -/
theorem callArguments (name : String) (form : CallForm) :
    Tallies k (Counted.callArguments rule name form) (Dsl.callArguments rule' name form) := by
  have body (s : Scope) : Tallies k
      (do let body ← Counted.argument rule; return .scope s body none : Counted Rule)
      (do let body ← Dsl.argument rule'; return .scope s body none : Grammar Rule) :=
    h.argument.bind fun _ => .pure _
  cases form with
  | requirement kind => exact ((flat _).bind fun _ => (flat _).bind fun _ => body _).visited
  | forEach => exact ((flat _).bind fun _ => (flat _).bind fun _ => body _).visited
  | guarded guard => exact ((flat _).bind fun _ => (flat _).bind fun _ => body _).visited
  | withDefault =>
      exact ((flat _).bind fun _ => (flat _).bind fun _ => (flat _).bind fun _ =>
        (flat _).bind fun _ => body _).visited
  | quota kind =>
      exact ((flat _).bind fun _ => (flat _).bind fun _ => h.ruleList.bind fun _ =>
        .pure _).visited
  | _ => exact flat _

theorem callBody (name : String) :
    Tallies k (Counted.callBody rule name) (Dsl.callBody rule' name) :=
  ((h.callArguments name _).bind fun _ => (flat _).bind fun _ => .pure _).visited

end

/-! ### Primaries -/

section

variable {unary : Counted Rule} (h : ∀ j < k, Tallies j unary (Dsl.unary j))
include h

/-- A counted expression takes one level, and does what the plain one does. -/
theorem expression : Tallies k (Counted.expression unary) (Dsl.expression (levelBelow k)) :=
  nested fun j e => (flat _).bind fun _ => (h j (e ▸ Nat.lt_succ_self j)).implication

/-- What is counted behind `NOT` at the start of parentheses takes two levels, and does what the
plain one does. -/
theorem negated : Tallies k (Counted.negated unary)
    (Dsl.negated (levelBelow k) (levelBelow (k - 1))) := by
  refine nested fun j e => ?_
  obtain rfl := e
  have operand : Tallies j (Counted.nested unary) (Dsl.nested (levelBelow j) id) :=
    nested fun i e => h i (by omega)
  refine operand.bind fun first =>
    ((h j (Nat.lt_succ_self j)).expressionFrom first).bind fun _ => (flat _).bind fun next => ?_
  cases next with
  | some _ => exact .pure _
  | none => exact .pure _

/-- A counted group does what the plain one does. -/
theorem group : Tallies k (Counted.group unary)
    (Dsl.group (levelBelow k) (levelBelow (k - 1))) := by
  have more : Tallies k (Counted.many (do Counted.flat (spaced ','); Counted.expression unary))
      (Grammar.many (do spaced ','; Dsl.expression (levelBelow k))) :=
    ((flat _).bind fun _ => expression h).many
  refine ((flat _).bind fun _ => (flat _).bind fun op => (flat _).bind fun _ =>
    (flat _).bind fun next => ?_).visited
  cases next with
  | some _ => exact .pure _
  | none =>
      dsimp only
      split
      · refine (negated h).bind fun m => ?_
        cases m with
        | expression r => exact .pure _
        | member r => exact more.bind fun _ => .pure _
      · exact (expression h).bind fun _ => more.bind fun _ => .pure _

/-- A counted reader of parentheses does what the plain one does. -/
theorem parenthesized : Tallies k (Counted.parenthesized unary)
    (Dsl.parenthesized (levelBelow k) (levelBelow (k - 1))) := by
  refine ((flat _).bind fun _ => (group h).optional.bind fun g => ?_).visited
  cases g with
  | some r => exact (pure r).bind fun _ => (flat _).bind fun _ => .pure _
  | none => exact (expression h).commit.bind fun _ => (flat _).bind fun _ => .pure _

theorem named : Tallies k (Counted.named unary) (Dsl.named (levelBelow k)) := by
  refine ((flat _).bind fun name => (flat _).bind fun next => ?_).visited
  cases next with
  | some _ => exact (expression h).callBody name
  | none => exact flat _

/-- A counted primary rule does what the plain one does. -/
theorem primary : Tallies k (Counted.primary unary)
    (Dsl.primary (levelBelow k) (levelBelow (k - 1))) :=
  ((flat _).bind fun _ =>
    ((parenthesized h).orElse ((flat _).orElse (named h))).expecting "expression").visited

/-- A counted operand does what the plain one does. -/
theorem operandWith : Tallies k (Counted.operandWith unary)
    (Dsl.operandWith (levelBelow k) (levelBelow (k - 1))) := by
  refine ((flat _).bind fun _ => (flat _).bind fun next => ?_).visited
  cases next with
  | some _ =>
      exact (nested (k := k) fun j e => (h j (e ▸ Nat.lt_succ_self j)).commit).bind fun _ => .pure _
  | none => exact primary h

end

end Tallies

/-- **The counter bounds the recursion**: with more fuel than levels left, counting makes no
difference to what is read. -/
theorem tallies_unary {k fuel : Nat} (h : k < fuel) :
    Tallies k (Counted.unary fuel) (unary k) := by
  induction fuel generalizing k with
  | zero => cases h
  | succ fuel ih =>
      rw [unary_eq]
      exact .operandWith fun j hj => ih (by omega)

/-! ### Whole texts -/

/-- With fuel for the limit, a counted document does what the plain one does. -/
theorem tallies_document {fuel : Nat} (h : textNestingLimit ≤ fuel) :
    Tallies textNestingLimit (Counted.document fuel) document := by
  have top : Tallies textNestingLimit (Counted.expression (Counted.unary fuel)) topExpression :=
    .expression fun j hj => tallies_unary (Nat.lt_of_lt_of_le hj h)
  refine ((Tallies.flat _).bind fun _ => ?_).visited
  intro s cs hs
  cases cs with
  | nil => exact ⟨s, rfl, hs⟩
  | cons c cs =>
      exact (top.bind fun _ => (Tallies.flat _).bind fun _ => .pure _) s (c :: cs) hs

/-- **Nesting stays bounded.**  On every text the counted grammar reads what the grammar reads,
whatever fuel it has beyond the limit of the counter; every reading within leaves the counter as it
was, be it a success or a failure, and none finds it beyond the limit of 64.  A rule that is read
has at most five levels for each of those. -/
theorem counted_document (text : String) (extra : Nat) :
    ∃ visits, Counted.document (textNestingLimit + extra) .fresh text.toList =
        (document text.toList, ⟨0, visits⟩) ∧
      (∀ v ∈ visits, v.stop = v.start ∧ v.start ≤ 64) ∧
      ∀ r, parse text = .ok (some r) → r.depth ≤ 320 := by
  have start : Nesting.fresh.Leaves textNestingLimit := ⟨rfl, nofun⟩
  obtain ⟨t, ht, hl⟩ :=
    tallies_document (Nat.le_add_right textNestingLimit extra) .fresh text.toList start
  have back : t.now = 0 := Nat.add_right_cancel (hl.now.trans start.now.symm)
  refine ⟨t.visits, ?_, hl.settled, fun r => depth_le_of_parse⟩
  rw [ht, ← back]

/-- The operand of `NOT` is read two levels down: one for the expression, one for `NOT`. -/
theorem counted_document_not :
    ∃ visits, Counted.document (textNestingLimit + 1) .fresh "NOT a == 1".toList =
        (document "NOT a == 1".toList, ⟨0, visits⟩) ∧
      (visits.map Visit.start).max? = some 2 ∧
      ∃ r, parse "NOT a == 1" = .ok (some r) ∧ r.depth = 2 ∧ r.depth ≤ 320 := by
  obtain ⟨visits, h, -, shallow⟩ := counted_document "NOT a == 1" 1
  have deepest : ((Counted.document (textNestingLimit + 1) .fresh
      "NOT a == 1".toList).2.visits.map Visit.start).max? = some 2 := by decide +kernel
  rw [h] at deepest
  exact ⟨visits, h, deepest, .group .not [.compare "a" .equals (.int 1)], rfl, rfl, shallow _ rfl⟩

end Rulebook.Dsl
