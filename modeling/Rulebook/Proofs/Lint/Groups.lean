import Rulebook.Proofs.Lint.Checks
import Rulebook.Proofs.Lint.Consumed
import Rulebook.Proofs.Rule.Tree

/-!
# Rulebook — Proofs — Lint — Groups

Which groups of an accepted text the linter sees.  It looks at the tokens behind each opening
parenthesis.  The same parentheses are counted from the rule: those with a field of a keyword's name
for the whole inside are its empty groups and its calls with such a field for the only argument, and
those with a keyword and a rule inside are its groups of one rule (`Spelled.counts`).

* `lint_groups`: what the linter reports more and what less than the groups of the rule.
-/

namespace Rulebook.Lint

variable {test : List Token → Bool} {p : Token → Bool} {t o e : Token} {ts us : List Token}

/-! ### Parentheses -/

section

variable {q : Token → Bool} {depth : Nat}

theorem groupBody_plain (h : t.kind ∉ [.opening, .closing]) :
    groupBody depth (t :: ts) = t :: groupBody depth ts := by
  obtain ⟨kind, text, start⟩ := t
  cases kind <;> simp at h <;> rfl

theorem groupBody_opening (h : o.kind = .opening) :
    groupBody depth (o :: ts) = o :: groupBody (depth + 1) ts := by
  obtain ⟨kind, text, start⟩ := o
  cases h
  rfl

/-- The parenthesis that closes a group ends its body. -/
theorem groupBody_closing (h : e.kind = .closing) : groupBody 0 (e :: ts) = [] := by
  obtain ⟨kind, text, start⟩ := e
  cases h
  rfl

theorem groupBody_closing_succ (h : e.kind = .closing) :
    groupBody (depth + 1) (e :: ts) = e :: groupBody depth ts := by
  obtain ⟨kind, text, start⟩ := e
  cases h
  rfl

theorem atTop_plain (h : t.kind ∉ [.opening, .closing]) :
    atTop q 0 (t :: ts) = (q t || atTop q 0 ts) := by
  obtain ⟨kind, text, start⟩ := t
  cases kind <;> simp at h <;> rfl

theorem atTop_plain_succ (h : t.kind ∉ [.opening, .closing]) :
    atTop q (depth + 1) (t :: ts) = atTop q (depth + 1) ts := by
  obtain ⟨kind, text, start⟩ := t
  cases kind <;> simp at h <;> rfl

theorem atTop_opening (h : o.kind = .opening) : atTop q depth (o :: ts) = atTop q (depth + 1) ts := by
  obtain ⟨kind, text, start⟩ := o
  cases h
  rfl

theorem atTop_closing (h : e.kind = .closing) : atTop q depth (e :: ts) = atTop q (depth - 1) ts := by
  obtain ⟨kind, text, start⟩ := e
  cases h
  rfl

end

/-- Tokens in which each parenthesis has a partner; those outside of parentheses pass a test. -/
inductive Nested : (Token → Bool) → List Token → Prop where
  | nil {p : Token → Bool} : Nested p []
  | plain {p : Token → Bool} {t : Token} {ts : List Token} (ht : t.kind ∉ [.opening, .closing])
      (hp : p t = true) (h : Nested p ts) : Nested p (t :: ts)
  | enclosed {p : Token → Bool} {o e : Token} {ts us : List Token} (ho : o.kind = .opening)
      (h : Nested (fun _ => true) ts) (he : e.kind = .closing) (h' : Nested p us) :
      Nested p (o :: (ts ++ e :: us))

/-- Whether the token is no comma. -/
def Token.isInner (t : Token) : Bool := t.kind ≠ .comma

namespace Nested

variable {q : Token → Bool}

/-- What has partners has them whatever passes the test. -/
theorem mono (h : Nested p ts) : Nested (fun _ => true) ts := by
  induction h with
  | nil => exact .nil
  | plain ht _ _ ih => exact .plain ht rfl ih
  | enclosed ho h he _ _ ih => exact .enclosed ho h he ih

/-- Tokens with partners, one part behind the other, have partners. -/
theorem append (h : Nested p ts) (h' : Nested p us) : Nested p (ts ++ us) := by
  induction h with
  | nil => exact h'
  | plain ht hp _ ih => exact .plain ht hp (ih h')
  | @enclosed p o e ts vs ho h he _ _ ih =>
      rw [List.cons_append, List.append_assoc]
      exact .enclosed ho h he (ih h')

/-- Tokens with partners have them between parentheses too, whatever passes the test inside. -/
theorem parens (ho : o.kind = .opening) (h : Nested (fun _ => true) ts) (he : e.kind = .closing) :
    Nested p (o :: (ts ++ [e])) :=
  .enclosed ho h he .nil

/-- Without a first token that opens nothing the others still have their partners. -/
theorem cons_inv (h : Nested p (t :: ts)) (ht : t.kind ≠ .opening) : Nested p ts := by
  cases h with
  | plain _ _ h => exact h
  | enclosed ho _ _ _ => exact absurd ho ht

/-- A group goes on behind parentheses with partners. -/
theorem groupBody_append (h : Nested p ts) (depth : Nat) (later : List Token) :
    groupBody depth (ts ++ later) = ts ++ groupBody depth later := by
  induction h generalizing depth later with
  | nil => rfl
  | plain ht _ _ ih => rw [List.cons_append, groupBody_plain ht, ih, List.cons_append]
  | enclosed ho _ he _ ih ih' =>
      rw [List.cons_append, List.append_assoc, groupBody_opening ho, ih, List.cons_append,
        groupBody_closing_succ he, ih', List.cons_append, List.append_assoc, List.cons_append]

/-- What is inside of parentheses is not outside of them. -/
theorem atTop_succ (h : Nested p ts) (depth : Nat) (later : List Token) :
    atTop q (depth + 1) (ts ++ later) = atTop q (depth + 1) later := by
  induction h generalizing depth later with
  | nil => rfl
  | plain ht _ _ ih => rw [List.cons_append, atTop_plain_succ ht, ih]
  | enclosed ho _ he _ ih ih' =>
      rw [List.cons_append, List.append_assoc, atTop_opening ho, ih, List.cons_append,
        atTop_closing he, Nat.add_sub_cancel, ih']

/-- Tokens that pass a test hold none with a property that excludes it. -/
theorem atTop_append (h : Nested p ts) (hq : ∀ t, p t = true → q t = false) (later : List Token) :
    atTop q 0 (ts ++ later) = atTop q 0 later := by
  induction h generalizing later with
  | nil => rfl
  | plain ht hp _ ih => rw [List.cons_append, atTop_plain ht, hq _ hp, ih hq, Bool.false_or]
  | enclosed ho h he _ _ ih =>
      rw [List.cons_append, List.append_assoc, atTop_opening ho, h.atTop_succ, List.cons_append,
        atTop_closing he]
      exact ih hq later

end Nested

/-! ### The tokens of a rule -/

/-- An argument is no parenthesis and no comma. -/
theorem inner_of_isArgument (h : t.isArgument = true) : t.kind ∉ [.opening, .closing, .comma] := by
  revert h
  rw [Token.isArgument, Token.isField]
  cases t.kind <;> decide

/-- A comparison is no parenthesis and no comma. -/
theorem inner_of_isComparison (h : t.isComparison = true) :
    t.kind ∉ [.opening, .closing, .comma] := by
  rw [Token.isComparison, Bool.or_eq_true, Bool.and_eq_true] at h
  obtain h | ⟨h, -⟩ := h <;> simp [of_decide_eq_true h]

/-- A token that is no parenthesis and no comma. -/
theorem Nested.inner (ht : t.kind ∉ [.opening, .closing, .comma]) (h : Nested Token.isInner ts) :
    Nested Token.isInner (t :: ts) := by
  simp only [List.mem_cons, List.not_mem_nil, or_false, not_or] at ht
  exact .plain (by simp [ht]) (decide_eq_true ht.2.2) h

/-- In a list of values there are no parentheses. -/
theorem Listed.nested {vs : List Token} (h : Listed vs) : Nested (fun _ => true) vs := by
  have plain {v : Token} (hv : v.isArgument = true) : v.kind ∉ [.opening, .closing] := by
    have := inner_of_isArgument hv
    simp_all
  induction h with
  | single hv => exact .plain (plain hv) rfl .nil
  | cons hv hc _ ih =>
      refine .plain (plain hv) rfl (.plain ?_ rfl ih)
      simp only [List.mem_cons, List.not_mem_nil, or_false] at hc
      obtain hc | hc := hc <;> simp [hc]

/-- Among the arguments of a call without rules there are no parentheses. -/
theorem Arguments.nested {a : Atom} {args : List Token} (h : Arguments a args) :
    Nested (fun _ => true) args := by
  cases h with
  | none _ => exact .nil
  | one hv _ => exact (Listed.single hv).nested
  | more hv hc h _ => exact (Listed.cons hv (by simp [hc]) h).nested

/-- Rules behind separators that are no parentheses. -/
theorem nested_links {links : List Link}
    (hs : ∀ l ∈ links, l.separator.kind ∉ [.opening, .closing] ∧ p l.separator = true)
    (hl : ∀ l ∈ links, Nested p l.tokens) : Nested p (links.flatMap Link.all) := by
  induction links with
  | nil => exact .nil
  | cons l links ih =>
      obtain ⟨⟨plain, passes⟩, hss⟩ := List.forall_mem_cons.mp hs
      obtain ⟨nested, hls⟩ := List.forall_mem_cons.mp hl
      rw [List.flatMap_cons]
      exact (Nested.plain plain passes nested).append (ih hss hls)

/-- **Parentheses in a rule have partners, and its commas are inside of them.** -/
theorem Spelled.nested {r : Rule} {ts : List Token} (h : Spelled r ts) : Nested Token.isInner ts := by
  have commas {links : List Link} (hs : ∀ l ∈ links, l.separator.kind = .comma)
      (hl : ∀ l ∈ links, Nested Token.isInner l.tokens) :
      Nested (fun _ => true) (links.flatMap Link.all) :=
    nested_links (fun l hm => by simp [hs l hm]) fun l hm => (hl l hm).mono
  have plain {t : Token} {ts : List Token} {k : TokenKind} (ht : t.kind = k)
      (hk : k ∉ [.opening, .closing]) (h : Nested (fun _ => true) ts) :
      Nested (fun _ => true) (t :: ts) := .plain (ht ▸ hk) rfl h
  induction h with
  | condition ht hu hv =>
      have field := Token.isArgument_of_isField (spells_fieldName ht)
      exact .inner (inner_of_isArgument field) (.inner (inner_of_isComparison (spells_comparison hu))
        (.inner (inner_of_isArgument (spells_operand hv).1) .nil))
  | call ht ho ha he _ => exact .inner (by simp [ht]) (.parens ho ha.nested he)
  | @scope s r t o f c e front ts ht ho hf hc hv hr he ih =>
      have argument {v : Token} {ts : List Token} (hv : v.isArgument = true)
          (h : Nested (fun _ => true) ts) : Nested (fun _ => true) (v :: ts) :=
        (Listed.single hv).nested.append h
      have inside : Nested (fun _ => true) (front ++ ts) := by
        obtain rfl | ⟨v, c', rfl, hv, hc'⟩ := hv
        · exact ih.mono
        · exact argument hv (plain hc' (by decide) ih.mono)
      have whole := argument hf (plain hc (by decide) inside)
      have parens : Nested Token.isInner _ := .parens ho whole he
      exact .inner (by simp [ht]) (by simpa using parens)
  | quota ht ho hn hc hb hr hs hl hb' he ih ihs =>
      have last : Nested (fun _ => true) [_] := plain hb' (by decide) .nil
      have inside := plain hn (by decide) (plain hc (by decide) (plain hb (by decide)
        (ih.mono.append ((commas hs ihs).append last))))
      exact .inner (by simp [ht]) (by simpa using Nested.parens ho inside he)
  | emptyQuota ht ho hn hc hb hb' he =>
      exact .inner (by simp [ht]) (.parens ho (plain hn (by decide) (plain hc (by decide)
        (plain hb (by decide) (plain hb' (by decide) .nil)))) he)
  | negation ht _ ih => exact .inner (by simp [kind_of_connective? ht]) ih
  | chain _ _ _ hs _ ih ihs =>
      refine ih.append (nested_links (fun l hm => ?_) ihs)
      simp [kind_of_connective? (hs l hm), Token.isInner]
  | enclosed ho _ _ he ih => exact .parens ho ih.mono he
  | group ho ht _ hs _ he ih ihs =>
      have inside := plain (kind_of_connective? ht) (by decide) (ih.mono.append (commas hs ihs))
      simpa using Nested.parens ho inside he
  | emptyGroup ho ht he =>
      exact .parens ho (plain (kind_of_connective? ht) (by decide) .nil) he

/-! ### Counting parentheses -/

/-- The number of opening parentheses in front of tokens that pass the test. -/
def openingsWhere (test : List Token → Bool) : List Token → Nat
  | [] => 0
  | t :: ts => (t.kind = .opening && test ts).toNat + openingsWhere test ts

/-- The number is the same whatever comes behind the tokens. -/
def Counts (test : List Token → Bool) (n : Nat) (ts : List Token) : Prop :=
  ∀ later, openingsWhere test (ts ++ later) = n + openingsWhere test later

namespace Counts

variable {n m : Nat}

theorem nil : Counts test 0 [] := fun _ => (Nat.zero_add _).symm

/-- Parts one behind the other are counted one by one. -/
theorem append (h : Counts test n ts) (h' : Counts test m us) : Counts test (n + m) (ts ++ us) := by
  intro later
  rw [List.append_assoc, h, h', Nat.add_assoc]

theorem skip (ht : t.kind ≠ .opening) (h : Counts test n ts) : Counts test n (t :: ts) := by
  intro later
  rw [List.cons_append, openingsWhere, h, decide_eq_false ht]
  exact Nat.zero_add _

/-- An opening parenthesis counts by the test of what is behind it. -/
theorem opening {b : Bool} (ho : o.kind = .opening) (hb : ∀ later, test (ts ++ later) = b)
    (h : Counts test n ts) : Counts test (b.toNat + n) (o :: ts) := by
  intro later
  rw [List.cons_append, openingsWhere, h, hb, decide_eq_true ho, Bool.true_and, Nat.add_assoc]

theorem closing (he : e.kind = .closing) (h : Counts test n ts) : Counts test n (ts ++ [e]) :=
  h.append (.skip (by simp [he]) .nil)

end Counts

/-- No parenthesis is counted in a list of values. -/
theorem Listed.counts {vs : List Token} (h : Listed vs) : Counts test 0 vs := by
  have skip {v : Token} {ts : List Token} (hv : v.isArgument = true) (h : Counts test 0 ts) :
      Counts test 0 (v :: ts) := .skip (fun e => inner_of_isArgument hv (by simp [e])) h
  induction h with
  | single hv => exact skip hv .nil
  | cons hv hc _ ih => exact skip hv (.skip (fun e => by simp [e] at hc) ih)

theorem Arguments.counts {a : Atom} {args : List Token} (h : Arguments a args) :
    Counts test 0 args := by
  cases h with
  | none _ => exact .nil
  | one hv _ => exact (Listed.single hv).counts
  | more hv hc h _ => exact (Listed.cons hv (by simp [hc]) h).counts

/-- The test tells the rules with a property by the parentheses that they are read from. -/
structure Tells (test : List Token → Bool) (p : Rule → Bool) : Prop where
  condition (c : Condition) : p (.atom (.condition c) none) = false
  call {a : Atom} {args later : List Token} {e : Token} (ha : Arguments a args)
    (he : e.kind = .closing) (hc : condition? (.atom a none) = none) :
    test (args ++ e :: later) = p (.atom a none)
  scope {s : Scope} {r : Rule} {f c : Token} {later : List Token} (hf : f.isArgument = true)
    (hc : c.kind = .comma) : test (f :: c :: later) = p (.scope s r none)
  quota {kind : Quota} {count : UInt32} {rs : List Rule} {n : Token} {later : List Token}
    (hn : n.kind = .number) : test (n :: later) = p (.junction (.quota kind count) rs none)
  negation (r : Rule) : p (.group .not [r]) = false
  chain {op : Connective} {r q : Rule} {rs : List Rule} (hop : op ≠ .not) :
    p (.group op (r :: q :: rs)) = false
  enclosed {r : Rule} {e : Token} {ts later : List Token} (hr : Spelled r ts) (hu : Unheaded ts)
    (he : e.kind = .closing) : test (ts ++ e :: later) = false
  group {op : Connective} {r : Rule} {t e : Token} {ts later : List Token} {links : List Link}
    (ht : t.connective? = some op) (hr : Spelled r ts)
    (hs : ∀ l ∈ links, l.separator.kind = .comma) (hl : ∀ l ∈ links, Spelled l.rule l.tokens)
    (he : e.kind = .closing) :
    test (t :: (ts ++ (links.flatMap Link.all ++ e :: later))) =
      p (.group op (r :: links.map Link.rule))
  emptyGroup {op : Connective} {t e : Token} {later : List Token} (ht : t.connective? = some op)
    (he : e.kind = .closing) : test (t :: e :: later) = p (.group op [])

/-- The rules of a tree with a property are the top, if it has it, and those below it. -/
theorem countP_preorder (p : Rule → Bool) (r : Rule) :
    r.preorder.countP p = (p r).toNat + (Rule.preorderAll r.children).countP p := by
  rw [Rule.preorder_eq, List.countP_cons, Nat.add_comm]
  cases p r <;> rfl

/-- The parentheses in rules behind separators. -/
theorem counts_links {p : Rule → Bool} {links : List Link}
    (hs : ∀ l ∈ links, l.separator.kind ≠ .opening)
    (hl : ∀ l ∈ links, Counts test (l.rule.preorder.countP p) l.tokens) :
    Counts test ((Rule.preorderAll (links.map Link.rule)).countP p) (links.flatMap Link.all) := by
  induction links with
  | nil => exact .nil
  | cons l links ih =>
      obtain ⟨plain, hss⟩ := List.forall_mem_cons.mp hs
      obtain ⟨own, hls⟩ := List.forall_mem_cons.mp hl
      rw [List.map_cons, Rule.preorderAll, List.countP_append, List.flatMap_cons]
      exact (own.skip plain).append (ih hss hls)

/-- **A test that tells the rules with a property by their parentheses counts them.** -/
theorem Spelled.counts {p : Rule → Bool} (tells : Tells test p) {r : Rule} (h : Spelled r ts) :
    Counts test (r.preorder.countP p) ts := by
  have inner {n : Nat} {t : Token} {ts : List Token} {k : TokenKind} (ht : t.kind = k)
      (hk : k ≠ .opening) (h : Counts test n ts) : Counts test n (t :: ts) := .skip (ht ▸ hk) h
  induction h with
  | @condition c t u v ht hu hv =>
      have field := inner_of_isArgument (Token.isArgument_of_isField (spells_fieldName ht))
      have comparison := inner_of_isComparison (spells_comparison hu)
      have operand := inner_of_isArgument (spells_operand hv).1
      rw [countP_preorder, tells.condition]
      exact .skip (by simp_all) (.skip (by simp_all) (.skip (by simp_all) .nil))
  | @call a t o e args ht ho ha he hc =>
      rw [countP_preorder]
      refine inner ht (by decide) (.opening ho (fun later => ?_) (.closing he ha.counts))
      rw [List.append_assoc]
      exact tells.call ha he hc
  | @scope s r t o f c e front ts ht ho hf hc hv hr he ih =>
      have inside : Counts test (r.preorder.countP p) (front ++ (ts ++ [e])) := by
        obtain rfl | ⟨v, c', rfl, hv, hc'⟩ := hv
        · exact .closing he ih
        · have front := (Listed.single hv).counts.append (inner hc' (by decide) (.closing he ih))
          rwa [Nat.zero_add] at front
      have whole := (Listed.single hf).counts.append (inner hc (by decide) inside)
      rw [Nat.zero_add] at whole
      rw [countP_preorder, Rule.children, Rule.preorderAll, Rule.preorderAll, List.append_nil]
      exact inner ht (by decide) (.opening ho (fun later => tells.scope hf hc) whole)
  | quota ht ho hn hc hb hr hs hl hb' he ih ihs =>
      have links := counts_links (fun l hm => by simp [hs l hm]) ihs
      have members := (ih.append links).append (inner hb' (by decide) (.closing he .nil))
      rw [List.append_assoc] at members
      rw [countP_preorder, Rule.children, Rule.preorderAll, List.countP_append]
      exact inner ht (by decide) (.opening ho (fun later => tells.quota hn)
        (inner hn (by decide) (inner hc (by decide) (inner hb (by decide) members))))
  | emptyQuota ht ho hn hc hb hb' he =>
      rw [countP_preorder]
      exact inner ht (by decide) (.opening ho (fun later => tells.quota hn) (inner hn (by decide)
        (inner hc (by decide) (inner hb (by decide) (inner hb' (by decide) (.closing he .nil))))))
  | negation ht _ ih =>
      rw [countP_preorder, tells.negation, Rule.group, Rule.children, Rule.preorderAll,
        List.countP_append]
      exact inner (kind_of_connective? ht) (by decide) (by simpa [Rule.preorderAll] using ih)
  | @chain op r ts links hop hr hn hs hl ih ihs =>
      have further := counts_links (fun l hm => by simp [kind_of_connective? (hs l hm)]) ihs
      -- a chain has no parentheses of its own, so it is not counted
      have several : p (.group op (r :: links.map Link.rule)) = false := by
        cases links with
        | nil => exact absurd rfl hn
        | cons l links => exact tells.chain hop
      rw [countP_preorder, several, Rule.group, Rule.children, Rule.preorderAll, List.countP_append]
      simpa using ih.append further
  | @enclosed r o e ts ho hr hu he ih =>
      have none (later : List Token) : test ((ts ++ [e]) ++ later) = false := by
        rw [List.append_assoc]
        exact tells.enclosed hr hu he
      simpa using Counts.opening ho none (.closing he ih)
  | group ho ht hr hs hl he ih ihs =>
      have members := ih.append (.closing he (counts_links (fun l hm => by simp [hs l hm]) ihs))
      rw [countP_preorder, Rule.group, Rule.children, Rule.preorderAll, List.countP_append]
      refine .opening ho (fun later => ?_) (inner (kind_of_connective? ht) (by decide) members)
      rw [List.cons_append, List.append_assoc, List.append_assoc]
      exact tells.group ht hr hs hl he
  | emptyGroup ho ht he =>
      rw [countP_preorder]
      exact .opening ho (fun later => tells.emptyGroup ht he)
        (inner (kind_of_connective? ht) (by decide) (.closing he .nil))

/-! ### The tests -/

/-- Whether a token of the kind comes first, and then the end of the group. -/
def closedBehind (head : Token → Bool) : List Token → Bool
  | [] => false
  | t :: ts => head t && (groupBody 0 ts).isEmpty

/-- Whether a keyword other than `NOT` comes first, with no comma in the group outside of inner
parentheses, and what is behind it in the group passes the test. -/
def oneBehind (inside : List Token → Bool) : List Token → Bool
  | [] => false
  | t :: ts =>
    let body := groupBody 0 ts
    t.connective?.any (· != .not) && (!body.isEmpty && !atTop (fun t => t.kind = .comma) 0 body) &&
      inside body

/-- Whether the tokens start with a comparison symbol. -/
def startsWithSymbol (ts : List Token) : Bool := ts.head?.any fun t => t.kind = .comparison

/-- Whether a keyword is among the tokens outside of parentheses. -/
def holdsKeyword (ts : List Token) : Bool := atTop (fun t => t.connective?.isSome) 0 ts

/-- Whether the rule is a group without members. -/
def isEmptyGroup : Rule → Bool
  | .junction (.connective _) [] _ => true
  | _ => false

/-- Whether the rule is a group of one member, other than a negation. -/
def isSingleGroup : Rule → Bool
  | .junction (.connective op) [_] _ => op != .not
  | _ => false

/-- Whether the rule is a call with a field of a keyword's name for its only argument. -/
def isKeywordRule : Rule → Bool
  | .atom a _ => isKeywordCall a
  | _ => false

/-- A group without members is one without its records too. -/
theorem isEmptyGroup_bare (r : Rule) : isEmptyGroup r.bare = isEmptyGroup r := by
  rcases r with _ | _ | ⟨_ | _, _ | _, _⟩ <;> rfl

/-- A group of one member is one without its records too. -/
theorem isSingleGroup_bare (r : Rule) : isSingleGroup r.bare = isSingleGroup r := by
  rcases r with _ | _ | ⟨_ | _, _ | ⟨_, _ | _⟩, _⟩ <;> rfl

/-- A call with a keyword's name for its argument is one without its records too. -/
theorem isKeywordRule_bare (r : Rule) : isKeywordRule r.bare = isKeywordRule r := by
  cases r <;> rfl

/-- No empty group is a call. -/
theorem isKeywordRule_of_isEmptyGroup {r : Rule} (h : isEmptyGroup r = true) :
    isKeywordRule r = false := by
  cases r with
  | atom _ _ => cases h
  | _ => rfl

/-- A group holds the tokens up to its end. -/
theorem exists_groupBody (h : t.kind ≠ .closing) (ts : List Token) :
    ∃ us, groupBody 0 (t :: ts) = t :: us := by
  by_cases ho : t.kind = .opening
  · exact ⟨_, groupBody_opening ho⟩
  · exact ⟨_, groupBody_plain (by simp [h, ho])⟩

/-- The body of a group is what stands in front of its closing parenthesis. -/
theorem groupBody_of_nested {ts later : List Token} (h : Nested p ts) (he : e.kind = .closing) :
    groupBody 0 (ts ++ e :: later) = ts := by
  rw [h.groupBody_append, groupBody_closing he, List.append_nil]

section

variable {head : Token → Bool} {inside : List Token → Bool}

/-- A group whose first token fails the test is not one of such a token alone. -/
theorem closedBehind_other (h : head t = false) : closedBehind head (t :: ts) = false := by
  rw [closedBehind, h, Bool.false_and]

theorem closedBehind_behind {u : Token} (h : u.kind ≠ .closing) :
    closedBehind head (t :: u :: ts) = false := by
  obtain ⟨us, body⟩ := exists_groupBody h ts
  rw [closedBehind, body]
  exact Bool.and_false _

/-- A group of its first token alone is told by that token. -/
theorem closedBehind_closing (he : e.kind = .closing) :
    closedBehind head (t :: e :: ts) = head t := by
  rw [closedBehind, groupBody_closing he]
  exact Bool.and_true _

/-- No group of one rule starts with another token than a keyword other than `NOT`. -/
theorem oneBehind_other (h : ∀ op, t.connective? = some op → op = .not) :
    oneBehind inside (t :: ts) = false := by
  have none : t.connective?.any (· != .not) = false := by
    cases e : t.connective? with
    | none => rfl
    | some op => simp [h op e]
  rw [oneBehind, none]
  rfl

theorem oneBehind_kind (h : t.kind ≠ .word) : oneBehind inside (t :: ts) = false := by
  refine oneBehind_other fun op hop => ?_
  exact absurd (kind_of_connective? hop) h

theorem oneBehind_closing (he : e.kind = .closing) : oneBehind inside (t :: e :: ts) = false := by
  rw [oneBehind, groupBody_closing he]
  simp

/-- No group of one rule has a comma behind its first token. -/
theorem oneBehind_comma {c : Token} (hc : c.kind = .comma) :
    oneBehind inside (t :: c :: ts) = false := by
  have plain : c.kind ∉ [.opening, .closing] := by simp [hc]
  rw [oneBehind, groupBody_plain plain]
  simp [atTop_plain plain, hc]

end

/-- What a rule starts with is no comparison symbol. -/
theorem Starts.startsWithSymbol (h : Starts ts) (later : List Token) :
    startsWithSymbol (ts ++ later) = false := by
  cases h with
  | opening ho => simp [Lint.startsWithSymbol, ho]
  | negation ht _ => simp [Lint.startsWithSymbol, kind_of_connective? ht]
  | name ht _ =>
      rw [Token.isField, Bool.or_eq_true] at ht
      obtain ht | ht := ht <;> simp [Lint.startsWithSymbol, of_decide_eq_true ht]

/-- The parentheses that hold a field of a keyword's name and nothing else are the empty groups and
the calls with such an argument. -/
theorem tells_closed : Tells (closedBehind Token.namesKeyword) fun r =>
    isEmptyGroup r || isKeywordRule r where
  condition _ := rfl
  call {a args later e} ha he hc := by
    have only : (isEmptyGroup (.atom a none) || isKeywordRule (.atom a none)) = isKeywordCall a := rfl
    rw [only]
    cases ha with
    | none ha =>
        rw [ha]
        exact closedBehind_other (namesKeyword_of_kind (by simp [he]) (by simp [he]))
    | one hv ha =>
        rw [← ha]
        exact closedBehind_closing he
    | more hv hc h ha =>
        rw [ha]
        exact closedBehind_behind (by simp [hc])
  scope hf hc := closedBehind_behind (by simp [hc])
  quota hn := closedBehind_other (namesKeyword_of_kind (by simp [hn]) (by simp [hn]))
  negation _ := rfl
  chain _ := rfl
  enclosed {r e ts later} hr hu he := by
    have nested := hr.nested
    cases hr.starts with
    | opening h => exact closedBehind_other (namesKeyword_of_kind (by simp [h]) (by simp [h]))
    | negation h hts =>
        have behind := nested.cons_inv (by simp [kind_of_connective? h])
        rw [List.cons_append, closedBehind, groupBody_of_nested behind he]
        simp [hts]
    | name _ second =>
        refine closedBehind_behind fun closes => ?_
        obtain opens | compares := second
        · rw [closes] at opens
          cases opens
        · exact inner_of_isComparison compares (by simp [closes])
  group {op r t e ts later links} ht hr hs hl he := by
    rw [closedBehind, hr.nested.groupBody_append]
    simp [hr.starts.ne_nil, isEmptyGroup, isKeywordRule, Rule.group]
  emptyGroup ht he := by
    rw [closedBehind_closing he, Token.namesKeyword, ht]
    rfl

/-- The parentheses that hold a keyword and a rule are the groups of one rule. -/
theorem tells_single : Tells (oneBehind fun body => !startsWithSymbol body) isSingleGroup where
  condition _ := rfl
  call ha he hc := by
    cases ha with
    | none _ => exact oneBehind_kind (by simp [he])
    | one _ _ => exact oneBehind_closing he
    | more _ hc _ _ => exact oneBehind_comma hc
  scope hf hc := oneBehind_comma hc
  quota hn := oneBehind_kind (by simp [hn])
  negation _ := rfl
  chain _ := rfl
  enclosed {r e ts later} hr hu he := by
    cases hr.starts with
    | opening h => exact oneBehind_kind (by simp [h])
    | negation h _ => exact oneBehind_other fun op hop => Option.some.inj (hop.symm.trans h)
    | @name t u ts ht huc =>
        by_cases other : ∀ op, t.connective? = some op → op = .not
        · exact oneBehind_other other
        · push Not at other
          obtain ⟨op, hop, hne⟩ := other
          have symbol := hu t u ts rfl op hop hne
          obtain ⟨us, body⟩ := exists_groupBody (t := u) (by simp [symbol]) (ts ++ e :: later)
          rw [List.cons_append, List.cons_append, oneBehind, body]
          simp [startsWithSymbol, symbol]
  group {op r t e ts later links} ht hr hs hl he := by
    have nested : Nested (fun _ => true) (ts ++ links.flatMap Link.all) :=
      hr.nested.mono.append (nested_links (fun l hm => by simp [hs l hm]) fun l hm =>
        (hl l hm).nested.mono)
    have body : groupBody 0 (ts ++ (links.flatMap Link.all ++ e :: later)) =
        ts ++ links.flatMap Link.all := by
      rw [← List.append_assoc, groupBody_of_nested nested he]
    have comma := hr.nested.atTop_append (q := fun t => t.kind = .comma)
      (fun t ht => decide_eq_false (of_decide_eq_true ht)) (links.flatMap Link.all)
    rw [oneBehind, body, ht, comma, hr.starts.startsWithSymbol]
    cases links with
    | nil => simp [hr.starts.ne_nil, isSingleGroup, Rule.group, atTop]
    | cons l links =>
        have separator := hs l List.mem_cons_self
        rw [List.flatMap_cons, Link.all, List.cons_append, atTop_plain (by simp [separator])]
        simp [separator, isSingleGroup, Rule.group]
  emptyGroup ht he := oneBehind_closing he

/-! ### Findings -/

/-- Only opening parentheses are checked. -/
theorem checkGroups_other (text : List Char) (h : t.kind ≠ .opening) :
    checkGroups text (t :: ts) = checkGroups text ts := by
  obtain ⟨kind, _, _⟩ := t
  cases kind <;> first | exact absurd rfl h | rfl

/-- A parenthesis in front of a keyword is checked, and then the tokens behind it. -/
theorem checkGroups_opening (text : List Char) {u : Token} (h : t.kind = .opening) :
    checkGroups text (t :: u :: ts) =
      (u.connective?.elim [] fun op => checkGroup text t.start op ts) ++
        checkGroups text (u :: ts) := by
  obtain ⟨kind, _, _⟩ := t
  cases h
  cases hop : u.connective? <;> simp [checkGroups, hop]

/-- The findings of a check are counted by the parentheses, if the test tells when there is one. -/
theorem countP_checkGroups {check : Check} (text : List Char) (nil : test [] = false)
    (none : ∀ t ts, t.connective? = none → test (t :: ts) = false)
    (one : ∀ start t op ts, t.connective? = some op →
      ((checkGroup text start op ts).countP fun f => f.check = check) = (test (t :: ts)).toNat)
    (ts : List Token) :
    ((checkGroups text ts).countP fun f => f.check = check) = openingsWhere test ts := by
  induction ts with
  | nil => rfl
  | cons t ts ih =>
      rw [openingsWhere, ← ih]
      by_cases ho : t.kind = .opening
      · cases ts with
        | nil =>
            rw [nil, Bool.and_false]
            obtain ⟨kind, _, _⟩ := t
            cases ho
            rfl
        | cons u ts =>
            rw [checkGroups_opening text ho, List.countP_append, decide_eq_true ho, Bool.true_and]
            cases hop : u.connective? with
            | none =>
                rw [none u ts hop]
                rfl
            | some op => rw [← one t.start u op ts hop, Option.elim]
      · rw [checkGroups_other text ho, decide_eq_false ho]
        exact (Nat.zero_add _).symm

/-- A check that gives a finding where a condition holds. -/
theorem countP_ite (b : Bool) (check : Check) (location : Location) (message : String) :
    ((if b then [Finding.of check location message none] else []).countP fun f =>
      f.check = check) = b.toNat := by
  cases b
  · rfl
  · simp [Finding.of]

/-- The findings about empty groups are about the parentheses that hold a keyword and nothing else.
-/
theorem countP_checkGroups_empty (text : List Char) (ts : List Token) :
    ((checkGroups text ts).countP fun f => f.check = .emptyGroup) =
      openingsWhere (closedBehind fun t => t.connective?.isSome) ts := by
  refine countP_checkGroups text rfl (fun t ts hop => closedBehind_other (by rw [hop]; rfl))
    (fun start t op ts hop => ?_) ts
  rw [checkGroup, closedBehind, hop]
  dsimp only
  split
  · rename_i empty
    rw [empty]
    rfl
  · rename_i other
    rw [Bool.eq_false_iff.mpr other]
    split <;> rfl

/-- The findings about groups of one rule are about the parentheses that hold a keyword and tokens
without a further one and without a comma. -/
theorem countP_checkGroups_single (text : List Char) (ts : List Token) :
    ((checkGroups text ts).countP fun f => f.check = .singleChildGroup) =
      openingsWhere (oneBehind fun body => !holdsKeyword body) ts := by
  refine countP_checkGroups text rfl (fun t ts hop => oneBehind_other (by simp [hop]))
    (fun start t op ts hop => ?_) ts
  rw [checkGroup, oneBehind, hop, holdsKeyword]
  dsimp only
  cases (groupBody 0 ts).isEmpty with
  | false =>
      rw [if_neg Bool.false_ne_true, countP_ite, Option.any, Bool.not_false, Bool.true_and,
        Bool.and_comm (op != .not)]
  | true => simp [Finding.of]

/-- Of two tests that exclude one another, the parentheses are counted separately. -/
theorem openingsWhere_or {test' : List Token → Bool} (h : ∀ ts, test ts = true → test' ts = false)
    (ts : List Token) : openingsWhere (fun ts => test ts || test' ts) ts =
      openingsWhere test ts + openingsWhere test' ts := by
  induction ts with
  | nil => rfl
  | cons t ts ih =>
      have apart : (t.kind = .opening && (test ts || test' ts)).toNat =
          (t.kind = .opening && test ts).toNat + (t.kind = .opening && test' ts).toNat := by
        cases ht : test ts
        · rw [Bool.false_or, Bool.and_false, Bool.toNat_false, Nat.zero_add]
        · rw [h ts ht, Bool.true_or, Bool.and_false, Bool.toNat_false, Nat.add_zero]
      rw [openingsWhere, openingsWhere, openingsWhere, ih, apart]
      omega

/-- A name of a keyword is bare or a reference. -/
theorem openingsWhere_closedBehind (ts : List Token) :
    openingsWhere (closedBehind Token.namesKeyword) ts =
      openingsWhere (closedBehind fun t => t.connective?.isSome) ts +
        openingsWhere (closedBehind Token.refersToKeyword) ts := by
  have apart {t : Token} (h : t.connective?.isSome = true) : t.refersToKeyword = false := by
    obtain ⟨op, hop⟩ := Option.isSome_iff_exists.mp h
    simp [Token.refersToKeyword, kind_of_connective? hop]
  rw [← openingsWhere_or]
  · refine congrArg (openingsWhere · ts) (funext fun ts => ?_)
    cases ts with
    | nil => rfl
    | cons t ts => exact Bool.and_or_distrib_right _ _ _
  · intro ts h
    cases ts with
    | nil => rfl
    | cons t ts => exact closedBehind_other (apart (Bool.and_eq_true_iff.mp h).1)

theorem openingsWhere_oneBehind {inside inside' : List Token → Bool}
    (h : ∀ body, inside body = true → inside' body = false) (ts : List Token) :
    openingsWhere (oneBehind fun body => inside body || inside' body) ts =
      openingsWhere (oneBehind inside) ts + openingsWhere (oneBehind inside') ts := by
  rw [← openingsWhere_or]
  · refine congrArg (openingsWhere · ts) (funext fun ts => ?_)
    cases ts with
    | nil => rfl
    | cons t ts => exact Bool.and_or_distrib_left _ _ _
  · intro ts one
    cases ts with
    | nil => rfl
    | cons t ts =>
        rw [oneBehind, h _ (Bool.and_eq_true_iff.mp one).2]
        exact Bool.and_false _

/-! ### Accepted texts -/

/-- The number of rules with a property in what a text is read as. -/
def countIn (o : Option Rule) (p : Rule → Bool) : Nat := o.elim 0 fun r => r.preorder.countP p

section

variable {p q : Rule → Bool} {o : Option Rule}

/-- Rules are counted the same without their records. -/
theorem countP_bare (hp : ∀ r : Rule, p r.bare = p r) (r : Rule) :
    r.bare.preorder.countP p = r.preorder.countP p := by
  rw [Rule.preorder_bare, List.countP_map]
  exact congrArg (List.countP · _) (funext hp)

/-- Rules with one of two properties that exclude one another are counted separately. -/
theorem countIn_or (h : ∀ r, p r = true → q r = false) :
    (countIn o fun r => p r || q r) = countIn o p + countIn o q := by
  have all (rs : List Rule) : (rs.countP fun r => p r || q r) = rs.countP p + rs.countP q := by
    induction rs with
    | nil => rfl
    | cons r rs ih =>
        rw [List.countP_cons, List.countP_cons, List.countP_cons, ih]
        have := h r
        cases hp : p r <;> cases hq : q r <;> simp_all <;> omega
  cases o with
  | none => rfl
  | some r => exact all r.preorder

/-- What is told by parentheses is counted in an accepted text. -/
theorem openingsWhere_tokens (tells : Tells test p) (hp : ∀ r : Rule, p r.bare = p r) {text : String}
    (h : Dsl.parse text = .ok o) : openingsWhere test (tokens text.toList) = countIn o p := by
  obtain ⟨o', read, same⟩ := Dsl.exists_bare_readStructure h
  rw [countIn, ← Rule.elim_bare (countP_bare hp) same]
  cases o' with
  | none =>
      rw [tokens_of_readStructure_none read]
      rfl
  | some r =>
      have whole := (spelled_of_readStructure read).counts tells []
      rwa [List.append_nil] at whole

end

/-- The findings of a check about groups that is wanted. -/
theorem countP_lint_groups {s : Settings} {schema : Option Schema} {check : Check} (text : String)
    (hc : check ∈ [.emptyGroup, .singleChildGroup]) (enabled : s.isEnabled check = true) :
    ((lint s schema text).countP fun f => f.check = check) =
      (checkGroups text.toList (tokens text.toList)).countP fun f => f.check = check := by
  rw [List.countP_eq_length_filter, (perm_lint_filter text check).length_eq, if_pos enabled,
    filter_findings_groups hc, ← List.countP_eq_length_filter]

/-- **What is reported about groups of an accepted text are its groups without members and its
groups of one rule, up to this**: a group is also reported as empty where it is a call with the bare
name of a keyword for its only argument, and as one of one rule where it is an expression in
parentheses that starts with the comparison of such a field by a symbol, no keyword outside of inner
parentheses following; and a group of one rule is not reported if a keyword outside of inner
parentheses follows. -/
theorem lint_groups {s : Settings} {schema : Option Schema} {text : String} {o : Option Rule}
    (h : Dsl.parse text = .ok o) :
    let ts := tokens text.toList
    let reported := fun check => (lint s schema text).countP fun f => f.check = check
    (s.isEnabled .emptyGroup = true →
      reported .emptyGroup + openingsWhere (closedBehind Token.refersToKeyword) ts =
        countIn o isEmptyGroup + countIn o isKeywordRule) ∧
      (s.isEnabled .singleChildGroup = true →
        reported .singleChildGroup +
            openingsWhere (oneBehind fun body => !startsWithSymbol body && holdsKeyword body) ts =
          countIn o isSingleGroup +
            openingsWhere (oneBehind fun body => startsWithSymbol body && !holdsKeyword body) ts) := by
  intro ts reported
  have empty (enabled : s.isEnabled .emptyGroup = true) : reported .emptyGroup =
      openingsWhere (closedBehind fun t => t.connective?.isSome) ts :=
    (countP_lint_groups text (by decide) enabled).trans (countP_checkGroups_empty _ ts)
  have single (enabled : s.isEnabled .singleChildGroup = true) : reported .singleChildGroup =
      openingsWhere (oneBehind fun body => !holdsKeyword body) ts :=
    (countP_lint_groups text (by decide) enabled).trans (countP_checkGroups_single _ ts)
  constructor
  · intro enabled
    have told := openingsWhere_tokens tells_closed
      (fun r => by rw [isEmptyGroup_bare, isKeywordRule_bare]) h
    rw [empty enabled, ← countIn_or fun r => isKeywordRule_of_isEmptyGroup, ← told,
      openingsWhere_closedBehind]
  · intro enabled
    have same : (fun body => !holdsKeyword body || (!startsWithSymbol body && holdsKeyword body)) =
        fun body => !startsWithSymbol body || (startsWithSymbol body && !holdsKeyword body) := by
      funext body
      cases startsWithSymbol body <;> cases holdsKeyword body <;> rfl
    have reported := @openingsWhere_oneBehind (fun body => !holdsKeyword body)
      (fun body => !startsWithSymbol body && holdsKeyword body) (by simp_all) ts
    have told := @openingsWhere_oneBehind (fun body => !startsWithSymbol body)
      (fun body => startsWithSymbol body && !holdsKeyword body) (by simp_all) ts
    rw [single enabled, ← openingsWhere_tokens tells_single isSingleGroup_bare h, ← reported, same,
      told]

/-- Two groups without members and two of one rule, one in the other; a call with a reference to a
field that has the name of a keyword is none. -/
theorem lint_groups_nested :
    let text := "(XOR) AND (OR (AND f($\x7bor\x7d))) AND (NOT)"
    let reported := fun check => (lint .standard none text).countP fun f => f.check = check
    ∃ r, Dsl.parse text = .ok (some r) ∧
      reported .emptyGroup = 2 ∧ countIn (some r) isEmptyGroup = 2 ∧
      reported .singleChildGroup = 2 ∧ countIn (some r) isSingleGroup = 2 := by
  obtain ⟨r, read, empty, calls, single⟩ : ∃ r,
      Dsl.parse "(XOR) AND (OR (AND f($\x7bor\x7d))) AND (NOT)" = .ok (some r) ∧
      countIn (some r) isEmptyGroup = 2 ∧ countIn (some r) isKeywordRule = 1 ∧
      countIn (some r) isSingleGroup = 2 := ⟨_, rfl, rfl, rfl, rfl⟩
  have references : openingsWhere (closedBehind Token.refersToKeyword)
      (tokens "(XOR) AND (OR (AND f($\x7bor\x7d))) AND (NOT)".toList) = 1 := by decide +kernel
  have hidden : openingsWhere (oneBehind fun body => !startsWithSymbol body && holdsKeyword body)
      (tokens "(XOR) AND (OR (AND f($\x7bor\x7d))) AND (NOT)".toList) = 0 := by decide +kernel
  have mistaken : openingsWhere (oneBehind fun body => startsWithSymbol body && !holdsKeyword body)
      (tokens "(XOR) AND (OR (AND f($\x7bor\x7d))) AND (NOT)".toList) = 0 := by decide +kernel
  obtain ⟨found, found'⟩ := @lint_groups .standard none _ _ read
  have found := found rfl
  have found' := found' rfl
  rw [references, empty, calls] at found
  rw [hidden, mistaken, single] at found'
  exact ⟨r, read, Nat.add_right_cancel found, empty, found', single⟩

/-- A group of one negation is not reported, and one with an expression for its only member is not
either; the comparison of a field in parentheses is reported as a group of one rule, and the
argument of a call as an empty group. -/
theorem lint_groups_mistaken :
    (∃ r, Dsl.parse "(OR NOT a == 1)" = .ok (some r) ∧ isSingleGroup r = true ∧
      lint .standard none "(OR NOT a == 1)" = []) ∧
    (∃ r, Dsl.parse "(AND a == 1 OR b == 2)" = .ok (some r) ∧ isSingleGroup r = true ∧
      lint .standard none "(AND a == 1 OR b == 2)" = []) ∧
    (∃ r, Dsl.parse "(OR == 1)" = .ok (some r) ∧ countIn (some r) isSingleGroup = 0 ∧
      (lint .standard none "(OR == 1)").map Finding.check = [.singleChildGroup]) ∧
    ∃ r, Dsl.parse "f(OR)" = .ok (some r) ∧ countIn (some r) isEmptyGroup = 0 ∧
      (lint .standard none "f(OR)").map Finding.check = [.emptyGroup] :=
  ⟨⟨_, rfl, rfl, by decide +kernel⟩, ⟨_, rfl, rfl, by decide +kernel⟩,
    ⟨_, rfl, rfl, by decide +kernel⟩, _, rfl, rfl, by decide +kernel⟩

end Rulebook.Lint
