import Rulebook.Proofs.Dsl.Continued
import Rulebook.Proofs.Dsl.Spacing

/-!
# Rulebook — Proofs — Dsl — Precedence

What the levels of the grammar make of a sequence of operands with connectives between them.  The
specification splits the whole sequence at the loosest connective that occurs in it (`assemble`);
the grammar has a loop for every connective, each of which takes the operands of its chain from the
loop of the next tighter one.  A loop reads the longest run of links of its own connective and of
tighter ones, and makes of it what the specification does (`levels_ok`).
-/

namespace Rulebook.Dsl

open Grammar

/-! ### The specification -/

/-- Operands behind the first one of a sequence, each with the connective in front of it. -/
abbrev Links := List (Connective × Rule)

/-- Splits a sequence at every place of a connective: the links before the first one, and the
parts behind each, by their first operand. -/
def splitAt (op : Connective) : Links → Links × List (Rule × Links)
  | [] => ([], [])
  | (o, r) :: ls =>
    let (before, parts) := splitAt op ls
    if o = op then ([], (r, before) :: parts) else ((o, r) :: before, parts)

/-- The rule of a sequence: split at every place of the first of the connectives that is there, and
the rules of its parts, by the connectives that are left, joined in order.  A single part stands for
itself. -/
def assemble : List Connective → Rule → Links → Rule
  | [], first, _ => first
  | op :: ops, first, ls =>
    match splitAt op ls with
    | (before, []) => assemble ops first before
    | (before, parts) =>
      .group op (assemble ops first before :: parts.map fun part => assemble ops part.1 part.2)

/-- The connectives between operands, the loosest first. -/
def looseness : List Connective := [.implies, .or, .xor, .and]

theorem splitAt_append {op : Connective} {before : Links} (h : ∀ l ∈ before, l.1 ≠ op)
    (ls : Links) :
    splitAt op (before ++ ls) = (before ++ (splitAt op ls).1, (splitAt op ls).2) := by
  induction before with
  | nil => rfl
  | cons l before ih =>
      obtain ⟨hl, hb⟩ := List.forall_mem_cons.mp h
      rw [List.cons_append, splitAt, ih hb]
      exact if_neg hl

/-- A junction of a first operand with others, if there are others. -/
def joined (op : Connective) (first : Rule) : List Rule → Rule
  | [] => first
  | r :: rs => .group op (first :: r :: rs)

theorem assemble_cons (op : Connective) (ops : List Connective) (first : Rule) (ls : Links) :
    assemble (op :: ops) first ls = joined op (assemble ops first (splitAt op ls).1)
      ((splitAt op ls).2.map fun part => assemble ops part.1 part.2) := by
  rw [assemble]
  obtain ⟨before, parts⟩ := splitAt op ls
  cases parts <;> rfl

/-! ### The levels of the grammar -/

/-- The loops of a few connectives around a reader of operands, the loosest outermost. -/
def levels (unary : Grammar Rule) : List Connective → Grammar Rule
  | [] => unary
  | op :: ops => chain op (levels unary ops)

/-- The text goes on with links, and no keyword comes behind them. -/
inductive Linked (unary : Grammar Rule) (stop : List Char) : List Char → Links → Prop where
  | done {cs : List Char} (h : skipTrivia cs = stop) (hp : Plain stop) : Linked unary stop cs []
  | link {cs mid rest : List Char} {op : Connective} {r : Rule} {ls : Links}
      (hk : keyword op (skipTrivia cs) = .ok () mid) (hu : unary mid = .ok r rest)
      (t : Linked unary stop rest ls) : Linked unary stop cs ((op, r) :: ls)

/-- The links before the rest of a text are the longest run of the given connectives. -/
structure Run (unary : Grammar Rule) (stop : List Char) (ops : List Connective)
    (ls before after : Links) (rest : List Char) : Prop where
  tiles : ls = before ++ after
  inside : ∀ l ∈ before, l.1 ∈ ops
  outside : ∀ l ∈ after.head?, l.1 ∉ ops
  linked : Linked unary stop rest after

/-- One keyword is not another one. -/
theorem refuses_of_keyword {o op : Connective} {cs mid : List Char}
    (h : keyword o cs = .ok () mid) (hne : o ≠ op) : (keyword op).Refuses cs := by
  obtain ⟨w, rfl, hs, he⟩ := keyword_eq_ok h
  have word := ofKeyword?_eq_some_iff.mpr hs
  refine refuses_keyword ?_
  rw [headWord_keyword word he, word]
  exact fun e => hne (Option.some.inj e)

section

variable {unary : Grammar Rule} {stop : List Char} {op : Connective} {ops : List Connective}

/-- What a reader of operands makes of a sequence: its longest run of the given connectives. -/
def Assembles (unary : Grammar Rule) (stop : List Char) (ops : List Connective)
    (p : Grammar Rule) : Prop :=
  ∀ {cs rest : List Char} {r : Rule} {ls : Links}, unary cs = .ok r rest →
    Linked unary stop rest ls → ∃ before after rest', Run unary stop ops ls before after rest' ∧
      p cs = .ok (assemble ops r before) rest' ∧ rest'.length ≤ cs.length

/-- A run of links of tighter connectives, and behind it one that starts with the loosest. -/
theorem Run.append {ls before after before' after' : Links} {rest rest' : List Char}
    (h : Run unary stop ops ls before after rest)
    (h' : Run unary stop (op :: ops) after before' after' rest') :
    Run unary stop (op :: ops) ls (before ++ before') after' rest' where
  tiles := by rw [h.tiles, h'.tiles, List.append_assoc]
  inside l hl := by
    obtain hl | hl := List.mem_append.mp hl
    · exact List.mem_cons_of_mem op (h.inside l hl)
    · exact h'.inside l hl
  outside := h'.outside
  linked := h'.linked

/-- A run of connectives that no link is without goes on to the end of the links. -/
theorem Run.whole {ls before after : Links} {rest : List Char}
    (h : Run unary stop ops ls before after rest) (hl : ∀ l ∈ ls, l.1 ∈ ops) :
    before = ls ∧ skipTrivia rest = stop := by
  cases after with
  | nil =>
      refine ⟨by rw [h.tiles, List.append_nil], ?_⟩
      cases h.linked
      assumption
  | cons l after =>
      have mem : l ∈ ls := h.tiles ▸ List.mem_append_right before List.mem_cons_self
      exact absurd (hl l mem) (h.outside l rfl)

/-- The loop of a connective reads the parts behind its places, and the links in them. -/
theorem linksWithin_ok {p : Grammar Rule} (hp : Assembles unary stop ops p) (hop : op ∉ ops)
    {fuel : Nat} {cs : List Char} {ls : Links} (hf : cs.length < fuel)
    (hl : Linked unary stop cs ls) (ho : ∀ l ∈ ls.head?, l.1 ∉ ops) :
    ∃ before after rest, Run unary stop (op :: ops) ls before after rest ∧
      (splitAt op before).1 = [] ∧ rest.length ≤ cs.length ∧ linksWithin op p fuel cs =
        .ok ((splitAt op before).2.map fun part => assemble ops part.1 part.2) rest := by
  induction fuel generalizing cs ls with
  | zero => exact absurd hf (Nat.not_lt_zero _)
  | succ fuel ih =>
      cases hl with
      | done hs plain =>
          refine ⟨[], [], cs, ⟨rfl, nofun, nofun, .done hs plain⟩, rfl, Nat.le_refl _, ?_⟩
          exact linksWithin_nil (refuses_keyword_of_none (hs ▸ plain) op) _
      | @link _ mid rest o r ls hk hu t =>
          by_cases same : o = op
          · subst same
            have taken := length_lt_of_keyword hk
            obtain ⟨before, after, rest', run, read, shorter⟩ := hp hu t
            obtain ⟨before', after', rest'', run', first, shorter', read'⟩ :=
              ih (Nat.lt_of_le_of_lt shorter (by omega)) run.linked run.outside
            have apart : ∀ l ∈ before, l.1 ≠ o := fun l hl e => hop (e ▸ run.inside l hl)
            have split : splitAt o ((o, r) :: (before ++ before')) =
                ([], (r, before) :: (splitAt o before').2) := by
              rw [splitAt, splitAt_append apart, first, List.append_nil]
              exact if_pos rfl
            have all := run.append run'
            refine ⟨(o, r) :: (before ++ before'), after', rest'', ?_, by rw [split], by omega, ?_⟩
            · exact ⟨by rw [all.tiles, List.cons_append],
                List.forall_mem_cons.mpr ⟨List.mem_cons_self, all.inside⟩, all.outside, all.linked⟩
            · rw [linksWithin_of_keyword hk, bind_ok (commit_ok read), bind_ok read', split]
              rfl
          · refine ⟨[], (o, r) :: ls, cs, ⟨rfl, nofun, ?_, .link hk hu t⟩, rfl, Nat.le_refl _, ?_⟩
            · rintro l ⟨⟩
              exact List.not_mem_cons_of_ne_of_not_mem same (ho (o, r) rfl)
            · exact linksWithin_nil (refuses_of_keyword hk same) _

/-- A chain is its first operand, joined with those behind it. -/
theorem chain_ok {p : Grammar Rule} {cs mid rest : List Char} {first : Rule} {rs : List Rule}
    (hp : p cs = .ok first mid) (hl : links op p mid = .ok rs rest) :
    chain op p cs = .ok (joined op first rs) rest := by
  have more : chainFrom op p first mid = .ok (joined op first rs, !rs.isEmpty) rest := by
    rw [chainFrom, bind_ok hl]
    cases rs <;> rfl
  rw [chain, bind_ok hp]
  exact bind_ok more

/-- **A level of the grammar makes of a run of links what the specification does.** -/
theorem levels_ok (hb : Bounded unary) (hd : ops.Nodup) :
    Assembles unary stop ops (levels unary ops) := by
  induction ops with
  | nil =>
      intro cs rest r ls hu hl
      exact ⟨[], ls, rest, ⟨rfl, nofun, nofun, hl⟩, hu, hb cs r rest hu⟩
  | cons op ops ih =>
      intro cs rest r ls hu hl
      obtain ⟨hop, hd⟩ := List.nodup_cons.mp hd
      obtain ⟨before, after, rest', run, read, shorter⟩ := ih hd hu hl
      obtain ⟨before', after', rest'', run', first, shorter', read'⟩ :=
        linksWithin_ok (ih hd) hop (Nat.lt_succ_self rest'.length) run.linked run.outside
      have apart : ∀ l ∈ before, l.1 ≠ op := fun l hl e => hop (e ▸ run.inside l hl)
      refine ⟨before ++ before', after', rest'', run.append run', ?_, by omega⟩
      rw [assemble_cons, splitAt_append apart, first, List.append_nil]
      exact chain_ok read read'

end

/-! ### Texts -/

/-- The whole text is an operand without comments, and is read as the rule. -/
structure Spells (text : String) (r : Rule) : Prop where
  reads : ∃ rest, unary (textNestingLimit - 1) text.toList = .ok r rest ∧ skipTrivia rest = []
  bare : comments text.toList = []

/-- An operand of a chain behind the first one, as it is written: a keyword in any letter case, then
the operand. -/
structure Link where
  word : String
  op : Connective
  text : String
  rule : Rule
  keyword : Connective.ofKeyword? word.toList = some op
  binary : op ≠ .not
  spells : Spells text rule

/-- The links of a chain, each part behind a space. -/
def linksText : List Link → String
  | [] => ""
  | l :: ls => " " ++ l.word ++ " " ++ l.text ++ linksText ls

/-- What the links of a chain say. -/
def Link.meaning (l : Link) : Connective × Rule := (l.op, l.rule)

theorem linksText_cons (l : Link) (ls : List Link) : (linksText (l :: ls)).toList =
    ' ' :: (l.word.toList ++ ' ' :: (l.text.toList ++ (linksText ls).toList)) := by
  simp [linksText]

theorem breaks_linksText (ls : List Link) : Lint.Breaks (linksText ls).toList := by
  cases ls with
  | nil => exact nofun
  | cons l ls =>
      rw [linksText_cons]
      rintro c ⟨⟩
      decide

section

variable {text : String} {r : Rule} {more : List Char}

theorem Spells.continues (h : Spells text r) : Continues more text.toList :=
  .inr (.inl (congrArg (List.map Comment.text) h.bare))

theorem Spells.closes (h : Spells text r) : Lint.Closes 0 text.toList := by
  obtain ⟨rest, hr, he⟩ := h.reads
  exact closes_of_unary hr he

/-- An operand adds no records to what follows. -/
theorem Spells.recordTexts (h : Spells text r) :
    recordTexts (text.toList ++ more) = recordTexts more := by
  have none : Dsl.recordTexts text.toList = [] := by rw [← filterMap_record?, h.bare]; rfl
  rw [(padded_append h.closes h.continues).recordTexts h.closes, none, List.nil_append]

end

theorem Linked.congr {unary : Grammar Rule} {stop cs ds : List Char} {ls : Links}
    (h : Linked unary stop cs ls) (e : skipTrivia ds = skipTrivia cs) :
    Linked unary stop ds ls := by
  cases h with
  | done hs hp => exact .done (e.trans hs) hp
  | link hk hu t => exact .link (e ▸ hk) hu t

theorem linked_linksText (ls : List Link) :
    Linked (unary (textNestingLimit - 1)) [] (linksText ls).toList (ls.map Link.meaning) := by
  induction ls with
  | nil => exact .done rfl (plain_of_ends Text.startsOutside_nil)
  | cons l ls ih =>
      obtain ⟨rest, hr, he⟩ := l.spells.reads
      obtain ⟨rest', hu, hs⟩ :=
        unary_append hr he l.spells.continues (breaks_linksText ls)
      have space : Ends (' ' :: (l.text.toList ++ (linksText ls).toList)) :=
        Text.startsOutside_cons (by decide)
      have key : keyword l.op (skipTrivia (linksText (l :: ls)).toList) =
          .ok () (' ' :: (l.text.toList ++ (linksText ls).toList)) := by
        rw [linksText_cons, skipTrivia_space, skipTrivia_ofKeyword? _ l.keyword,
          keyword_ok l.keyword space]
      refine .link key ?_ (ih.congr hs)
      rw [unary_eq, operandWith_space, ← unary_eq, hu]

theorem recordTexts_linksText (ls : List Link) : recordTexts (linksText ls).toList = [] := by
  induction ls with
  | nil => rfl
  | cons l ls ih =>
      have name : isName l.word = true := isName_of_ofKeyword? l.keyword
      rw [linksText_cons, recordTexts_of_ne (by decide) (by decide), (Scans.name name).recordTexts,
        recordTexts_of_ne (by decide) (by decide), l.spells.recordTexts, ih]

theorem mem_looseness {op : Connective} (h : op ≠ .not) : op ∈ looseness := by
  cases op with
  | not => exact absurd rfl h
  | _ => decide

/-- **Operands with connectives between them are split at the loosest connective**, then each part
at the loosest one that is left in it, down to single operands.  The operands are read with as many
levels as there are in a text, which is what they have in a chain. -/
theorem parse_links {text : String} {first : Rule} (h : Spells text first) (ls : List Link) :
    parse (text ++ linksText ls) =
      .ok (some (assemble looseness first (ls.map Link.meaning))) := by
  obtain ⟨rest, hr, he⟩ := h.reads
  obtain ⟨mid, hu, hs⟩ := unary_append hr he h.continues (breaks_linksText ls)
  have ne : skipTrivia (text.toList ++ (linksText ls).toList) ≠ [] := skipTrivia_ne_of_unary hu
  rw [← unary_skipTrivia] at hu
  obtain ⟨before, after, rest', run, read, -⟩ :=
    levels_ok (bounded_of_keeps fun text => keeps_unary _ 0) (show looseness.Nodup by decide) hu
      ((linked_linksText ls).congr hs)
  have inside : ∀ l ∈ ls.map Link.meaning, l.1 ∈ looseness := by
    intro l hl
    obtain ⟨link, -, rfl⟩ := List.mem_map.mp hl
    exact mem_looseness link.binary
  obtain ⟨rfl, all⟩ := run.whole inside
  have bare : recordTexts (text ++ linksText ls).toList = [] := by
    rw [String.toList_append, h.recordTexts, recordTexts_linksText]
  refine (parse_eq_some_iff bare).mpr (document_eq_some_iff.mpr ?_)
  rw [String.toList_append, topExpression_skipTrivia]
  exact ⟨ne, rest', read, all⟩

/-- Keywords in any letters, one of each of three connectives among them, and a negation. -/
theorem parse_links_mixed :
    let call (name : String) := Rule.atom (.call name [⟨.string "a", .fieldReference⟩]) none
    parse "f(a) or g(a) AND NOT h(a) XoR i(a) or j(a)" =
      .ok (some (.group .or [call "f", .group .xor [.group .and [call "g",
        .group .not [call "h"]], call "i"], call "j"])) := by
  intro call
  have first : Spells "f(a)" (call "f") := ⟨⟨[], rfl, rfl⟩, rfl⟩
  exact parse_links first
    [⟨"or", .or, "g(a)", call "g", rfl, nofun, ⟨⟨[], rfl, rfl⟩, rfl⟩⟩,
      ⟨"AND", .and, "NOT h(a)", .group .not [call "h"], rfl, nofun, ⟨⟨[], rfl, rfl⟩, rfl⟩⟩,
      ⟨"XoR", .xor, "i(a)", call "i", rfl, nofun, ⟨⟨[], rfl, rfl⟩, rfl⟩⟩,
      ⟨"or", .or, "j(a)", call "j", rfl, nofun, ⟨⟨[], rfl, rfl⟩, rfl⟩⟩]

end Rulebook.Dsl
