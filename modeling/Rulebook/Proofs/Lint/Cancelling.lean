import Rulebook.Proofs.Dsl.Documents
import Rulebook.Proofs.Lint.Groups
import Rulebook.Proofs.Rule.Cancel

/-!
# Rulebook — Proofs — Lint — Cancelling

The fixes of double negations.  Two tokens `NOT` in a row are taken away, with what stands between
them and behind the second one.

Right behind an opening parenthesis the first `NOT` is the head of a group with several members if a
comma follows, and a keyword behind the pair is the head of a group once the pair is gone, so that
the text may be refused without it, or be another rule.  Everywhere else both are negations of the
operand behind them, and the fixed text is read as the rule without these two (`parse_cancelled`).
Records between the two go with them.  The others are as they were, so that those of the negations,
and of what is below them, have paths that lead elsewhere or nowhere.
-/

namespace Rulebook.Lint

open Dsl (Bridge Fits Chained Headless Lexeme Negates StartsOperand levelBelow recordTexts setRecord)

/-! ### A pair that is missing -/

/-- No word stands for another one. -/
theorem keyword_of_none {w w' : List Char} (h : False) :
    ∃ op, Connective.ofKeyword? w = some op ∧ Connective.ofKeyword? w' = some op := h.elim

/-- A pair of `NOT` of the first text is missing from the second one. -/
def unpaired (ends : Bool → Prop) : Bridge where
  respells _ _ := False
  same_keyword := @keyword_of_none
  gated := True
  ends := ends
  tail := []

/-- The rules are the same, or the second one is the first one without two negations, which the gate
was in front of. -/
def PassesCancelled (i j : Bool) (r q : Rule) : Prop :=
  (i = j ∧ r = q) ∨ (i = false ∧ j = true ∧ ∃ path, r.cancelAt path = some q)

/-- Of several rules at most one is without two negations. -/
theorem chained_cancelled {i j : Bool} {rs qs : List Rule} (h : Chained PassesCancelled i j rs qs) :
    (i = j ∧ rs = qs) ∨ (i = false ∧ j = true ∧
      ∃ k path, Rule.updateAt (Rule.cancelAt path) rs k = some qs) := by
  induction h with
  | nil => exact .inl ⟨rfl, rfl⟩
  | @cons i j k r q rs qs h t ih =>
      obtain ⟨rfl, rfl⟩ | ⟨rfl, rfl, path, hp⟩ := h
      · obtain ⟨rfl, rfl⟩ | ⟨rfl, rfl, place, path, hp⟩ := ih
        · exact .inl ⟨rfl, rfl⟩
        · exact .inr ⟨rfl, rfl, place + 1, path, by rw [Rule.updateAt, hp]; rfl⟩
      · obtain ⟨rfl, rfl⟩ | ⟨e, -⟩ := ih
        · exact .inr ⟨rfl, rfl, 0, path, by rw [Rule.updateAt, hp]; rfl⟩
        · cases e

variable {ends : Bool → Prop}

/-- Taking a pair away changes no name. -/
theorem names_unpaired {s t : String} (h : (unpaired ends).Names s t) : t = s :=
  (h.resolve_right nofun).symm

/-- What the grammar builds goes along with taking a pair away. -/
theorem fits_cancelled : Fits (unpaired ends) PassesCancelled where
  atom h := .inl ⟨rfl, by rw [h.eq fun _ _ _ => names_unpaired]⟩
  scope h hp := by
    rw [h.eq fun _ _ _ => names_unpaired]
    obtain ⟨rfl, rfl⟩ | ⟨rfl, rfl, path, hp⟩ := hp
    · exact .inl ⟨rfl, rfl⟩
    · exact .inr ⟨rfl, rfl, 0 :: path, Rule.cancelAt_scope hp _ none⟩
  junction hs := by
    obtain ⟨rfl, rfl⟩ | ⟨rfl, rfl, k, path, hp⟩ := chained_cancelled hs
    · exact .inl ⟨rfl, rfl⟩
    · exact .inr ⟨rfl, rfl, k :: path, Rule.cancelAt_junction hp _ none⟩
  cancel _ hp := by
    obtain ⟨rfl, rfl⟩ | ⟨e, -⟩ := hp
    · exact .inr ⟨rfl, rfl, [], Rule.cancelAt_nil _⟩
    · cases e

/-- The relation of all rules. -/
theorem fits_any {B : Bridge} : Fits B fun _ _ _ _ => True where
  atom _ := trivial
  scope _ _ := trivial
  junction _ := trivial
  cancel _ _ := trivial

/-! ### Behind an opening parenthesis -/

/-- Whether a pair of `NOT` right behind an opening parenthesis, in front of these tokens, may be
something else than two negations: a comma follows in the parentheses, so that the first `NOT` is
the head of a group with several members, or a keyword comes next, which the pair keeps from being
the head of a group. -/
def headsGroup (later : List Token) : Bool :=
  atTop (fun t => t.kind = .comma) 0 (groupBody 0 later) ||
    (later.head?.bind Token.connective?).isSome

variable {cs a mid b : List Char} {m : Nat} {r : Rule} {later : List Token}

/-- **Where no comma follows in the parentheses, a group that starts with `NOT` is an expression**:
the tokens that are consumed up to the comma behind a member are those of a rule, whose own commas
are in parentheses. -/
theorem Laid.expression_of_group (h : Laid mid later)
    (hc : atTop (fun t => t.kind = .comma) 0 (groupBody 0 later) = false) (first : Negates cs mid)
    (hm : StartsOperand mid) {k : Nat} {rest : List Char}
    (hg : Dsl.group (levelBelow k) (levelBelow (k - 1)) cs = .ok r rest) :
    Dsl.expression (levelBelow k) cs = .ok r rest := by
  refine (Dsl.group_negates first hm.ne_closing hg).resolve_right ?_
  rintro ⟨m, x, t, q, u, after, hx, hq, comma⟩
  obtain ⟨us, more, rfl, laid, operand⟩ := (consumes_unary m).taken h hx
  obtain ⟨vs, more, rfl, laid, around⟩ :=
    (consumes_expressionFrom (consumes_unary (m + 1)) operand.around).taken laid hq
  obtain ⟨_, last, rfl, -, ⟨separator⟩⟩ :=
    (consumes_spaced (D := Dsl.Never) (by decide)).taken laid comma
  have nested := around.1.nested
  have separator : _ = TokenKind.comma := separator
  rw [← List.append_assoc, nested.groupBody_append, List.singleton_append,
    groupBody_plain (by simp [separator]),
    nested.atTop_append fun t ht => decide_eq_false (of_decide_eq_true ht),
    atTop_plain (by simp [separator]), separator] at hc
  cases hc

theorem atTop_groupBody_word {u : Token} (h : u.kind = .word) :
    atTop (fun t => t.kind = .comma) 0 (groupBody 0 (u :: later)) =
      atTop (fun t => t.kind = .comma) 0 (groupBody 0 later) := by
  rw [groupBody_plain (by simp [h]), atTop_plain (by simp [h]), h]
  rfl

/-- Where the first token is no keyword, none is read. -/
theorem plain_of_connective? {l : Lexeme} {offset : Nat} (hs : l.Stands b)
    (h : (tokenOf l offset).connective? = none) : Dsl.Plain (l.text ++ b) := by
  cases hl : l.isWord with
  | true =>
      cases l with
      | word w =>
          have name : ∀ c ∈ w, Text.isNamePart c = true := fun c hc =>
            Dsl.isNamePart_of_isName hs.1 c hc
          rw [Lexeme.text, Dsl.Plain, Dsl.headWord_append name hs.2]
          exact h
      | _ => cases hl
  | false =>
      obtain ⟨c, t, e, hc⟩ := hs.exists_cons
      rw [e]
      exact Dsl.plain_of_start (Lexeme.isNameStart_of_starts hl hc)

/-! ### The pair in a text -/

/-- **Two negations that are no heads of groups have an operand.** -/
theorem startsOperand_of_document {before : List Char} {last : Bool}
    (h : Precedes false 0 before last m a) (hr : Resembles a [])
    (hl : last = true → Headless a []) (first : Negates a mid) (second : Negates mid b)
    (hd : Dsl.document (before ++ a) = .ok (some r) []) : StartsOperand b := by
  by_contra hb
  -- otherwise whatever is behind the pair is never read, and no text ends in front of it
  have aligned : (unpaired fun _ => False).Aligned false false 0 (before ++ a) (before ++ []) :=
    h.aligned hr (.gate trivial hl first second fun operand => absurd operand hb)
  obtain ⟨_, _, -, -, ended⟩ := Dsl.document_of_aligned fits_any rfl aligned hd
  exact ended

/-- A text with two tokens `NOT` in a row, which stand behind `before`, be it right behind an
opening parenthesis (`last`), and in front of `b`. -/
structure Pair (text : List Char) (start : Nat) (later : List Token) (last : Bool)
    (before gone b : List Char) : Prop where
  whole : text = before ++ (gone ++ b)
  start : start = Text.width before
  word : ∃ c t, gone = c :: t ∧ Text.isNameStart c = true
  negates : ∃ mid, Negates (gone ++ b) mid ∧ Negates mid b
  precedes : ∃ m, Precedes false 0 before last m (gone ++ b) ∧
    Tokenized m (Text.width (before ++ gone)) b later
  headless : headsGroup later = false →
    ∀ ds, Dsl.Plain (Dsl.skipTrivia ds) → Headless (gone ++ b) ds
  records : ∃ found, recordTexts (gone ++ b) = found ++ recordTexts b

/-- Two tokens `NOT` in a row are a pair in the text; a pair right behind an opening parenthesis has
that token in front of it. -/
theorem Tokenized.exists_pair {front later : List Token} {t u : Token}
    (h : Tokenized 0 0 cs (front ++ t :: u :: later)) (ht : t.connective? = some .not)
    (hu : u.connective? = some .not) :
    ∃ last before gone b, Pair cs t.start later last before gone b ∧
      (last = true → ∃ v ∈ front.getLast?, v.kind = .opening) := by
  have commas : _ = _ := @atTop_groupBody_word later u (kind_of_connective? hu)
  obtain ⟨before, l, rest, last, m, k, rfl, precedes, opening, rfl, hs, hn, behind⟩ :=
    @Tokenized.exists_precedes _ _ false _ _ _ _ h
  obtain ⟨gap, l', b, k', rfl, rfl, hs', hn', behind', skipped⟩ := behind.exists_lexeme
  obtain ⟨w, rfl, hw⟩ := exists_word_of_connective? ht
  obtain ⟨w', rfl, hw'⟩ := exists_word_of_connective? hu
  obtain rfl : m = k := hn
  obtain rfl : m = k' := hn'
  obtain ⟨c, v, rfl, hc⟩ := Dsl.exists_cons_of_ofKeyword? hw
  simp only [Lexeme.text] at precedes hs hs' behind' skipped ⊢
  obtain ⟨found, hf⟩ := skipped.records
  have gone : (c :: v) ++ (gap ++ (w' ++ b)) = ((c :: v) ++ (gap ++ w')) ++ b := by simp
  have first : Negates ((c :: v) ++ (gap ++ (w' ++ b))) (gap ++ (w' ++ b)) :=
    ⟨c :: v, hs.skipTrivia, hw, hs.2⟩
  have second : Negates (gap ++ (w' ++ b)) b :=
    ⟨w', (skipped.skips _ (.refl _)).trans hs'.skipTrivia, hw', hs'.2⟩
  refine ⟨last, before, (c :: v) ++ (gap ++ w'), b, ⟨by rw [gone], Nat.zero_add _, ⟨c, _, rfl, hc⟩,
    ⟨_, gone ▸ first, second⟩, ⟨m, gone ▸ precedes, ?_⟩, fun hl ds plain => ⟨fun hg => ?_, plain⟩,
    found, ?_⟩, fun e => (opening e).resolve_left fun inside => Bool.false_ne_true inside.2⟩
  · rwa [Nat.zero_add, ← Text.width_append, List.append_assoc] at behind'
  · obtain ⟨comma, -⟩ := Bool.or_eq_false_iff.mp hl
    rw [← gone] at hg ⊢
    exact Laid.expression_of_group ⟨_, _, behind⟩ (commas.trans comma) first second.startsOperand hg
  · rw [← gone]
    exact (hs.scans.recordTexts _).trans ((hf _ (.refl _)).trans
      (congrArg (found ++ ·) (hs'.scans.recordTexts b)))

/-! ### The finding -/

/-- What is said about two negations is said by the check of keywords. -/
theorem mem_checkKeywords_of_lint {s : Settings} {schema : Option Schema} {text : String}
    {f : Finding} (hf : f ∈ lint s schema text) (hc : f.check = .doubleNegation) :
    f ∈ checkKeywords text.toList none (tokens text.toList) := by
  have found : f ∈ (lint s schema text).filter fun f => f.check = .doubleNegation :=
    List.mem_filter.mpr ⟨hf, decide_eq_true hc⟩
  rw [(perm_lint_filter text .doubleNegation).mem_iff, filter_findings (by decide),
    filter_from (from_checkLines _ _ _ _) (by decide), List.append_nil] at found
  split at found
  · exact (List.mem_filter.mp found).1
  · cases found

/-- A negation is found in front of another one, and both are taken away up to the token behind
them. -/
theorem exists_of_mem_checkNegation {text : List Char} {previous : Option Token} {t : Token}
    {op : Connective} {ts : List Token} {f : Finding}
    (hf : f ∈ checkNegation text previous t op ts) : op = .not ∧ ∃ u later, ts = u :: later ∧
      u.connective? = some .not ∧ ∃ stop, (∀ v ∈ later.head?, stop = v.start) ∧
        f.fix = some ⟨"remove both NOT", ⟨t.start, stop, ""⟩⟩ := by
  rw [checkNegation] at hf
  split at hf
  · rename_i pair
    simp only [Bool.and_eq_true, decide_eq_true_eq] at pair
    obtain ⟨⟨rfl, -⟩, next⟩ := pair
    obtain rfl := List.mem_singleton.mp hf
    cases ts with
    | nil => cases next
    | cons u later =>
        refine ⟨rfl, u, later, rfl, next, _, fun v hv => ?_, rfl⟩
        rw [List.tail_cons, Option.mem_def.mp hv]
  · cases hf

/-- What is found is a pair of tokens `NOT` in a row. -/
theorem exists_pair_of_mem {text : List Char} {previous : Option Token} {ts : List Token}
    {f : Finding} (hf : f ∈ checkKeywords text previous ts) (hc : f.check = .doubleNegation) :
    ∃ front t u later, ts = front ++ t :: u :: later ∧ t.connective? = some .not ∧
      u.connective? = some .not ∧ ∃ stop, (∀ v ∈ later.head?, stop = v.start) ∧
        f.fix = some ⟨"remove both NOT", ⟨t.start, stop, ""⟩⟩ := by
  induction ts generalizing previous with
  | nil => cases hf
  | cons t ts ih =>
      rw [checkKeywords] at hf
      obtain here | later := List.mem_append.mp hf
      · split at here
        · cases here
        · rename_i op hop
          split at here
          · cases here
          · obtain case | negation := List.mem_append.mp here
            · have other := (from_checkCase t op f case).check
              rw [hc] at other
              exact absurd other (by decide)
            · obtain ⟨rfl, u, later, rfl, hu, stop⟩ := exists_of_mem_checkNegation negation
              exact ⟨[], t, u, later, rfl, hop, hu, stop⟩
      · obtain ⟨front, t', u, after, rfl, ht, hu, stop⟩ := ih later
        exact ⟨t :: front, t', u, after, rfl, ht, hu, stop⟩

/-! ### The fixed text -/

/-- Without the pair the text is read without the two negations. -/
theorem Pair.document {text : List Char} {start : Nat} {last : Bool} {before gone b : List Char}
    (h : Pair text start later last before gone b) (hl : last = true → headsGroup later = false)
    (hd : Dsl.document text = .ok (some r) []) :
    ∃ t more gap behind, later = t :: more ∧ b = gap ++ behind ∧
      t.start = Text.width (before ++ (gone ++ gap)) ∧
      (∃ q path, Dsl.document (before ++ behind) = .ok (some q) [] ∧ r.cancelAt path = some q) ∧
      (recordTexts (before ++ behind)).Sublist (recordTexts text) := by
  obtain ⟨rfl, -, ⟨c, w, rfl, hc⟩, ⟨mid, first, second⟩, ⟨m, precedes, tokens⟩, headless, found,
    hf⟩ := h
  have operand : StartsOperand b := by
    refine startsOperand_of_document precedes (.of_isNameStart hc nofun) (fun e => ?_) first second hd
    exact headless (hl e) [] (Dsl.plain_of_ends Text.startsOutside_nil)
  cases later with
  | nil =>
      obtain ⟨d, u, e, -⟩ := operand
      rw [tokens.skipTrivia_eq_nil] at e
      cases e
  | cons t more =>
      obtain ⟨gap, l, rest, k, rfl, rfl, hs, -, -, skipped⟩ := tokens.exists_lexeme
      have skips := (skipped.skips _ (.refl _)).trans hs.skipTrivia
      have resembles : Resembles ((c :: w) ++ (gap ++ (l.text ++ rest))) (l.text ++ rest) := by
        obtain ⟨d, u, e, hd⟩ := operand
        rw [← skips, e]
        exact .of_isNameStart hc fun _ e => Option.some.inj e ▸ hd
      have behind : (unpaired (· = true)).Aligned false true m (gap ++ (l.text ++ rest))
          (l.text ++ rest) :=
        (tokens.aligned rfl rfl).congr rfl (hs.skipTrivia.trans skips.symm)
      have alone (e : last = true) :
          Headless ((c :: w) ++ (gap ++ (l.text ++ rest))) (l.text ++ rest) := by
        obtain ⟨-, keyword⟩ := Bool.or_eq_false_iff.mp (hl e)
        refine headless (hl e) _ ?_
        rw [hs.skipTrivia]
        exact plain_of_connective? hs (by simpa using keyword)
      have aligned := precedes.aligned resembles (.gate trivial alone first second fun _ => behind)
      obtain ⟨q, j, hq, cancelled, rfl⟩ := Dsl.document_of_aligned fits_cancelled rfl aligned hd
      obtain ⟨found', hf'⟩ := precedes.records
      obtain ⟨between, hb⟩ := skipped.records
      refine ⟨_, more, gap, l.text ++ rest, rfl, rfl, ?_, ?_, ?_⟩
      · rw [tokenOf, ← Text.width_append, List.append_assoc]
      · obtain ⟨e, -⟩ | ⟨-, -, path, hp⟩ := cancelled
        · cases e
        · exact ⟨q, path, hq, hp⟩
      · rw [hf' _ resembles, hf' _ (.refl _), hf, hb _ (.refl _)]
        refine List.Sublist.append_left ?_ found'
        exact (List.sublist_append_right _ _).trans (List.sublist_append_right _ _)

/-- Making the pair's edit takes the pair out of the text. -/
theorem Pair.splices {text : List Char} {start : Nat} {last : Bool}
    {before gone gap behind : List Char}
    (h : Pair text start later last before gone (gap ++ behind)) :
    Splices 0 text [⟨start, Text.width (before ++ (gone ++ gap)), ""⟩] (before ++ behind) := by
  obtain ⟨rfl, rfl, ⟨c, w, rfl, -⟩, -⟩ := h
  rw [Text.width_append, ← List.append_assoc (c :: w)]
  have whole := (Splices.edit (List.cons_ne_nil c (w ++ gap)) .done :
    Splices (0 + Text.width before) ((c :: w ++ gap) ++ behind) _ ("".toList ++ behind)).keep
  rwa [Nat.zero_add] at whole

/-- Records that are left stay on their rules. -/
theorem read_cancelled {ds : List Char} {o : Option Rule} {q q' : Rule} {path : List Nat}
    (h : Dsl.read cs = .ok o) (hq : Dsl.readStructure cs = .ok (some q))
    (hd : Dsl.readStructure ds = .ok (some q')) (hc : q.cancelAt path = some q')
    (hs : (recordTexts ds).Sublist (recordTexts cs))
    (hp : ∀ body ∈ recordTexts ds, ∀ record ∈ Dsl.PathRecord.read? body, ¬ path <+: record.path) :
    ∃ r r', (recordTexts ds).foldlM setRecord q = some r ∧
      (recordTexts ds = recordTexts cs → o = some r) ∧ Dsl.read ds = .ok (some r') ∧
      r.cancelAt path = some r' := by
  cases o with
  | none =>
      rw [Dsl.read_eq_ok_none_iff, hq] at h
      cases h
  | some r₀ =>
      obtain ⟨p, hr, h₀⟩ := Dsl.read_eq_ok_some_iff.mp h
      obtain rfl : q = p := by
        rw [hq] at hr
        cases hr
        rfl
      have stays : ∀ body ∈ recordTexts ds, ∀ r q r', r.cancelAt path = some q →
          setRecord r body = some r' →
            ∃ q', setRecord q body = some q' ∧ r'.cancelAt path = some q' := by
        intro body hb r q r' hr hs
        obtain ⟨record, here, ha⟩ := Option.bind_eq_some_iff.mp hs
        obtain ⟨q', hq, hr'⟩ := Rule.cancelAt_annotate (hp body hb record here) hr ha
        exact ⟨q', by rw [setRecord, here]; exact hq, hr'⟩
      obtain ⟨r, hr⟩ := Dsl.exists_foldlM_setRecord hs rfl h₀
      obtain ⟨r', hr', cancelled⟩ := Dsl.foldlM_setRecord stays hc hr
      refine ⟨r, r', hr, fun same => ?_, Dsl.read_eq_ok_some_iff.mpr ⟨q', hd, hr'⟩, cancelled⟩
      rw [← h₀, ← same, hr]

/-- The tokens in front of one of a text's tokens, and those from it on. -/
theorem Tokenized.cut_start {n offset : Nat} {front : List Token} {t : Token}
    (h : Tokenized n offset cs (front ++ t :: later)) :
    (front ++ t :: later).takeWhile (fun u => u.start < t.start) = front ∧
      (front ++ t :: later).dropWhile (fun u => u.start < t.start) = t :: later := by
  obtain ⟨-, -, before⟩ := List.pairwise_append.mp h.ordered.2
  have first (u : Token) (hu : u ∈ front) : decide (u.start < t.start) = true :=
    decide_eq_true (before u hu t List.mem_cons_self)
  rw [List.takeWhile_append_of_pos first, List.dropWhile_append_of_pos first,
    List.takeWhile_cons_of_neg (by simp), List.dropWhile_cons_of_neg (by simp), List.append_nil]
  exact ⟨rfl, rfl⟩

/-- **Two negations cancel out**, unless the first one stands right behind an opening parenthesis
and is the head of a group with several members, or has a keyword behind the second one: the text is
read without them, as the linter proposes.  Records between the two are gone, and the others stay
where they are unless they belong to one of the negations or to what is below them. -/
theorem parse_cancelled {text : String} {o : Option Rule} (h : Dsl.parse text = .ok o) (s : Settings)
    (schema : Option Schema) {f : Finding} (hf : f ∈ lint s schema text)
    (hc : f.check = .doubleNegation)
    (hp : ∀ fix ∈ f.fix, ∀ t ∈ ((tokens text.toList).takeWhile
      fun t => t.start < fix.edit.start).getLast?, t.kind = .opening →
        headsGroup ((tokens text.toList).dropWhile fun t => t.start < fix.edit.stop) = false) :
    let fixed := applyFixes text [f]
    ∃ q q' path, Dsl.readStructure text.toList = .ok (some q) ∧
      Dsl.readStructure fixed.toList = .ok (some q') ∧ q.cancelAt path = some q' ∧
      (recordTexts fixed.toList).Sublist (recordTexts text.toList) ∧
      ((∀ body ∈ recordTexts fixed.toList, ∀ record ∈ Dsl.PathRecord.read? body,
          ¬ path <+: record.path) →
        ∃ r r', (recordTexts fixed.toList).foldlM setRecord q = some r ∧
          (recordTexts fixed.toList = recordTexts text.toList → o = some r) ∧
          Dsl.parse fixed = .ok (some r') ∧ r.cancelAt path = some r') := by
  intro fixed
  obtain ⟨front, t, u, later, e, ht, hu, stop, hstop, hfix⟩ :=
    exists_pair_of_mem (mem_checkKeywords_of_lint hf hc) hc
  obtain ⟨o', hq⟩ := Dsl.exists_readStructure h
  have tokenized := tokenized_of_readStructure hq
  have inside := hp _ hfix
  rw [e] at tokenized inside
  dsimp only at inside
  rw [tokenized.cut_start.1] at inside
  obtain ⟨last, before, gone, b, pair, opening⟩ := tokenized.exists_pair ht hu
  have alone (e : last = true) : headsGroup later = false := by
    obtain ⟨v, hv, hk⟩ := opening e
    have none := inside v hv hk
    cases later with
    | nil => rfl
    | cons next more =>
        have regroup : front ++ t :: u :: next :: more = (front ++ [t, u]) ++ next :: more := by
          simp
        rw [regroup] at tokenized none
        rwa [hstop next rfl, tokenized.cut_start.2] at none
  have document := Dsl.readStructure_eq_ok_iff.mp hq
  cases o' with
  | none =>
      have nothing := tokenized.eq_nil_of_skipTrivia (Dsl.document_eq_none_iff.mp document)
      simp at nothing
  | some q =>
      obtain ⟨v, more, gap, behind, rfl, rfl, hv, ⟨q', path, hd, cancelled⟩, sublist⟩ :=
        pair.document alone document
      have edits : [f].filterMap (fun f => f.fix.map Fix.edit) =
          [⟨t.start, Text.width (before ++ (gone ++ gap)), ""⟩] := by simp [hfix, hstop v rfl, hv]
      have made : fixed.toList = before ++ behind :=
        (congrArg String.toList (applyFixes_of_splices (.of_eq edits) pair.splices)).trans
          String.toList_ofList
      have read := Dsl.readStructure_eq_ok_iff.mpr hd
      rw [Dsl.parse, made]
      exact ⟨q, q', path, hq, read, cancelled, sublist, read_cancelled h hq read cancelled sublist⟩

/-- The operand of the pair may be in parentheses, and a comment may stand between the two.  The
record behind them stays on the first member of the rule. -/
theorem parse_cancelled_parentheses :
    let text := "f(a) AND NOT # x\n not (g(b) OR h(c)) # @meta \x7b\"path\":[0]\x7d"
    let f := Finding.of .doubleNegation ⟨1, 10⟩ "double negation cancels out"
      (some ⟨"remove both NOT", ⟨9, 22, ""⟩⟩)
    f ∈ lint .standard none text ∧
      applyFixes text [f] = "f(a) AND (g(b) OR h(c)) # @meta \x7b\"path\":[0]\x7d" ∧
      ∃ r r' path, Dsl.parse text = .ok (some r) ∧ Dsl.parse (applyFixes text [f]) = .ok (some r') ∧
        r.cancelAt path = some r' := by
  intro text f
  let call (name arg : String) (note : Option Metadata) : Rule :=
    .atom (.call name [⟨.string arg, .fieldReference⟩]) note
  let rule (note : Option Metadata) : Rule :=
    .group .and [call "f" "a" note,
      .group .not [.group .not [.group .or [call "g" "b" none, call "h" "c" none]]]]
  have body : Dsl.PathRecord.read? "\x7b\"path\":[0]\x7d".toList =
      some ⟨[0], ⟨none, none, none⟩⟩ := by decide +kernel
  have whole : Dsl.readStructure
      "f(a) AND NOT # x\n not (g(b) OR h(c)) # @meta \x7b\"path\":[0]\x7d".toList =
        .ok (some (rule none)) := rfl
  have records : recordTexts
      "f(a) AND NOT # x\n not (g(b) OR h(c)) # @meta \x7b\"path\":[0]\x7d".toList =
        ["\x7b\"path\":[0]\x7d".toList] := rfl
  have left : recordTexts "f(a) AND (g(b) OR h(c)) # @meta \x7b\"path\":[0]\x7d".toList =
      ["\x7b\"path\":[0]\x7d".toList] := rfl
  have read : Dsl.parse text = .ok (some (rule (some ⟨none, none, none⟩))) := by
    refine Dsl.read_eq_ok_some_iff.mpr ⟨_, whole, ?_⟩
    rw [records, List.foldlM_cons, setRecord, body]
    rfl
  have found : f ∈ lint .standard none text := by decide +kernel
  have fixed : applyFixes text [f] = "f(a) AND (g(b) OR h(c)) # @meta \x7b\"path\":[0]\x7d" := by
    decide +kernel
  obtain ⟨q, q', path, hq, -, hc, -, stay⟩ := parse_cancelled read .standard none found rfl
    (by decide +kernel)
  obtain rfl : rule none = q := by simpa using whole.symm.trans hq
  -- neither the rule nor its first member is negated
  have stays : ¬ path <+: [0] := by
    intro h
    obtain rfl | ⟨rest, rfl, below⟩ := List.prefix_cons_iff.mp h
    · cases hc
    · obtain rfl := List.prefix_nil.mp below
      cases hc
  rw [fixed, left] at stay
  obtain ⟨r, r', -, same, fixed_read, cancelled⟩ := stay fun t ht record here => by
    obtain rfl := List.mem_singleton.mp ht
    obtain rfl := Option.some.inj (body.symm.trans here)
    exact stays
  obtain rfl := Option.some.inj (same records.symm)
  exact ⟨found, fixed, _, r', path, read, fixed ▸ fixed_read, cancelled⟩

/-- Behind an opening parenthesis the pair is one of two negations if nothing else is in the group.
-/
example :
    let text := "(NOT NOT a == true)"
    ∃ f ∈ lint .standard none text, f.check = .doubleNegation ∧
      applyFixes text [f] = "(a == true)" ∧ (Dsl.parse (applyFixes text [f])).isOk = true := by
  decide +kernel

/-- Behind an opening parenthesis the first `NOT` may be the head of a group with several members.
-/
theorem parse_cancelled_group :
    let text := "(NOT NOT a == true, b == true)"
    (Dsl.parse text).isOk = true ∧ ∃ f ∈ lint .standard none text, f.check = .doubleNegation ∧
      (Dsl.parse (applyFixes text [f])).isOk = false := by
  decide +kernel

/-- A call whose name reads like a keyword would be the head of a group without the pair. -/
example :
    let text := "(NOT NOT or(\"x\"))"
    (Dsl.parse text).isOk = true ∧ ∃ f ∈ lint .standard none text, f.check = .doubleNegation ∧
      (Dsl.parse (applyFixes text [f])).isOk = false := by
  decide +kernel

end Rulebook.Lint
