import Rulebook.Proofs.Dsl.RoundTrip
import Rulebook.Proofs.Editor.Reload

/-!
# Rulebook — Proofs — Editor — Paragraphs

What an editor writes as rule text has one expression per root, with an empty line between them;
what it loads as rule text is one expression.  The two meet at a single root.

* `Dsl.readStructure_apart`: behind one rule the text of another one is refused, at its first
  character.
* `Transfer.rulesOf_paragraphs_single`, `Transfer.rulesOf_paragraphs_cons`: the text of a single
  rule is read as that rule, and the text of several rules is not read.
* `Editor.load_write_text`: the same of two editors.
-/

namespace Rulebook

/-! ### Expressions one after the other -/

namespace Dsl

variable {o : Layout} {r q : Rule}

/-- Where an expression ends in front of the end of the text, what is behind it is the error. -/
theorem readStructure_of_rest {cs t : List Char} {c : Char} {found : Option Rule}
    (h : document cs = .ok found (c :: t)) : readStructure cs =
      .error ⟨.syntaxError .bare (some c), Text.locate cs (offsetOf cs (c :: t))⟩ := by
  rw [readStructure, h]
  rfl

/-- **Nothing but blanks and comments may follow a rule.**  The rule behind an empty line starts
with no keyword that could go on with the first one, so the reader stops in front of it. -/
theorem readStructure_apart (hr : r.check = .ok ()) (legible : r.Legible)
    (levels : r.depth ≤ nestingLimit) (hq : q.check = .ok ()) (legible' : q.Legible)
    (cs : List Char) : ∃ c location,
      readStructure (o.render r ++ '\n' :: '\n' :: (o.render q ++ cs)) =
        .error ⟨.syntaxError .bare (some c), location⟩ := by
  obtain ⟨before, after, frame⟩ := exists_framed (o := o) hr
  obtain ⟨before', after', frame'⟩ := exists_framed (o := o) hq
  -- what is left behind the first rule and its comments is the second one without its own
  have rest : skipTrivia (after ++ '\n' :: '\n' :: (o.render q ++ cs)) =
      o.core [] 0 q ++ (o.inlineRecord [] 0 q.note ++ (after' ++ cs)) := by
    rw [frame.after_line, skipTrivia_lineFeed, frame'.text_eq, List.append_assoc,
      frame'.before_trivia, Layout.lay_eq, List.append_assoc, List.append_assoc,
      Layout.skipTrivia_core hq]
  have plain : Plain (skipTrivia (after ++ '\n' :: '\n' :: (o.render q ++ cs))) :=
    rest ▸ Layout.plain_core hq (legible'.keyword?_eq_none q.mem_preorder_self) [] 0 _
  have ends : Ends (after ++ '\n' :: '\n' :: (o.render q ++ cs)) := by
    cases after with
    | nil => exact Text.startsOutside_cons (by decide)
    | cons c after => exact Text.startsOutside_cons (frame.after_ends c rfl)
  have whole := document_yields_plain (o := o) hr legible.shallow levels frame.before_trivia
    ends plain
  obtain ⟨c, t, text, -⟩ := Layout.exists_core (o := o) hq [] 0
    (o.inlineRecord [] 0 q.note ++ (after' ++ cs))
  rw [legible.reread_eq, rest, text] at whole
  rw [frame.text_eq, List.append_assoc, List.append_assoc]
  exact ⟨c, _, readStructure_of_rest whole⟩

end Dsl

namespace Transfer

variable {layout : Layout}

/-- One text is one paragraph. -/
@[simp] theorem paragraphs_singleton (text : String) : paragraphs [text] = text :=
  String.intercalate_singleton

/-- There is an empty line between two paragraphs. -/
theorem toList_paragraphs_cons (text text' : String) (texts : List String) :
    (paragraphs (text :: text' :: texts)).toList =
      text.toList ++ '\n' :: '\n' :: (paragraphs (text' :: texts)).toList := by
  simp [paragraphs]

/-- The first text is at the front. -/
theorem exists_paragraphs (text : String) (texts : List String) :
    ∃ cs, (paragraphs (text :: texts)).toList = text.toList ++ cs := by
  cases texts with
  | nil => exact ⟨[], by rw [paragraphs_singleton, List.append_nil]⟩
  | cons text' texts => exact ⟨_, toList_paragraphs_cons text text' texts⟩

/-- The text of a rule in an export is what the printer writes. -/
theorem textOf_eq_ok_iff {r : Rule} {text : String} :
    textOf layout r = .ok text ↔ Dsl.print r layout = .ok text := by
  rw [textOf]
  cases Dsl.print r layout <;> simp

/-- A document is written as the paragraphs of its rules' texts. -/
theorem write_dsl_eq_ok_iff {d : Document} {text : String} : write d layout .dsl = .ok text ↔
    ∃ rules, rulesIn d = .ok rules ∧ ∃ texts,
      List.Forall₂ (fun r t => Dsl.print r layout = .ok t) rules texts ∧
        paragraphs texts = text := by
  rw [write, bind_eq_ok_iff]
  refine exists_congr fun rules => and_congr_right fun _ => ?_
  rw [bind_eq_ok_iff]
  simp only [mapM_eq_ok_iff, textOf_eq_ok_iff, pure_eq_ok_iff]

/-- What the texts of rules rely on to be read: no plain function is named like a keyword, payloads
nest no deeper than JSON is read, and members can be counted in words of 64 bits. -/
structure Legible (rules : List Rule) : Prop where
  atoms : ∀ r ∈ rules, r.Legible
  sizes : ∀ r ∈ rules, ∀ s ∈ r.preorder, s.children.length ≤ UInt64.size

/-- The text of one rule is read as that rule. -/
theorem rulesOf_paragraphs_single {r : Rule} {text : String}
    (written : Dsl.print r layout = .ok text) (records : layout.withRecords = true)
    (legible : Legible [r]) : rulesOf .dsl (paragraphs [text]) = .ok [r] := by
  have atoms := legible.atoms r List.mem_cons_self
  have read := Dsl.parse_print written (fun name args note h => atoms _ note h)
    (fun name payload note h => atoms _ note h) (legible.sizes r List.mem_cons_self)
  rw [if_pos records] at read
  rw [paragraphs, String.intercalate_singleton, rulesOf, rulesOfDsl, read]
  rfl

/-- The text of several rules is read as none, since the second one is in the way. -/
theorem rulesOf_paragraphs_cons {r q : Rule} {rules : List Rule} {texts : List String}
    (written : List.Forall₂ (fun r t => Dsl.print r layout = .ok t) (r :: q :: rules) texts)
    (legible : Legible (r :: q :: rules)) : ∃ c location,
      rulesOf .dsl (paragraphs texts) =
        .error (.parse ⟨.syntaxError .bare (some c), location⟩) := by
  obtain ⟨text, _, hr, more, rfl⟩ := List.forall₂_cons_left_iff.mp written
  obtain ⟨text', texts, hq, -, rfl⟩ := List.forall₂_cons_left_iff.mp more
  obtain ⟨levels, checked, rfl⟩ := Dsl.print_eq_ok_iff.mp hr
  obtain ⟨-, checked', rfl⟩ := Dsl.print_eq_ok_iff.mp hq
  obtain ⟨cs, behind⟩ := exists_paragraphs (String.ofList (layout.render q)) texts
  obtain ⟨c, location, stopped⟩ := Dsl.readStructure_apart (o := layout) checked
    (legible.atoms r (by simp)) levels checked' (legible.atoms q (by simp)) cs
  have refused : Dsl.parse (paragraphs (String.ofList (layout.render r) ::
      String.ofList (layout.render q) :: texts)) =
        .error ⟨.syntaxError .bare (some c), location⟩ := by
    rw [Dsl.parse, toList_paragraphs_cons, behind, String.toList_ofList, String.toList_ofList,
      Dsl.read, stopped]
    rfl
  exact ⟨c, location, by rw [rulesOf, rulesOfDsl, refused]⟩

end Transfer

/-! ### Editors -/

namespace Editor

open Transfer

/-- Rules that become the only ones of an editor. -/
theorem exists_load_only {e : Editor} {text : String} {o : ImportOptions} {rules : List Rule}
    (read : rulesOf o.format text = .ok rules) (any : rules ≠ [])
    (drawable : ∀ r ∈ rules, r.checkDrawable = .ok ())
    (fresh : o.merge = true → e.document = .empty) :
    ∃ id f, (load text o).on e = (.ok (some id), f) ∧ f.document.roots.length = rules.length ∧
      rulesIn f.document = .ok rules := by
  obtain ⟨id, f, loaded, -, -, new, roots, below⟩ := exists_load (e := e) read any drawable
  have kept : (if o.merge then e.document else .empty) = Document.empty := by
    split
    · exact fresh ‹_›
    · rfl
  have replaced : f.document.roots = new := by rw [roots, kept]; rfl
  refine ⟨id, f, loaded, ?_, ?_⟩
  · rw [replaced, (mapM_eq_ok_iff.mp below).length_eq]
  · rw [rulesIn, replaced, below]

/-- **What an editor writes as rule text can be loaded just if it has one root.**  Take an editor
that writes records, and whose rules are legible.  Loaded into any editor in place of what it holds,
or into one that holds nothing, the text of a single root gives one root with the same rule, and
what is written as JSON is then the same.  The text of several roots is refused, whatever they are,
where the second one begins. -/
theorem load_write_text {e : Editor} {text : String} (written : e.write .dsl = .ok text)
    (rooted : e.document.roots ≠ []) (records : e.settings.roundTrip.layout.withRecords = true)
    (legible : ∀ rules, rulesIn e.document = .ok rules → Legible rules) (e' : Editor)
    (merge : Bool) (fresh : merge = true → e'.document = .empty) :
    (e.document.roots.length = 1 → ∃ id f, (load text ⟨.dsl, merge⟩).on e' = (.ok (some id), f) ∧
      f.document.roots.length = 1 ∧ rulesIn f.document = rulesIn e.document ∧
      f.write .json = e.write .json) ∧
    (e.document.roots.length ≠ 1 → ∃ c location, (load text ⟨.dsl, merge⟩).on e' =
      (.error (.parse ⟨.syntaxError .bare (some c), location⟩), e')) := by
  obtain ⟨rules, specified, texts, each, rfl⟩ := write_dsl_eq_ok_iff.mp written
  obtain ⟨count, trees⟩ := rulesIn_trees specified
  have readable := legible rules specified
  rw [← count]
  cases rules with
  | nil => exact absurd (List.length_eq_zero_iff.mp count.symm) rooted
  | cons r rules =>
      cases rules with
      | nil =>
          refine ⟨fun _ => ?_, fun several => absurd rfl several⟩
          obtain ⟨text, _, printed, none, rfl⟩ := List.forall₂_cons_left_iff.mp each
          obtain rfl := List.forall₂_nil_left_iff.mp none
          obtain ⟨root, tree, -, converted⟩ := trees r List.mem_cons_self
          obtain ⟨id, f, loaded, length, same⟩ := exists_load_only (e := e') (o := ⟨.dsl, merge⟩)
            (rulesOf_paragraphs_single printed records readable) (List.cons_ne_nil r [])
            (List.forall_mem_singleton.mpr (Node.toRule_eq_ok_iff.mp converted).2) fresh
          have rules : rulesIn f.document = rulesIn e.document := same.trans specified.symm
          exact ⟨id, f, loaded, length, rules,
            by rw [write, write, Transfer.write, Transfer.write, rules]⟩
      | cons q rules =>
          refine ⟨fun one => absurd one (by simp), fun _ => ?_⟩
          obtain ⟨c, location, refused⟩ := rulesOf_paragraphs_cons each readable
          exact ⟨c, location, by rw [on_load, refused]⟩

/-- A negated comparison with a record. -/
theorem load_write_text_negation :
    let e := (new .standard).run
      [.add (some "g") ⟨none, none, .group .not⟩ none,
        .add (some "c") ⟨none, some ⟨some "E1", none, none⟩,
          .fieldCondition (some "a") (some .equals) (some .null)⟩ (some "g")]
    ∃ text, e.write .dsl = .ok text ∧ ∃ id f, (load text ⟨.dsl, false⟩).on (new .standard) =
      (.ok (some id), f) ∧ f.document.roots.length = 1 ∧ f.write .json = e.write .json := by
  intro e
  let c := Rule.atom (.condition ⟨"a", .equals, .null, .literal⟩) (some ⟨some "E1", none, none⟩)
  let r := Rule.junction (.connective .not) [c] none
  have specified : rulesIn e.document = .ok [r] := rfl
  have all : r.preorder = [r, c] := rfl
  obtain ⟨text, written⟩ : ∃ text, e.write .dsl = .ok text :=
    ⟨_, write_dsl_eq_ok_iff.mpr ⟨_, specified, _, .cons rfl .nil, rfl⟩⟩
  have legible : Legible [r] := by
    refine ⟨List.forall_mem_singleton.mpr fun a note h => ?_,
      List.forall_mem_singleton.mpr fun s h => ?_⟩
    · rw [all] at h
      obtain ⟨rfl, -⟩ : a = .condition ⟨"a", .equals, .null, .literal⟩ ∧ _ := by
        simpa [r, c] using h
      exact True.intro
    · rw [all] at h
      rcases List.mem_pair.mp h with rfl | rfl <;> decide
  obtain ⟨id, f, loaded, length, -, same⟩ := (load_write_text written (by decide +kernel) rfl
    (fun rules h => by cases specified.symm.trans h; exact legible) (new .standard) false nofun).1
      rfl
  exact ⟨text, written, id, f, loaded, length, same⟩

/-- Two comparisons are written one behind the other, and refused where the second one begins. -/
theorem load_write_text_pair :
    let e := (new .standard).run
      [.add (some "a") ⟨none, none, .fieldCondition (some "a") (some .equals) (some (.int 1))⟩ none,
        .add (some "b") ⟨none, none, .fieldCondition (some "b") (some .equals) (some (.int 2))⟩
          none]
    e.settings.roundTrip.layout.withRecords = true ∧
      rulesIn e.document =
        .ok [.compare "a" .equals (.int 1), .compare "b" .equals (.int 2)] ∧
      e.write .dsl = .ok "a == 1\n\nb == 2" ∧
      ((load "a == 1\n\nb == 2" ⟨.dsl, false⟩).on (new .standard)).1 =
        .error (.parse ⟨.syntaxError .bare (some 'b'), ⟨3, 1⟩⟩) :=
  ⟨rfl, rfl, rfl, rfl⟩

end Editor

end Rulebook
