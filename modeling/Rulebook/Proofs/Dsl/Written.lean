import Rulebook.Proofs.Dsl.Parts
import Rulebook.Proofs.Dsl.RoundTrip
import Rulebook.Proofs.Dsl.Tame

/-!
# Rulebook — Proofs — Dsl — Written

A written rule is a tame text, for what is written has passed the check and holds finite numbers
only (`tame_render`).

A part of a text that may end in a name or a number is tame in front of a text that goes on neither
(`Tames`); one that ends in a plain character is tame in front of any tame text (`Leads`), and if it
also starts with one, it may stand between two parts of the first kind (`Gap`).
-/

namespace Rulebook.Dsl

open Text (StartsOutside startsOutside_cons startsOutside_nil takeWhile_run dropWhile_run)

variable {a b g rest : List Char}

/-! ### Parts of a text -/

/-- In front of any tame text, the part makes a tame text. -/
def Leads (part : List Char) : Prop := ∀ rest, Tame rest → Tame (part ++ rest)

/-- The same, in front of a text where no name goes on. -/
def Tames (part : List Char) : Prop := ∀ rest, Ends rest → Tame rest → Tame (part ++ rest)

/-- What ends a name and may be followed by one. -/
structure Gap (part : List Char) : Prop where
  ends : ∀ rest, Ends (part ++ rest)
  leads : Leads part

/-- Two parts that lead do so one behind the other. -/
theorem Leads.append (ha : Leads a) (hb : Leads b) : Leads (a ++ b) := fun rest t => by
  rw [List.append_assoc]
  exact ha _ (hb rest t)

/-- A part that leads may stand in front of any other. -/
theorem Leads.tames (ha : Leads a) (hb : Tames b) : Tames (a ++ b) := fun rest hr t => by
  rw [List.append_assoc]
  exact ha _ (hb rest hr t)

/-- Plain characters lead. -/
theorem Leads.plain (h : g.all isPlain = true) : Leads g := by
  induction g with
  | nil => exact fun _ t => t
  | cons c g ih =>
      rw [List.all_cons, Bool.and_eq_true] at h
      obtain ⟨hc, hg⟩ := h
      exact fun rest t => .plain hc (ih hg rest t)

/-- A gap behind a part makes it lead. -/
theorem Tames.leads (ha : Tames a) (hg : Gap g) : Leads (a ++ g) := fun rest t => by
  rw [List.append_assoc]
  exact ha _ (hg.ends rest) (hg.leads rest t)

theorem Tames.nil : Tames [] := fun _ _ t => t

/-- Two parts with a gap between them. -/
theorem Tames.then (ha : Tames a) (hg : Gap g) (hb : Tames b) : Tames (a ++ (g ++ b)) := by
  rw [← List.append_assoc]
  exact (ha.leads hg).tames hb

/-- A part that leads is one. -/
theorem Leads.self (h : Leads a) : Tames a := fun rest _ t => h rest t

/-- Plain characters are a gap if the first is none of a name. -/
theorem Gap.plain {c : Char} (hc : Text.isNamePart c = false) (h : (c :: g).all isPlain = true) :
    Gap (c :: g) :=
  ⟨fun _ => startsOutside_cons hc, .plain h⟩

/-- A part between two gaps. -/
theorem Gap.around {g' : List Char} (hg : Gap g) (ha : Tames a) (hg' : Gap g') :
    Gap (g ++ (a ++ g')) where
  ends rest := by
    rw [List.append_assoc]
    exact hg.ends _
  leads := hg.leads.append (ha.leads hg')

/-- What may follow any part. -/
structure Tail (part : List Char) : Prop where
  ends : ∀ rest, Ends rest → Ends (part ++ rest)
  tames : Tames part

theorem Tail.nil : Tail [] := ⟨fun _ hr => hr, .nil⟩

/-- A part may be followed by a tail. -/
theorem Tames.append (ha : Tames a) (hb : Tail b) : Tames (a ++ b) := fun rest hr t => by
  rw [List.append_assoc]
  exact ha _ (hb.ends rest hr) (hb.tames rest hr t)

/-- Two tails are a tail. -/
theorem Tail.append (ha : Tail a) (hb : Tail b) : Tail (a ++ b) where
  ends rest hr := by
    rw [List.append_assoc]
    exact ha.ends _ (hb.ends rest hr)
  tames := ha.tames.append hb

/-- A gap and a part behind it are a tail. -/
theorem Gap.tail (hg : Gap g) (hb : Tames b) : Tail (g ++ b) where
  ends rest _ := by
    rw [List.append_assoc]
    exact hg.ends _
  tames := hg.leads.tames hb

theorem gap_comma : Gap [',', ' '] := .plain (by decide) (by decide)

theorem gap_space : Gap [' '] := .plain (by decide) (by decide)

/-! ### Words and literals -/

/-- A name is tame, where none goes on. -/
theorem Tames.ofName {s : String} (h : isName s = true) : Tames s.toList := fun rest hr t => by
  obtain ⟨c, cs, e, hc⟩ := exists_cons_of_isName h
  rw [isName, e] at h
  rw [e, List.cons_append]
  refine .name hc ?_
  rwa [dropWhile_run (isName_cons h).2 hr]

/-- Digits are tame, where none go on and the number is finite. -/
theorem tame_digits {ds : List Char} (hne : ds ≠ []) (hd : ∀ c ∈ ds, c.isDigit = true)
    (hr : StartsOutside Char.isDigit rest) (finite : FiniteHere (ds ++ rest)) (t : Tame rest) :
    Tame (ds ++ rest) := by
  cases ds with
  | nil => exact absurd rfl hne
  | cons d ds =>
      obtain ⟨hd, hds⟩ := List.forall_mem_cons.mp hd
      refine .digits hd finite ?_
      rwa [show ds.append rest = ds ++ rest from rfl, dropWhile_run hds hr]

/-- A whole number. -/
theorem Tames.digits {ds : List Char} (hne : ds ≠ []) (hd : ∀ c ∈ ds, c.isDigit = true) :
    Tames ds := fun rest hr t => by
  have hr' : StartsOutside Char.isDigit rest := hr.mono fun _ => isNamePart_of_isDigit
  refine tame_digits hne hd hr' (fun r e => ?_) t
  rw [dropWhile_run hd hr'] at e
  subst e
  exact absurd (hr '.' rfl) (by decide)

/-- The digits of a number are tame, where no name goes on. -/
theorem Tames.digitsOf (n : Nat) : Tames (Decimal.digitsOf n) :=
  .digits (Decimal.digitsOf_ne_nil n) fun _ => Decimal.isDigit_of_mem_digitsOf

/-- A number with a point, if it is finite. -/
theorem Tames.point {whole places : List Char} (hw : whole ≠ [])
    (whole_digits : ∀ c ∈ whole, c.isDigit = true) (hp : places ≠ [])
    (places_digits : ∀ c ∈ places, c.isDigit = true)
    (finite : (Binary64.ofDecimal false (Decimal.valueOf (whole ++ places))
      (-places.length)).isFinite = true) : Tames (whole ++ '.' :: places) := fun rest hr t => by
  have outside : StartsOutside Char.isDigit ('.' :: (places ++ rest)) :=
    startsOutside_cons (by decide)
  have hr' : StartsOutside Char.isDigit rest := hr.mono fun _ => isNamePart_of_isDigit
  rw [List.append_assoc, List.cons_append]
  refine tame_digits hw whole_digits outside (fun r e => ?_)
    (.plain (by decide) (Tames.digits hp places_digits rest hr t))
  rw [dropWhile_run whole_digits outside] at e
  cases e
  rwa [takeWhile_run whole_digits outside, takeWhile_run places_digits hr']

/-- A string literal leads. -/
theorem Leads.quote (s : List Char) : Leads (Text.quote s) := fun rest t => by
  rw [Text.quote, List.cons_append, List.append_assoc]
  exact .string (stringRest_flatMap s rest) t

/-- A literal that passes the check. -/
theorem Tames.render {v : Literal} (h : v.check = .ok ()) : Tames v.render := by
  have sign (negative : Bool) : Leads (if negative then ['-'] else []) := by
    cases negative <;> exact .plain (by decide)
  cases v with
  | null => exact .ofName (s := "null") (by decide)
  | bool b =>
      cases b with
      | false => exact .ofName (s := "false") (by decide)
      | true => exact .ofName (s := "true") (by decide)
  | int n =>
      rw [Literal.render, integerText_eq]
      exact (sign _).tames (.digitsOf _)
  | float x =>
      have hx := isFinite_of_check h
      obtain ⟨whole, places, e, hw, whole_digits, hp, places_digits, value⟩ :=
        Binary64.exists_ruleText hx
      rw [Literal.render, e]
      refine (sign _).tames (.point hw whole_digits hp places_digits ?_)
      rw [← Binary64.isFinite_ofDecimal x.negative, value, hx]
  | string s => exact (Leads.quote s.toList).self

/-- A reference is tame. -/
theorem Tames.reference {field : String} (h : isName field = true) :
    Tames (referenceText field) := by
  have close : Gap ['\x7d'] := .plain (by decide) (by decide)
  rw [referenceText, List.append_assoc]
  exact ((Leads.plain (by decide)).append ((Tames.ofName h).leads close)).self

/-! ### Atoms and scopes -/

/-- What stands between the parts of an atom is a gap. -/
theorem gap_joint (h : g ∈ joints) : Gap g := by
  simp only [joints, List.mem_cons, List.not_mem_nil, or_false] at h
  rcases h with rfl | rfl | rfl | rfl | rfl <;> exact .plain (by decide) (by decide)

/-- A comparison symbol is tame. -/
theorem Tames.symbol (c : Comparison) : Tames c.symbol.toList := by
  cases c with
  | contains => exact .ofName (by decide)
  | startsWith => exact .ofName (by decide)
  | endsWith => exact .ofName (by decide)
  | _ => exact (Leads.plain (by decide)).self

/-- What is composed of tame parts is tame. -/
theorem composes_tames : Composes Tames where
  nil := .nil
  name := .ofName
  reference := .reference
  symbol := .symbol
  digitsOf := .digitsOf
  quote s := (Leads.quote s).self
  literal := .render
  join ha hg hb := ha.then (gap_joint hg) hb

/-- An atom that passes the check. -/
theorem Tames.atom {a : Atom} (h : a.check = .ok ()) : Tames a.render := composes_tames.atom h

/-- A scope that passes the check. -/
theorem Tames.scope {s : Scope} (h : s.check = .ok ()) {body : List Char} (hb : Tames body) :
    Tames (s.render body) := by
  rw [render_scope]
  refine composes_tames.call (isName_of_mem_reservedCalls _ (scopeName_mem s)).1 ?_
  cases s with
  | conditional k target => exact (Tames.ofName (checkName_ok_iff.mp h)).then gap_comma hb
  | forEach array => exact (Tames.ofName (checkName_ok_iff.mp h)).then gap_comma hb
  | guarded g field => exact (Tames.ofName (checkName_ok_iff.mp h)).then gap_comma hb
  | withDefault field v =>
      obtain ⟨hf, hv⟩ := Scope.check_withDefault h
      exact (Tames.ofName hf).then gap_comma ((Tames.render hv).then gap_comma hb)

/-! ### Junctions -/

section

variable {o : Layout}

theorem isPlain_spaces (n : Nat) : (List.replicate n ' ').all isPlain = true :=
  List.all_eq_true.mpr fun _ hc => List.eq_of_mem_replicate hc ▸ by decide

/-- A line break and its indentation are a gap. -/
theorem gap_newline (o : Layout) (level : Nat) : Gap (o.newline level) :=
  .plain (by decide) (by rw [List.all_cons, isPlain_spaces]; decide)

/-- A keyword is tame, where no name goes on. -/
theorem Tames.keyword (op : Connective) : Tames op.keyword.toList :=
  .ofName (by cases op <;> decide)

theorem leads_quota (kind : Quota) (count : Nat) :
    Leads (kind.name.toList ++ '(' :: (Decimal.digitsOf count ++ [',', ' ', '['])) := by
  have name : isName kind.name = true := by cases kind <;> decide
  have paren : Gap ['('] := .plain (by decide) (by decide)
  exact (Tames.ofName name).leads
    (paren.around (.digitsOf count) (.plain (by decide) (by decide)))

/-- The text of a group without members is tame. -/
theorem tames_opening_nil (o : Layout) (level : Nat) (j : Junction) :
    Tames (o.opening level [] j) := by
  cases j with
  | quota kind count => exact (leads_quota kind _).self
  | connective op => exact (Leads.plain (g := ['(']) (by decide)).tames (.keyword op)

/-- What stands in front of the members of a group leads. -/
theorem leads_opening_cons (o : Layout) (level : Nat) (m : Rule) (ms : List Rule) (j : Junction) :
    Leads (o.opening level (m :: ms) j) := by
  cases j with
  | quota kind count => exact leads_quota kind _
  | connective op =>
      have paren : Leads ['('] := .plain (by decide)
      have word : Leads (op.keyword.toList ++ [' ']) := (Tames.keyword op).leads gap_space
      cases ms with
      | nil => exact paren.append word
      | cons _ _ =>
          simp only [Layout.opening]
          split
          · exact paren.append word
          · split
            · exact paren.append (gap_newline o _).leads
            · exact paren

/-- What stands between members is a gap. -/
theorem gap_separator (o : Layout) (level : Nat) (j : Junction) : Gap (o.separator level j) := by
  have between (op : Connective) :
      Gap ((if o.pretty then o.newline level else [' ']) ++ op.keyword.toList ++ [' ']) := by
    rw [List.append_assoc]
    refine .around ?_ (.keyword op) gap_space
    split
    · exact gap_newline o level
    · exact gap_space
  cases j with
  | quota kind count => exact gap_comma
  | connective op =>
      cases op with
      | not => exact gap_comma
      | _ => exact between _

/-- What stands behind the members of a group is a gap. -/
theorem gap_closing (o : Layout) (level : Nat) (members : List Rule) (j : Junction) :
    Gap (o.closing level members j) := by
  cases j with
  | quota kind count => exact .plain (by decide) (by decide)
  | connective op =>
      have paren : Gap [')'] := .plain (by decide) (by decide)
      rw [Layout.closing]
      split
      · exact (gap_newline o level).around .nil paren
      · exact paren

/-! ### Comments -/

/-- A comment on its line is tame. -/
theorem tame_line {body : List Char} (h : OnLine body) (t : Tame rest) :
    Tame ('#' :: (body ++ '\n' :: rest)) := by
  refine .comment ?_
  rw [skipComment_append h]
  exact t.skipTrivia

/-- A comment on the last line is tame. -/
theorem tame_lastLine {body : List Char} (h : OnLine body) : Tame ('#' :: body) := by
  refine .comment ?_
  rw [skipComment_of_onLine h]
  exact .nil

/-- The record behind a rule. -/
theorem tail_inlineRecord (o : Layout) (path : List Nat) (level : Nat) (note : Option Metadata) :
    Tail (o.inlineRecord path level note) := by
  refine ⟨fun _ => Layout.ends_inlineRecord o path level note, ?_⟩
  cases note with
  | none => exact .nil
  | some m =>
      rw [Layout.inlineRecord]
      split
      · obtain ⟨body, e, hb⟩ := Layout.onLine_render ⟨path, m⟩
        have line : Leads ('#' :: (body ++ ['\n'])) := fun rest t => by
          simpa using tame_line hb t
        have spaces : Leads (List.replicate (level * o.indentWidth) ' ') :=
          .plain (isPlain_spaces _)
        have whole : ' ' :: (PathRecord.render ⟨path, m⟩ ++ o.newline level) =
            [' '] ++ (('#' :: (body ++ ['\n'])) ++
              List.replicate (level * o.indentWidth) ' ') := by
          simp [e, Layout.newline]
        rw [whole]
        exact (gap_space.leads.append (line.append spaces)).self
      · exact .nil

/-- Records on their lines lead. -/
theorem leads_lines (records : List PathRecord) :
    Leads (Layout.lines (records.map PathRecord.render) ++ ['\n']) := by
  induction records with
  | nil => exact .plain (by decide)
  | cons record records ih =>
      obtain ⟨body, e, hb⟩ := Layout.onLine_render record
      intro rest t
      cases records with
      | nil =>
          rw [List.map_cons, List.map_nil, Layout.lines, e, List.append_assoc]
          exact tame_line hb t
      | cons next records =>
          rw [List.map_cons, List.map_cons, Layout.lines, e, List.append_assoc, List.append_assoc]
          exact tame_line hb (by simpa using ih rest t)

/-- Records on the last lines are tame. -/
theorem tame_lastLines (records : List PathRecord) :
    Tame (Layout.lines (records.map PathRecord.render)) := by
  induction records with
  | nil => exact .nil
  | cons record records ih =>
      obtain ⟨body, e, hb⟩ := Layout.onLine_render record
      cases records with
      | nil =>
          rw [List.map_cons, List.map_nil, Layout.lines, e]
          exact tame_lastLine hb
      | cons next records =>
          rw [List.map_cons, List.map_cons, Layout.lines, e]
          exact tame_line hb ih

/-! ### Rules -/

mutual

/-- The laid out text of a rule that passes the check. -/
theorem Tames.lay : ∀ {r : Rule} (path : List Nat) (level : Nat), r.check = .ok () →
    Tames (o.lay path level r)
  | .atom a note, path, level, h => by
      rw [Layout.lay]
      exact (Tames.atom h).append (tail_inlineRecord o path level note)
  | .scope s body note, path, level, h => by
      obtain ⟨hs, hb⟩ := Rule.check_scope h
      rw [Layout.lay]
      exact (Tames.scope hs (.lay (path ++ [0]) level hb)).append
        (tail_inlineRecord o path level note)
  | .junction j [] note, path, level, _ => by
      have closing := gap_closing o level [] j
      rw [Layout.lay, Layout.layMembers, List.append_nil]
      exact ((tames_opening_nil o level j).leads closing).self.append
        (tail_inlineRecord o path level note)
  | .junction j (m :: ms) note, path, level, h => by
      obtain ⟨hm, hms⟩ := List.forall_mem_cons.mp (Rule.check_junction h)
      have opening := leads_opening_cons o level m ms j
      have closing := gap_closing o level (m :: ms) j
      rw [Layout.lay, Layout.layMembers, if_pos rfl, List.nil_append]
      exact ((opening.tames ((Tames.lay (path ++ [0]) _ hm).append
        (tail_layMembers path _ 0 (gap_separator o _ j) hms))).leads closing).self.append
        (tail_inlineRecord o path level note)

/-- Further members, each behind a separator. -/
theorem tail_layMembers : ∀ {ms : List Rule} (path : List Nat) (level i : Nat)
    {separator : List Char}, Gap separator → (∀ m ∈ ms, m.check = .ok ()) →
    Tail (o.layMembers path level separator (i + 1) ms)
  | [], _, _, _, _, _, _ => .nil
  | m :: ms, path, level, i, separator, hs, h => by
      obtain ⟨hm, hms⟩ := List.forall_mem_cons.mp h
      rw [Layout.layMembers, if_neg (Nat.succ_ne_zero i)]
      exact (hs.tail (.lay (path ++ [i + 1]) level hm)).append
        (tail_layMembers path level (i + 1) hs hms)

end

/-- **A written rule is a tame text**, with its records wherever they are. -/
theorem tame_render {r : Rule} (h : r.check = .ok ()) : Tame (o.render r) := by
  have body : Tames (o.lay [] 0 r) := .lay [] 0 h
  have alone : Tame (o.lay [] 0 r) := by simpa using body [] startsOutside_nil .nil
  rw [Layout.render, detached_eq]
  generalize (if o.withRecords && o.place != .inline then r.records [] else []) = records
  cases records with
  | nil => exact alone
  | cons record records =>
      have front := leads_lines (record :: records) _ alone
      have behind := tame_lastLines (record :: records)
      cases o.place with
      | before => simpa using front
      | _ => exact body _ (startsOutside_cons (by decide)) (.plain (by decide) behind)

/-- A rule that is written has passed the check, and its text is tame. -/
theorem tame_of_print {r : Rule} {text : String} (h : print r o = .ok text) :
    r.check = .ok () ∧ Tame text.toList := by
  obtain ⟨-, hc, rfl⟩ := print_eq_ok_iff.mp h
  rw [String.toList_ofList]
  exact ⟨hc, tame_render hc⟩

end

end Rulebook.Dsl
