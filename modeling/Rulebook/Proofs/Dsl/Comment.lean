import Rulebook.Proofs.Dsl.Parts
import Rulebook.Proofs.Dsl.Structure

/-!
# Rulebook — Proofs — Dsl — Comment

The comments of a written rule.  A record reads back from its comment (`record?_noteText`,
`read?_write`).  A comment is found in a text by its `#` outside of string literals, so that all
that is to be said of any other part of the text is that its quotes are paired (`Scans`).
-/

namespace Rulebook.Dsl

/-! ### One record -/

namespace PathRecord

/-- Positions that are words of 64 bits are read back. -/
theorem mapM_nat (s : Json.Standing) {path : List Nat} (h : ∀ i ∈ path, i < UInt64.size) :
    (path.map Json.nat).mapM (Json.asNat s) = some path := by
  induction path with
  | nil => rfl
  | cons i path ih =>
      have hi := h i List.mem_cons_self
      have one : Json.asNat s (Json.nat i) = some i := by
        simp only [Json.asNat, Json.nat, Json.asNatBelow, Int.natCast_nonneg, decide_true,
          Bool.true_and, Int.toNat_natCast]
        rw [if_pos]
        exact decide_eq_true (Int.ofNat_lt.mpr hi)
      rw [List.map_cons, List.mapM_cons, one, ih fun j hj => h j (List.mem_cons_of_mem i hj)]
      rfl

theorem asNullable_severity (standing : Json.Standing) (s : Severity) :
    Json.asNullable Severity.ofJson? standing s.toJson = some (some s) := by
  cases s <;> rfl

theorem asNullable_string (standing : Json.Standing) (s : String) :
    Json.asNullable Json.asString standing (.string s) = some (some s) := rfl

/-- A record reads back from its JSON value. -/
theorem ofJson?_toJson {r : PathRecord} (h : ∀ i ∈ r.path, i < UInt64.size) :
    ofJson? .inPlace r.toJson = some r := by
  obtain ⟨path, code, message, severity⟩ := r
  have items := mapM_nat .inPlace h
  -- every member is there or left out, and none is there twice
  cases code <;> cases message <;> cases severity <;>
    simp [ofJson?, toJson, Json.Record.readObject, Json.Record.ofMembers, Json.Record.unrepeated,
      Metadata.members, Metadata.memberNames, Json.Record.required, Json.lookup, Json.asList, items,
      Metadata.ofRecord?, Json.Record.optional, Json.Record.withDefault, Json.Record.aside,
      asNullable_severity, asNullable_string]

/-- Positions that are words of 64 bits can be written. -/
theorem expressibleAll_nat {path : List Nat} (h : ∀ i ∈ path, i < UInt64.size) :
    Json.ExpressibleAll (path.map Json.nat) := by
  induction path with
  | nil => exact True.intro
  | cons i path ih =>
      have hi := h i List.mem_cons_self
      refine ⟨?_, ih fun j hj => h j (List.mem_cons_of_mem i hj)⟩
      have : i < 18446744073709551616 := hi
      simp only [Json.nat, Json.Expressible, Json.inRange, Bool.and_eq_true, decide_eq_true_eq]
      omega

theorem nestingAll_nat (path : List Nat) : Json.nestingAll (path.map Json.nat) = 0 := by
  induction path with
  | nil => rfl
  | cons i path ih => simp [Json.nestingAll, ih, Json.nesting, Json.nat]

/-- **The text of a record reads back as the record.** -/
theorem read?_write {r : PathRecord} (h : ∀ i ∈ r.path, i < UInt64.size) :
    read? r.toJson.write = some r := by
  obtain ⟨path, code, message, severity⟩ := r
  have items := expressibleAll_nat h
  have expressible : Json.Expressible (toJson ⟨path, code, message, severity⟩) := by
    cases code <;> cases message <;> cases severity <;>
      simp [toJson, Metadata.members, Json.Expressible, Json.ExpressibleMembers, items,
        Severity.toJson]
  have shallow : Json.nesting (toJson ⟨path, code, message, severity⟩) ≤ Json.depthLimit := by
    refine Nat.le_trans (m := 2) ?_ (by decide)
    cases code <;> cases message <;> cases severity <;>
      simp [toJson, Metadata.members, Json.nesting, Json.nestingMembers, nestingAll_nat,
        Severity.toJson]
  rw [read?, Json.read?_write expressible shallow]
  exact ofJson?_toJson h

/-- The text of a record comment behind its `#`. -/
def noteText (r : PathRecord) : List Char := ' ' :: (recordMarker ++ ' ' :: r.toJson.write)

theorem render_eq (r : PathRecord) : r.render = '#' :: r.noteText := rfl

/-- What stands behind the marker is the record's value, without the blanks around it. -/
theorem record?_noteText (r : PathRecord) (offset : Nat) :
    Comment.record? ⟨r.noteText, offset⟩ = some r.toJson.write := by
  -- an object is written between brackets, which are no blanks
  have brackets : ∃ inner, r.toJson.write = '\x7b' :: (inner ++ ['\x7d']) := by
    exact ⟨Json.writeMembers (("path", .array (r.path.map .nat)) :: r.metadata.members), rfl⟩
  obtain ⟨inner, e⟩ := brackets
  have start : Text.trimStart r.noteText = recordMarker ++ ' ' :: r.toJson.write := by
    rw [noteText, Text.trimStart, List.dropWhile_cons_of_pos (by decide)]
    exact List.dropWhile_cons_of_neg (by decide)
  have body : Text.trim (' ' :: r.toJson.write) = r.toJson.write := by
    rw [e, Text.trim, Text.trimStart, List.dropWhile_cons_of_pos (by decide),
      List.dropWhile_cons_of_neg (by decide), Text.trimEnd, ← List.cons_append, List.reverse_append,
      List.reverse_singleton, List.singleton_append, List.dropWhile_cons_of_neg (by decide),
      List.reverse_cons, List.reverse_reverse]
  rw [Comment.record?]
  simp only [start]
  rw [if_pos (by simp [List.isPrefixOf_iff_prefix]), List.drop_left, body]

end PathRecord

/-! ### Comments in a text -/

/-- The comments of a text without their places. -/
def notes (cs : List Char) : List (List Char) := (comments cs).map Comment.text

theorem commentsInString_of_ne {c : Char} (h : c ≠ '\\') (n : Nat) (cs : List Char) :
    commentsInString n (c :: cs) =
      if c = '"' then commentsFrom (n + 1) cs else commentsInString (n + c.utf8Size) cs := by
  rw [commentsInString]
  rintro d ds rfl
  exact absurd rfl h

mutual

/-- Where a text starts does not change what its comments say. -/
theorem map_commentsFrom : ∀ (cs : List Char) (n m : Nat),
    (commentsFrom n cs).map Comment.text = (commentsFrom m cs).map Comment.text
  | [], _, _ => rfl
  | c :: cs, n, m => by
      rw [commentsFrom, commentsFrom]
      split
      · exact map_commentsInString cs _ _
      · split
        · rw [List.map_cons, List.map_cons, map_commentsInComment cs _ _]
        · exact map_commentsFrom cs _ _

/-- The texts of comments behind a string literal do not depend on where it stands. -/
theorem map_commentsInString : ∀ (cs : List Char) (n m : Nat),
    (commentsInString n cs).map Comment.text = (commentsInString m cs).map Comment.text
  | [], _, _ => rfl
  | c :: cs, n, m => by
      by_cases hc : c = '\\'
      · subst hc
        match cs with
        | [] => rfl
        | d :: ds =>
            rw [commentsInString, commentsInString]
            exact map_commentsInString ds _ _
      · rw [commentsInString_of_ne hc, commentsInString_of_ne hc]
        split
        · exact map_commentsFrom cs _ _
        · exact map_commentsInString cs _ _

/-- The texts of comments behind a comment do not depend on where it stands. -/
theorem map_commentsInComment : ∀ (cs : List Char) (n m : Nat),
    (commentsInComment n cs).map Comment.text = (commentsInComment m cs).map Comment.text
  | [], _, _ => rfl
  | c :: cs, n, m => by
      rw [commentsInComment, commentsInComment]
      split
      · exact map_commentsFrom cs _ _
      · exact map_commentsInComment cs _ _

end

/-- The same from inside a string literal. -/
def notesInString (cs : List Char) : List (List Char) :=
  (commentsInString 0 cs).map Comment.text

/-- Behind a quote comments are looked for inside a string literal. -/
theorem notes_quote (cs : List Char) : notes ('"' :: cs) = notesInString cs := by
  rw [notes, comments, commentsFrom, if_pos rfl]
  exact map_commentsInString cs _ _

/-- A character that is no quote and no mark is passed over. -/
theorem notes_other {c : Char} (hq : c ≠ '"') (hc : c ≠ '#') (cs : List Char) :
    notes (c :: cs) = notes cs := by
  rw [notes, comments, commentsFrom, if_neg hq, if_neg hc]
  exact map_commentsFrom cs _ _

/-- In a string literal an escaped character is passed over, be it a quote. -/
theorem notesInString_escape (c : Char) (cs : List Char) :
    notesInString ('\\' :: c :: cs) = notesInString cs := by
  rw [notesInString, commentsInString]
  exact map_commentsInString cs _ _

/-- A quote ends a string literal. -/
theorem notesInString_close (cs : List Char) : notesInString ('"' :: cs) = notes cs := by
  rw [notesInString, commentsInString_of_ne (by decide), if_pos rfl]
  exact map_commentsFrom cs _ _

theorem notesInString_other {c : Char} (hb : c ≠ '\\') (hq : c ≠ '"') (cs : List Char) :
    notesInString (c :: cs) = notesInString cs := by
  rw [notesInString, commentsInString_of_ne hb, if_neg hq]
  exact map_commentsInString cs _ _

/-- Behind a comment's line the others are looked for. -/
theorem map_commentsInComment_line {body : List Char} (h : '\n' ∉ body) (n : Nat)
    (cs : List Char) :
    (commentsInComment n (body ++ '\n' :: cs)).map Comment.text = notes cs := by
  induction body generalizing n with
  | nil =>
      rw [List.nil_append, commentsInComment, if_pos rfl]
      exact map_commentsFrom cs _ _
  | cons c body ih =>
      have hc : c ≠ '\n' := fun e => h (e ▸ List.mem_cons_self)
      rw [List.cons_append, commentsInComment, if_neg hc]
      exact ih (fun hb => h (List.mem_cons_of_mem c hb)) _

/-- A comment on the last line is followed by no others. -/
theorem commentsInComment_lastLine {body : List Char} (h : '\n' ∉ body) (n : Nat) :
    commentsInComment n body = [] := by
  induction body generalizing n with
  | nil => rfl
  | cons c body ih =>
      have hc : c ≠ '\n' := fun e => h (e ▸ List.mem_cons_self)
      rw [commentsInComment, if_neg hc]
      exact ih (fun hb => h (List.mem_cons_of_mem c hb)) _

theorem bne_of_notMem {body : List Char} (h : '\n' ∉ body) :
    ∀ c ∈ body, (c != '\n') = true := fun _ hc => bne_iff_ne.mpr fun e => h (e ▸ hc)

/-- A comment on a line. -/
theorem notes_line {body : List Char} (h : '\n' ∉ body) (cs : List Char) :
    notes ('#' :: (body ++ '\n' :: cs)) = body :: notes cs := by
  have line : (body ++ '\n' :: cs).takeWhile (· != '\n') = body :=
    Text.takeWhile_run (bne_of_notMem h) (Text.startsOutside_cons (by decide))
  rw [notes, comments, commentsFrom, if_neg (by decide), if_pos rfl, List.map_cons, line,
    map_commentsInComment_line h]

/-- A comment on the last line. -/
theorem notes_lastLine {body : List Char} (h : '\n' ∉ body) : notes ('#' :: body) = [body] := by
  have line : body.takeWhile (· != '\n') = body := by
    have line := Text.takeWhile_run (bne_of_notMem h) Text.startsOutside_nil
    rwa [List.append_nil] at line
  rw [notes, comments, commentsFrom, if_neg (by decide), if_pos rfl, List.map_cons, line,
    commentsInComment_lastLine h]
  rfl

/-! ### Parts of a text -/

/-- The comments of a part of a text, when its quotes are paired and its last line is free. -/
def Scans (part : List Char) (found : List (List Char)) : Prop :=
  ∀ rest, notes (part ++ rest) = found ++ notes rest

/-- There are no comments in nothing. -/
theorem Scans.nil : Scans [] [] := fun _ => rfl

/-- The comments of two parts are those of the first and then those of the second. -/
theorem Scans.append {a b : List Char} {s t : List (List Char)} (ha : Scans a s) (hb : Scans b t) :
    Scans (a ++ b) (s ++ t) := fun rest => by
  rw [List.append_assoc, ha, hb, List.append_assoc]

/-- Two parts, the first without comments. -/
theorem Scans.silent {a b : List Char} {t : List (List Char)} (ha : Scans a []) (hb : Scans b t) :
    Scans (a ++ b) t := ha.append hb

/-- Two parts, the second without comments. -/
theorem Scans.then {a b : List Char} {s : List (List Char)} (ha : Scans a s) (hb : Scans b []) :
    Scans (a ++ b) s := by simpa using ha.append hb

/-- A text without quotes and without comments. -/
def Quiet (cs : List Char) : Prop := ∀ c ∈ cs, c ≠ '"' ∧ c ≠ '#'

instance (cs : List Char) : Decidable (Quiet cs) :=
  List.decidableBAll (fun c => c ≠ '"' ∧ c ≠ '#') cs

/-- There are no comments in a quiet part. -/
theorem Scans.quiet (cs : List Char) (h : Quiet cs) : Scans cs [] := fun rest => by
  induction cs with
  | nil => rfl
  | cons c cs ih =>
      obtain ⟨hq, hc⟩ := h c List.mem_cons_self
      rw [List.cons_append, notes_other hq hc]
      exact ih fun d hd => h d (List.mem_cons_of_mem c hd)

/-- A character as it is written in a string literal keeps the search inside. -/
theorem notesInString_quoteChar (c : Char) (cs : List Char) :
    notesInString (Text.quoteChar c ++ cs) = notesInString cs := by
  unfold Text.quoteChar
  split
  · exact notesInString_escape _ cs
  · split
    · exact notesInString_escape _ cs
    · split
      · exact notesInString_escape _ cs
      · split
        · exact notesInString_escape _ cs
        · rename_i hq hb _ _
          exact notesInString_other hb hq cs

/-- A string literal hides what is in it. -/
theorem Scans.quote (s : List Char) : Scans (Text.quote s) [] := fun rest => by
  have inside : notesInString (s.flatMap Text.quoteChar ++ '"' :: rest) = notes rest := by
    induction s with
    | nil => exact notesInString_close rest
    | cons c s ih => rw [List.flatMap_cons, List.append_assoc, notesInString_quoteChar, ih]
  rw [Text.quote, List.cons_append, notes_quote, List.append_assoc]
  exact inside

/-! ### Parts of a rule's text -/

/-- A name is quiet. -/
theorem quiet_name {name : String} (h : isName name = true) : Quiet name.toList := by
  intro c hc
  have part := isNamePart_of_isName h c hc
  constructor
  · rintro rfl
    exact absurd part (by decide)
  · rintro rfl
    exact absurd part (by decide)

/-- Digits are quiet. -/
theorem quiet_digits {cs : List Char} (h : ∀ c ∈ cs, c.isDigit = true) : Quiet cs := by
  intro c hc
  have digit := h c hc
  constructor
  · rintro rfl
    exact absurd digit (by decide)
  · rintro rfl
    exact absurd digit (by decide)

theorem quiet_digitsOf (n : Nat) : Quiet (Decimal.digitsOf n) :=
  quiet_digits fun _ => Decimal.isDigit_of_mem_digitsOf

theorem Scans.name {name : String} (h : isName name = true) : Scans name.toList [] :=
  .quiet _ (quiet_name h)

theorem Scans.reference {field : String} (h : isName field = true) :
    Scans (referenceText field) [] :=
  ((Scans.quiet _ (by decide)).silent (.name h)).silent (.quiet _ (by decide))

/-- There are no comments in a literal. -/
theorem Scans.render {v : Literal} (h : v.check = .ok ()) : Scans v.render [] := by
  have sign (negative : Bool) : Scans (if negative then ['-'] else []) [] := by
    cases negative <;> exact .quiet _ (by decide)
  cases v with
  | null => exact .quiet _ (by decide)
  | bool b => cases b <;> exact .quiet _ (by decide)
  | int n =>
      rw [Literal.render, integerText_eq]
      exact (sign _).silent (.quiet _ (quiet_digitsOf _))
  | float x =>
      obtain ⟨whole, places, e, -, hw, -, hp, -⟩ := Binary64.exists_ruleText (isFinite_of_check h)
      rw [Literal.render, e]
      exact (sign _).silent ((Scans.quiet _ (quiet_digits hw)).silent
        ((Scans.quiet ['.'] (by decide)).silent (.quiet _ (quiet_digits hp))))
  | string s => exact .quote s.toList

/-- The comments in a call are those in its arguments. -/
theorem Scans.call {name : String} (hn : isName name = true) {args : List (List Char)}
    {found : List (List Char)} (h : Scans (Rulebook.commaSeparated args) found) :
    Scans (callText name args) found :=
  (Scans.name hn).silent ((Scans.quiet ['('] (by decide)).silent (h.then (.quiet _ (by decide))))

theorem quiet_joint {g : List Char} (h : g ∈ joints) : Quiet g := by
  simp only [joints, List.mem_cons, List.not_mem_nil, or_false] at h
  rcases h with rfl | rfl | rfl | rfl | rfl <;> decide

/-- There are no comments in what is composed of parts without. -/
theorem composes_scans : Composes fun t => Scans t [] where
  nil := .nil
  name := .name
  reference := .reference
  symbol c := .quiet _ (by cases c <;> decide)
  digitsOf n := .quiet _ (quiet_digitsOf n)
  quote := .quote
  literal := .render
  join ha hg hb := ha.silent ((Scans.quiet _ (quiet_joint hg)).silent hb)

/-- There is no comment in an atom. -/
theorem Scans.atom {a : Atom} (h : a.check = .ok ()) : Scans a.render [] := composes_scans.atom h

/-- The comments in a scope are those in the rule inside it. -/
theorem Scans.scope {s : Scope} (h : s.check = .ok ()) {body : List Char}
    {found : List (List Char)} (hb : Scans body found) : Scans (s.render body) found := by
  have comma : Scans [',', ' '] [] := .quiet _ (by decide)
  rw [render_scope]
  refine .call (isName_of_mem_reservedCalls _ (scopeName_mem s)).1 ?_
  cases s with
  | conditional k target =>
      exact (Scans.name (checkName_ok_iff.mp h)).silent (comma.silent hb)
  | forEach array => exact (Scans.name (checkName_ok_iff.mp h)).silent (comma.silent hb)
  | guarded g field => exact (Scans.name (checkName_ok_iff.mp h)).silent (comma.silent hb)
  | withDefault field v =>
      obtain ⟨hf, hv⟩ := Scope.check_withDefault h
      exact (Scans.name hf).silent (comma.silent ((Scans.render hv).silent (comma.silent hb)))

/-! ### Rules -/

/-- The comments for records that are written in place. -/
def foundInline (o : Layout) (records : List PathRecord) : List (List Char) :=
  if o.withRecords && o.place = .inline then records.map PathRecord.noteText else []

/-- The comments of records in two parts are those of both. -/
theorem foundInline_append (o : Layout) (as bs : List PathRecord) :
    foundInline o (as ++ bs) = foundInline o as ++ foundInline o bs := by
  rw [foundInline]
  split <;> simp [foundInline, *]

/-- A record is written on one line. -/
theorem notMem_noteText (r : PathRecord) : '\n' ∉ r.noteText := by
  obtain ⟨body, e, hb⟩ := Layout.onLine_render r
  rw [PathRecord.render_eq] at e
  cases e
  exact fun h => (hb _ h).1 rfl

theorem quiet_spaces (n : Nat) : Quiet (List.replicate n ' ') := by
  intro c hc
  rw [List.eq_of_mem_replicate hc]
  decide

theorem quiet_newline (o : Layout) (level : Nat) : Quiet (o.newline level) := by
  intro c hc
  rcases List.mem_cons.mp hc with rfl | hc
  · decide
  · exact quiet_spaces _ c hc

/-- A line behind a mark is one comment. -/
theorem Scans.line {body : List Char} (h : '\n' ∉ body) : Scans ('#' :: (body ++ ['\n'])) [body] :=
  fun rest => by simpa using notes_line h rest

/-- What is written in place of a record is one comment if records are written in place. -/
theorem Scans.inlineRecord (o : Layout) (path : List Nat) (level : Nat) (note : Option Metadata) :
    Scans (o.inlineRecord path level note) (foundInline o (Rule.pathRecord path note)) := by
  cases note with
  | none =>
      have none : foundInline o [] = [] := by simp [foundInline]
      exact (show foundInline o (Rule.pathRecord path .none) = [] from none) ▸ .nil
  | some m =>
      rw [Layout.inlineRecord, foundInline]
      split
      · have line := Scans.line (notMem_noteText ⟨path, m⟩)
        have spaces : Scans (List.replicate (level * o.indentWidth) ' ') [] :=
          .quiet _ (quiet_spaces _)
        have e : ' ' :: (PathRecord.render ⟨path, m⟩ ++ o.newline level) =
            [' '] ++ (('#' :: (PathRecord.noteText ⟨path, m⟩ ++ ['\n'])) ++
              List.replicate (level * o.indentWidth) ' ') := by
          simp [PathRecord.render_eq, Layout.newline]
        rw [e]
        exact (Scans.quiet _ (by decide)).silent (line.then spaces)
      · exact .nil

theorem quiet_keyword (op : Connective) : Quiet op.keyword.toList := by
  cases op <;> decide

theorem Quiet.append {as bs : List Char} (ha : Quiet as) (hb : Quiet bs) : Quiet (as ++ bs) := by
  intro c hc
  rcases List.mem_append.mp hc with hc | hc
  · exact ha c hc
  · exact hb c hc

end Rulebook.Dsl
