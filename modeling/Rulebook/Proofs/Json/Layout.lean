import Rulebook.Proofs.Json.Values

/-!
# Rulebook — Proofs — Json — Layout

The text of a JSON value reads back as that value, however the text is laid out.  Between brackets,
commas and colons a text may have gaps, and the writer has two ways to use them: the compact form
has none, the spread form puts every item and member on a line of its own.  Both are layouts with a
spacing (`lay_compact`, `lay_spread`).  The value has to be one that a text can stand for, and its
arrays and objects must not nest deeper than the reader goes.

* `reads_lay`: what is laid out for a value reads as the value, whatever gap stands in front of it
  and whatever follows it that could not go on a number.
* `form?_lay`: the same for a whole text.
* `form?_text`, `form?_spreadText`: the two forms of the writer.
-/

namespace Rulebook.Json

open Text (StartsOutside startsOutside_cons startsOutside_nil)

/-! ### Gaps -/

/-- A text of blanks. -/
def Gap (cs : List Char) : Prop := ∀ c ∈ cs, isGap c = true

theorem gap_nil : Gap [] := fun _ h => nomatch h

theorem gap_newline (level : Nat) : Gap (newline level) := by
  intro c hc
  rcases List.mem_cons.mp hc with rfl | hc
  · rfl
  · rw [List.eq_of_mem_replicate hc]
    rfl

/-- A gap in front of a text is skipped. -/
theorem skipGaps_gap {gap : List Char} (h : Gap gap) (cs : List Char) :
    skipGaps (gap ++ cs) = skipGaps cs := List.dropWhile_append_of_pos h

theorem isNumberPart_of_isGap {c : Char} (h : isGap c = true) : isNumberPart c = false := by
  simp only [isGap, Bool.or_eq_true, decide_eq_true_eq] at h
  rcases h with ((rfl | rfl) | rfl) | rfl <;> decide

theorem startsOutside_gap {gap : List Char} (h : Gap gap) {c : Char} (hc : isNumberPart c = false)
    (cs : List Char) : StartsOutside isNumberPart (gap ++ c :: cs) := by
  cases gap with
  | nil => exact startsOutside_cons hc
  | cons d gap => exact startsOutside_cons (isNumberPart_of_isGap (h d List.mem_cons_self))

/-- A gap in front of a value is skipped. -/
theorem value_gap {gap : List Char} (h : Gap gap) (fuel depth : Nat) (cs : List Char) :
    value fuel depth (gap ++ cs) = value fuel depth cs := by
  cases fuel with
  | zero => rfl
  | succ fuel => simp only [value, valueWith, skipGaps_gap h]

/-! ### Layouts -/

/-- Where a text has gaps: in front of each item or member of a level and of the bracket behind the
last one, and behind a colon. -/
structure Spacing where
  before : Nat → List Char
  behind : List Char
  gap_before : ∀ level, Gap (before level)
  gap_behind : Gap behind

/-- No gaps at all. -/
def Spacing.compact : Spacing := ⟨fun _ => [], [], fun _ => gap_nil, gap_nil⟩

/-- Every item and member on a line of its own. -/
def Spacing.spread : Spacing :=
  ⟨newline, [' '], gap_newline, List.forall_mem_singleton.mpr rfl⟩

mutual

/-- The text of a value that starts on a line of a given level. -/
def lay (g : Spacing) (level : Nat) : Json → List Char
  | .array (j :: js) =>
    '[' :: (g.before (level + 1) ++ (lay g (level + 1) j ++
      (layItems g (level + 1) js ++ (g.before level ++ [']']))))
  | .object (m :: ms) =>
    '\x7b' :: (g.before (level + 1) ++ (layMember g (level + 1) m ++
      (layMembers g (level + 1) ms ++ (g.before level ++ ['\x7d']))))
  | j => write j

/-- The items of an array behind the first one. -/
def layItems (g : Spacing) (level : Nat) : List Json → List Char
  | [] => []
  | j :: js => ',' :: (g.before level ++ (lay g level j ++ layItems g level js))

/-- One member of an object. -/
def layMember (g : Spacing) (level : Nat) : String × Json → List Char
  | (key, j) => writeString key ++ ':' :: (g.behind ++ lay g level j)

/-- The members of an object behind the first one. -/
def layMembers (g : Spacing) (level : Nat) : List (String × Json) → List Char
  | [] => []
  | m :: ms => ',' :: (g.before level ++ (layMember g level m ++ layMembers g level ms))

end

mutual

/-- The compact form is the layout without gaps. -/
theorem lay_compact (level : Nat) : ∀ j : Json, lay .compact level j = write j
  | .array [] | .object [] | .null | .bool _ | .int _ | .float _ | .string _ | .unreadable => rfl
  | .array (j :: js) => by
      rw [lay, write, writeItems_compact (level + 1) js, lay_compact (level + 1) j]
      simp [Spacing.compact]
  | .object ((key, j) :: ms) => by
      rw [lay, write, writeMembers_compact (level + 1) ms, layMember, lay_compact (level + 1) j]
      simp [Spacing.compact]

theorem writeItems_compact (level : Nat) : ∀ (js : List Json) {j : Json},
    writeItems (j :: js) = write j ++ layItems .compact level js
  | [], _ => by simp [writeItems, layItems]
  | k :: ks, _ => by
      rw [writeItems, writeItems_compact level ks, layItems, lay_compact level k]
      simp [Spacing.compact]

theorem writeMembers_compact (level : Nat) :
    ∀ (ms : List (String × Json)) {key : String} {j : Json}, writeMembers ((key, j) :: ms) =
      writeString key ++ ':' :: (write j ++ layMembers .compact level ms)
  | [], _, _ => by simp [writeMembers, layMembers]
  | (key, k) :: ms, _, _ => by
      rw [writeMembers, writeMembers_compact level ms, layMembers, layMember, lay_compact level k]
      simp [Spacing.compact]

end

mutual

/-- The spread form is the layout with lines. -/
theorem lay_spread (level : Nat) : ∀ j : Json, lay .spread level j = spreadFrom level j
  | .array [] | .object [] | .null | .bool _ | .int _ | .float _ | .string _ | .unreadable => rfl
  | .array (j :: js) => by
      rw [lay, spreadFrom, spreadItems_spread (level + 1) js, lay_spread (level + 1) j]
      simp [Spacing.spread]
  | .object ((key, j) :: ms) => by
      rw [lay, spreadFrom, spreadMembers_spread (level + 1) ms, layMember, lay_spread (level + 1) j]
      simp [Spacing.spread]

theorem spreadItems_spread (level : Nat) : ∀ (js : List Json) {j : Json},
    spreadItems level (j :: js) = newline level ++ (spreadFrom level j ++ layItems .spread level js)
  | [], _ => by simp [spreadItems, layItems]
  | k :: ks, _ => by
      rw [spreadItems, spreadItems_spread level ks, layItems, lay_spread level k]
      simp [Spacing.spread]

theorem spreadMembers_spread (level : Nat) :
    ∀ (ms : List (String × Json)) {key : String} {j : Json},
    spreadMembers level ((key, j) :: ms) = newline level ++
      (writeString key ++ ':' :: ' ' :: (spreadFrom level j ++ layMembers .spread level ms))
  | [], _, _ => by simp [spreadMembers, layMembers]
  | (key, k) :: ms, _, _ => by
      rw [spreadMembers, spreadMembers_spread level ms, layMembers, layMember, lay_spread level k]
      simp [Spacing.spread]

end

/-! ### Parts of a text -/

variable {g : Spacing} {level : Nat}

/-- The text of a value is not empty and starts with neither a blank nor a closing bracket. -/
theorem exists_start_of_lay {j : Json} (h : Expressible j) :
    ∃ c cs, lay g level j = c :: cs ∧ isValueStart c = true := by
  cases j with
  | array js =>
      cases js with
      | nil => exact ⟨'[', _, rfl, rfl⟩
      | cons j js => exact ⟨'[', _, rfl, rfl⟩
  | object ms =>
      cases ms with
      | nil => exact ⟨'\x7b', _, rfl, rfl⟩
      | cons m ms => exact ⟨'\x7b', _, rfl, rfl⟩
  | null => exact exists_start_of_write h
  | bool b => exact exists_start_of_write h
  | int n => exact exists_start_of_write h
  | float x => exact exists_start_of_write h
  | string s => exact exists_start_of_write h
  | unreadable => exact h.elim

theorem length_le_layItems (js : List Json) : js.length ≤ (layItems g level js).length := by
  induction js with
  | nil => exact Nat.le_refl 0
  | cons j js ih => simp only [layItems, List.length_cons, List.length_append]; omega

theorem length_le_layMembers (ms : List (String × Json)) :
    ms.length ≤ (layMembers g level ms).length := by
  induction ms with
  | nil => exact Nat.le_refl 0
  | cons m ms ih => simp only [layMembers, List.length_cons, List.length_append]; omega

/-- The reader reads the text as the value, with any gap in front and whatever follows that could
not go on a number. -/
def Reads (nested : Reading Json) (text : List Char) (j : Json) : Prop :=
  ∀ gap rest, Gap gap → StartsOutside isNumberPart rest →
    nested (gap ++ (text ++ rest)) = some (j, rest)

section Nested

variable {nested : Reading Json} {gap : List Char} (hgap : Gap gap) (rest : List Char)
include hgap

theorem startsOutside_layItems (js : List Json) :
    StartsOutside isNumberPart (layItems g level js ++ (gap ++ ']' :: rest)) := by
  cases js with
  | nil => exact startsOutside_gap hgap (by decide) rest
  | cons j js => exact startsOutside_cons (by decide)

theorem startsOutside_layMembers (ms : List (String × Json)) :
    StartsOutside isNumberPart (layMembers g level ms ++ (gap ++ '\x7d' :: rest)) := by
  cases ms with
  | nil => exact startsOutside_gap hgap (by decide) rest
  | cons m ms => exact startsOutside_cons (by decide)

/-- The items behind the first one, each of which is read as it was laid out. -/
theorem moreItems_layItems {js : List Json} (h : ∀ j ∈ js, Reads nested (lay g level j) j)
    (fuel : Nat) (hf : js.length < fuel) :
    moreItems nested fuel (layItems g level js ++ (gap ++ ']' :: rest)) = some (js, rest) := by
  induction js generalizing fuel with
  | nil =>
      obtain ⟨fuel, rfl⟩ : ∃ n, fuel = n + 1 := ⟨fuel - 1, by omega⟩
      simp [moreItems, layItems, skipGaps_gap hgap, skipGaps_cons, isGap]
  | cons j js ih =>
      obtain ⟨fuel, rfl⟩ : ∃ n, fuel = n + 1 := ⟨fuel - 1, by omega⟩
      have stop : StartsOutside isNumberPart (layItems g level js ++ (gap ++ ']' :: rest)) :=
        startsOutside_layItems hgap rest js
      have hj := h j List.mem_cons_self _ _ (g.gap_before level) stop
      have hjs := ih (fun k hk => h k (List.mem_cons_of_mem j hk)) fuel
        (by simp only [List.length_cons] at hf; omega)
      simp only [layItems, List.cons_append, List.append_assoc, moreItems,
        skipGaps_cons (show isGap ',' = false from rfl), hj, hjs, Option.bind_eq_bind,
        Option.bind_some]

/-- The items of an array that has any. -/
theorem items_lay {j : Json} {js : List Json} (hs : Expressible j)
    (h : ∀ k ∈ j :: js, Reads nested (lay g level k) k) :
    items nested (g.before level ++
      (lay g level j ++ (layItems g level js ++ (gap ++ ']' :: rest)))) = some (j :: js, rest) := by
  obtain ⟨c, cs, hw, hc⟩ : ∃ c cs, lay g level j = c :: cs ∧ isValueStart c = true :=
    exists_start_of_lay hs
  have stop : StartsOutside isNumberPart (layItems g level js ++ (gap ++ ']' :: rest)) :=
    startsOutside_layItems hgap rest js
  have hj := h j List.mem_cons_self _ _ (g.gap_before level) stop
  have enough : js.length < (layItems g level js ++ (gap ++ ']' :: rest)).length + 1 := by
    have : js.length ≤ (layItems g level js).length := length_le_layItems js
    rw [List.length_append]
    omega
  have hjs := moreItems_layItems hgap rest (fun k hk => h k (List.mem_cons_of_mem j hk)) _ enough
  rw [items, skipGaps_gap (g.gap_before level), hw, List.cons_append,
    skipGaps_cons (isGap_of_isValueStart hc)]
  -- no value starts with the bracket that would close an empty array
  split
  · rename_i e; cases e; exact absurd hc (by decide)
  · rw [← List.cons_append, ← hw, hj]
    simp only [Option.bind_eq_bind, Option.bind_some, hjs]

omit hgap in
/-- A member that is laid out is read back. -/
theorem member_layMember {m : String × Json} (h : Reads nested (lay g level m.2) m.2)
    {before r : List Char} (hb : Gap before) (hr : StartsOutside isNumberPart r) :
    member nested (before ++ (layMember g level m ++ r)) = some (some m, r) := by
  obtain ⟨key, j⟩ := m
  simp [member, layMember, writeString, skipGaps_gap hb, skipGaps_cons, isGap,
    stringText_writeString, h g.behind r g.gap_behind hr]

/-- The members behind the first one are read back. -/
theorem moreMembers_layMembers {ms : List (String × Json)}
    (h : ∀ m ∈ ms, Reads nested (lay g level m.2) m.2) (fuel : Nat) (hf : ms.length < fuel) :
    moreMembers nested fuel (layMembers g level ms ++ (gap ++ '\x7d' :: rest)) =
      some (ms.map some, rest) := by
  induction ms generalizing fuel with
  | nil =>
      obtain ⟨fuel, rfl⟩ : ∃ n, fuel = n + 1 := ⟨fuel - 1, by omega⟩
      simp [moreMembers, layMembers, skipGaps_gap hgap, skipGaps_cons, isGap]
  | cons m ms ih =>
      obtain ⟨fuel, rfl⟩ : ∃ n, fuel = n + 1 := ⟨fuel - 1, by omega⟩
      have stop : StartsOutside isNumberPart (layMembers g level ms ++ (gap ++ '\x7d' :: rest)) :=
        startsOutside_layMembers hgap rest ms
      have hm := member_layMember (h m List.mem_cons_self) (g.gap_before level) stop
      have hms := ih (fun k hk => h k (List.mem_cons_of_mem m hk)) fuel
        (by simp only [List.length_cons] at hf; omega)
      simp only [layMembers, List.cons_append, List.append_assoc, moreMembers,
        skipGaps_cons (show isGap ',' = false from rfl), hm, hms, Option.bind_eq_bind,
        Option.bind_some, List.map_cons]

/-- The members of an object that has any. -/
theorem members_lay {m : String × Json} {ms : List (String × Json)}
    (h : ∀ k ∈ m :: ms, Reads nested (lay g level k.2) k.2) :
    members nested (g.before level ++
      (layMember g level m ++ (layMembers g level ms ++ (gap ++ '\x7d' :: rest)))) =
      some ((m :: ms).map some, rest) := by
  have stop : StartsOutside isNumberPart (layMembers g level ms ++ (gap ++ '\x7d' :: rest)) :=
    startsOutside_layMembers hgap rest ms
  have hm := member_layMember (h m List.mem_cons_self) (g.gap_before level) stop
  have enough : ms.length < (layMembers g level ms ++ (gap ++ '\x7d' :: rest)).length + 1 := by
    have : ms.length ≤ (layMembers g level ms).length := length_le_layMembers ms
    rw [List.length_append]
    omega
  have hms := moreMembers_layMembers hgap rest (fun k hk => h k (List.mem_cons_of_mem m hk)) _
    enough
  rw [members]
  split
  · rename_i e
    obtain ⟨key, j⟩ := m
    simp [skipGaps_gap (g.gap_before level), layMember, writeString, skipGaps_cons, isGap] at e
  · simp only [hm, hms, Option.bind_eq_bind, Option.bind_some, List.map_cons]

end Nested

/-! ### Values -/

/-- A value that is read without a gap in front is read with one. -/
theorem reads_value {fuel depth : Nat} {text : List Char} {j : Json}
    (h : ∀ rest, StartsOutside isNumberPart rest →
      value fuel depth (text ++ rest) = some (j, rest)) : Reads (value fuel depth) text j := by
  intro gap rest hgap hr
  rw [value_gap hgap, h rest hr]

mutual

/-- **What is laid out for a value reads as the value.** -/
theorem reads_lay : ∀ {j : Json} {level fuel depth : Nat}, Expressible j → nesting j < fuel →
    nesting j ≤ depth → Reads (value fuel depth) (lay g level j) j
  | _, _, 0, _, _, hf, _ => absurd hf (Nat.not_lt_zero _)
  | .null, _, _ + 1, _, _, _, _ => reads_value fun _ _ => valueWith_word _ (.inl rfl)
  | .bool true, _, _ + 1, _, _, _, _ => reads_value fun _ _ => valueWith_word _ (.inr (.inl rfl))
  | .bool false, _, _ + 1, _, _, _, _ => reads_value fun _ _ => valueWith_word _ (.inr (.inr rfl))
  | .int _, _, _ + 1, _, hj, _, _ =>
      reads_value fun _ hr => valueWith_number (number_writeInt hj hr)
  | .float x, _, _ + 1, _, hj, _, _ => by
      have hx : x.isFinite = true := hj
      have text : write (.float x) = x.jsonText := if_pos hx
      refine reads_value fun _ hr => ?_
      show value _ _ (write (.float x) ++ _) = _
      rw [text]
      exact valueWith_number (number_jsonText hx hr)
  | .string _, _, _ + 1, _, _, _, _ => reads_value fun _ _ => valueWith_string _ _
  | .array [], _, _ + 1, depth, _, _, hd => by
      refine reads_value fun _ _ => ?_
      have fits : depth ≠ 0 := by simp only [nesting] at hd; omega
      simp [value, valueWith, lay, write, writeItems, items, skipGaps_cons, isGap, fits]
  | .object [], _, _ + 1, depth, _, _, hd => by
      refine reads_value fun _ _ => ?_
      have fits : depth ≠ 0 := by simp only [nesting] at hd; omega
      simp [value, valueWith, lay, write, writeMembers, members, skipGaps_cons, isGap, fits,
        objectOf]
  | .array (j :: js), level, fuel + 1, depth, hj, hf, hd => by
      -- the brackets take one level, and what is left is enough for each item
      simp only [nesting] at hf hd
      have inner : nestingAll (j :: js) < fuel ∧ nestingAll (j :: js) ≤ depth - 1 := by omega
      refine reads_value fun rest _ => ?_
      have each : ∀ k ∈ j :: js, Reads (value fuel (depth - 1)) (lay g (level + 1) k) k :=
        reads_layAll hj inner.1 inner.2
      have read := items_lay (g.gap_before level) rest hj.1 each
      have fits : depth ≠ 0 := by omega
      simp [value, valueWith, lay, skipGaps_cons, isGap, read, fits]
  | .object (m :: ms), level, fuel + 1, depth, hj, hf, hd => by
      simp only [nesting] at hf hd
      have inner : nestingMembers (m :: ms) < fuel ∧ nestingMembers (m :: ms) ≤ depth - 1 := by
        omega
      refine reads_value fun rest _ => ?_
      have each : ∀ k ∈ m :: ms, Reads (value fuel (depth - 1)) (lay g (level + 1) k.2) k.2 :=
        reads_layMembers hj inner.1 inner.2
      have read := members_lay (g.gap_before level) rest each
      have fits : depth ≠ 0 := by omega
      have whole := objectOf_some (m :: ms)
      simp only [List.map_cons] at read whole
      simp [value, valueWith, lay, skipGaps_cons, isGap, read, fits, whole]
  | .unreadable, _, _ + 1, _, hj, _, _ => hj.elim

/-- The items of an array are read back, with the fuel for their nesting. -/
theorem reads_layAll : ∀ {js : List Json} {level fuel depth : Nat}, ExpressibleAll js →
    nestingAll js < fuel → nestingAll js ≤ depth →
    ∀ j ∈ js, Reads (value fuel depth) (lay g level j) j
  | [], _, _, _, _, _, _, _, h => absurd h List.not_mem_nil
  | j :: js, _, fuel, depth, hj, hf, hd, k, hk => by
      simp only [nestingAll] at hf hd
      rcases List.mem_cons.mp hk with e | hk
      · rw [e]
        exact reads_lay hj.1 (by omega) (by omega)
      · exact reads_layAll hj.2 (by omega) (by omega) k hk

/-- The values of an object's members are read back, with the fuel for their nesting. -/
theorem reads_layMembers : ∀ {ms : List (String × Json)} {level fuel depth : Nat},
    ExpressibleMembers ms → nestingMembers ms < fuel → nestingMembers ms ≤ depth →
    ∀ m ∈ ms, Reads (value fuel depth) (lay g level m.2) m.2
  | [], _, _, _, _, _, _, _, h => absurd h List.not_mem_nil
  | (_, j) :: ms, _, fuel, depth, hj, hf, hd, k, hk => by
      simp only [nestingMembers] at hf hd
      rcases List.mem_cons.mp hk with e | hk
      · subst e
        exact reads_lay (j := j) hj.1 (by omega) (by omega)
      · exact reads_layMembers hj.2 (by omega) (by omega) k hk

end

/-! ### Whole texts -/

mutual

/-- A value nests no deeper than its text is long. -/
theorem nesting_le_length_lay : ∀ (level : Nat) (j : Json), nesting j ≤ (lay g level j).length
  | _, .null | _, .bool _ | _, .int _ | _, .float _ | _, .string _ | _, .unreadable => Nat.zero_le _
  | _, .array [] | _, .object [] => by
      simp [nesting, nestingAll, nestingMembers, lay, write]
  | level, .array (j :: js) => by
      have := nesting_le_length_lay (level + 1) j
      have := nestingAll_le_length_layItems (level + 1) js
      simp only [nesting, nestingAll, lay, List.length_cons, List.length_append]
      omega
  | level, .object ((key, j) :: ms) => by
      have := nesting_le_length_lay (level + 1) j
      have := nestingMembers_le_length_layMembers (level + 1) ms
      simp only [nesting, nestingMembers, lay, layMember, List.length_cons, List.length_append]
      omega

theorem nestingAll_le_length_layItems : ∀ (level : Nat) (js : List Json),
    nestingAll js ≤ (layItems g level js).length
  | _, [] => Nat.zero_le _
  | level, j :: js => by
      have := nesting_le_length_lay level j
      have := nestingAll_le_length_layItems level js
      simp only [nestingAll, layItems, List.length_cons, List.length_append]
      omega

theorem nestingMembers_le_length_layMembers : ∀ (level : Nat) (ms : List (String × Json)),
    nestingMembers ms ≤ (layMembers g level ms).length
  | _, [] => Nat.zero_le _
  | level, (key, j) :: ms => by
      have := nesting_le_length_lay level j
      have := nestingMembers_le_length_layMembers level ms
      simp only [nestingMembers, layMembers, layMember, List.length_cons, List.length_append]
      omega

end

section

variable {j : Json} (hj : Expressible j) (hd : nesting j ≤ depthLimit)
include hj hd

/-- **A whole text reads back.** -/
theorem form?_lay : form? (lay g 0 j) = some j := by
  have fuel : nesting j < (lay g 0 j).length + 1 := by
    have := nesting_le_length_lay (g := g) 0 j
    omega
  have reads : Reads (value ((lay g 0 j).length + 1) depthLimit) (lay g 0 j) j :=
    reads_lay hj fuel hd
  have read := reads [] [] gap_nil startsOutside_nil
  rw [List.nil_append, List.append_nil] at read
  simp [form?, read, skipGaps]

/-- The compact text has the form of its value. -/
theorem form?_text : form? j.text.toList = some j := by
  rw [text, String.toList_ofList, ← lay_compact 0, form?_lay hj hd]

/-- The spread text has the form of its value. -/
theorem form?_spreadText : form? j.spreadText.toList = some j := by
  rw [spreadText, String.toList_ofList, ← lay_spread, form?_lay hj hd]

/-- A value is read back from any layout. -/
theorem read?_lay : read? (lay g 0 j) = some j := by
  rw [read?, form?_lay hj hd, Option.filter_some, if_pos (isReadable_of_expressible hj)]

/-- A value is read back from its compact text. -/
theorem read?_write : read? (write j) = some j := by
  rw [← lay_compact 0, read?_lay hj hd]

end

end Rulebook.Json

namespace Rulebook.Payload

/-- **A payload survives being written and read.** -/
theorem parse?_write {p : Payload} (h : p.value.nesting ≤ Json.depthLimit) :
    Json.parse? (String.ofList p.value.write) = some p.value := by
  rw [Json.parse?, String.toList_ofList,
    Json.read?_write (Json.expressible_of_canonical p.canonical) h]

end Rulebook.Payload
