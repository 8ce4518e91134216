import Rulebook.Proofs.Json.Layout
import Rulebook.Proofs.Json.Record
import Rulebook.Proofs.Node.Agreement
import Rulebook.Proofs.Rule.Tree
import Rulebook.Rule.Codec

/-!
# Rulebook — Proofs — Rule — Codec

A rule reads back from its JSON as long as every number in it is finite.  The JSON may be written
compactly or spread over lines, and its members may be in any order.

* `Rule.ofJson?_toJson`: reading from JSON values.
* `Rule.ofText?_text_toJson`: reading from texts.
-/

namespace Rulebook

open Json (Expressible Rearranges expressibleAll_iff expressibleMembers_iff)

/-! ### Written values are expressible -/

/-- A literal can be written: a number that is not finite is written as null. -/
theorem Literal.expressible_toJson (v : Literal) : Expressible v.toJson := by
  cases v with
  | int n =>
      have := n.toInt_lt
      have := n.le_toInt
      simp only [toJson, Expressible, Json.inRange, Bool.and_eq_true, decide_eq_true_eq]
      omega
  | float x =>
      rw [toJson]
      split
      · assumption
      · trivial
  | _ => trivial

theorem Json.expressible_nat {n : Nat} (h : n < UInt64.size) : Expressible (nat n) := by
  have : UInt64.size = 0x10000000000000000 := rfl
  simp only [nat, Expressible, inRange, Bool.and_eq_true, decide_eq_true_eq]
  omega

theorem Argument.expressible_toJson (a : Argument) : Expressible a.toJson :=
  ⟨a.value.expressible_toJson, trivial, trivial⟩

/-- A record can be written. -/
theorem Metadata.expressible_toJson (m : Metadata) : Expressible m.toJson := by
  obtain ⟨code, message, severity⟩ := m
  cases code <;> cases message <;> cases severity <;>
    simp [toJson, members, Expressible, Json.ExpressibleMembers, Severity.toJson]

theorem KeyMap.expressible_toJson (m : KeyMap Literal) : Expressible (m.toJson Literal.toJson) := by
  refine expressibleMembers_iff.mpr fun e he => ?_
  obtain ⟨e, -, rfl⟩ := List.mem_map.mp he
  exact e.2.expressible_toJson

/-- A list can be written if its items can. -/
theorem Json.expressible_array_map {α : Type} {encode : α → Json}
    (h : ∀ a, Expressible (encode a)) (as : List α) : Expressible (.array (as.map encode)) :=
  expressibleAll_iff.mpr fun j hj => by
    obtain ⟨a, -, rfl⟩ := List.mem_map.mp hj
    exact h a

/-! ### Parts -/

namespace Json.Rearranges

variable {f : Json → Json} {s : Json.Standing} (hf : Rearranges f)
include hf

/-! #### Words -/

/-- A comparison is read back. -/
@[simp] theorem comparison (c : Comparison) : Comparison.ofJson? s (f c.toJson) = some c :=
  (hf.asNamed_string _ _).trans (by cases c <;> rfl)

/-- A kind of operand is read back. -/
@[simp] theorem operandKind (k : OperandKind) : OperandKind.ofJson? s (f k.toJson) = some k :=
  (hf.asNamed_string _ _).trans (by cases k <;> rfl)

/-- A connective is read back. -/
@[simp] theorem connective (op : Connective) : Connective.ofJson? s (f op.toJson) = some op :=
  (hf.asNamed_string _ _).trans (by cases op <;> rfl)

/-- A requirement is read back. -/
@[simp] theorem requirement (k : Requirement) : Requirement.ofJson? s (f k.toJson) = some k :=
  (hf.asNamed_string _ _).trans (by cases k <;> rfl)

/-- A bound of a length is read back. -/
@[simp] theorem lengthBound (b : LengthBound) : LengthBound.ofJson? s (f b.toJson) = some b :=
  (hf.asNamed_string _ _).trans (by cases b <;> rfl)

/-- A guard is read back. -/
@[simp] theorem guard (g : Guard) : Guard.ofJson? s (f g.toJson) = some g :=
  (hf.asNamed_string _ _).trans (by cases g <;> rfl)

/-- A quota is read back. -/
@[simp] theorem quota (q : Quota) : Quota.ofJson? s (f q.toJson) = some q :=
  (hf.asNamed_string _ _).trans (by cases q <;> rfl)

/-- A severity is read back. -/
@[simp] theorem severity (v : Severity) : Severity.ofJson? s (f v.toJson) = some v :=
  (hf.asNamed_string _ _).trans (by cases v <;> rfl)

/-- A tag is read back. -/
@[simp] theorem tag (t : Tag) : Tag.ofJson? s (f (.string t.name)) = some t :=
  (hf.asShape_string _ _).trans (by cases t <;> rfl)

/-! #### Values, arguments and records -/

/-- A literal is read back if it is finite. -/
theorem literal {v : Literal} (h : v.isRenderable = true) :
    Literal.ofJson? s (f v.toJson) = some v := by
  rw [hf.scalar v.expressible_toJson (by cases v <;> simp [Literal.toJson, nesting]; split <;> rfl)]
  cases v with
  | int n =>
      have := n.toInt_lt
      have := n.le_toInt
      have hn : Literal.inRange n.toInt = true := by
        simp only [Literal.inRange, Bool.and_eq_true, decide_eq_true_eq]
        omega
      simp [Literal.toJson, Literal.ofJson?, hn]
  | float x =>
      have hx : x.isFinite = true := h
      simp [Literal.toJson, Literal.ofJson?, hx]
  | _ => rfl

/-- An argument is read back if its value is finite. -/
theorem argument {a : Argument} (h : a.value.isRenderable = true) :
    Argument.ofJson? s (f a.toJson) = some a := by
  simp [Argument.ofJson?, Argument.toJson, hf, hf.read_object, hf.literal h]

/-- A record is read back. -/
@[simp] theorem metadata (m : Metadata) : Metadata.ofJson? s (f m.toJson) = some m := by
  obtain ⟨code, message, severity⟩ := m
  have string (t : String) : asNullable asString s (f (.string t)) = some (some t) :=
    asNullable_eq_some (hf.asString_string t) rfl
  have word (v : Severity) : asNullable Severity.ofJson? s (f v.toJson) = some (some v) :=
    asNullable_eq_some (hf.severity v) rfl
  cases code <;> cases message <;> cases severity <;>
    simp [Metadata.ofJson?, Metadata.toJson, Metadata.members, Metadata.ofRecord?, hf.read_object,
      lookup, string, word]

/-- A payload is read back. -/
@[simp] theorem ofJson_payload (p : Payload) : Payload.ofJson (f p.value) = p := by
  obtain ⟨j, h⟩ := p
  simp [Payload.ofJson, hf.payload h]

/-- Parameters are read back if their values are finite. -/
theorem parameters {m : KeyMap Literal} (h : ∀ e ∈ m.entries, e.2.isRenderable = true) :
    KeyMap.ofJson? Literal.ofJson? s (f (m.toJson Literal.toJson)) = some m := by
  have keys : ((m.entries.map fun e => (e.1, e.2.toJson)).map Prod.fst).Nodup := by
    simpa [List.map_map, Function.comp_def, KeyMap.keys] using m.nodup_keys
  obtain ⟨ns, e, hp⟩ := hf.object keys
  -- the members read one by one are the entries, in whatever order the members stand
  let entry (n : String × Json) : String × Literal :=
    (n.1, (Literal.ofJson? s n.2).getD .null)
  have hentry : ∀ d ∈ m.entries, entry (d.1, f d.2.toJson) = d := fun d hd => by
    simp [entry, hf.literal (h d hd)]
  have hread : ∀ n ∈ ns, (Literal.ofJson? s n.2).map (fun v => (n.1, v)) = some (entry n) := by
    intro n hn
    rw [hp.mem_iff, List.map_map, List.mem_map] at hn
    obtain ⟨d, hd, rfl⟩ := hn
    simp [entry, hf.literal (h d hd)]
  have hperm : (ns.map entry).Perm m.entries := by
    refine (hp.map entry).trans (.of_eq ?_)
    rw [List.map_map, List.map_map]
    exact (List.map_congr_left hentry).trans (List.map_id _)
  rw [KeyMap.toJson, e, KeyMap.ofJson?, mapM_eq_some_map hread]
  simp [KeyMap.ofList_of_perm hperm]

end Json.Rearranges

/-! ### Rules -/

namespace Rule

/-- Every number in the rule is finite. -/
def Finite (r : Rule) : Prop := ∀ q ∈ r.preorder, ∀ v ∈ q.head.literals, v.isRenderable = true

instance (r : Rule) : Decidable r.Finite :=
  inferInstanceAs (Decidable (∀ q ∈ r.preorder, ∀ v ∈ q.head.literals, v.isRenderable = true))

/-- A rule is finite if its head is and the rules below it are. -/
theorem finite_iff {r : Rule} : r.Finite ↔
    (∀ v ∈ r.head.literals, v.isRenderable = true) ∧ ∀ c ∈ r.children, c.Finite :=
  forall_mem_preorder_iff

/-- The members of the JSON object between the shape and the diagnostic record. -/
def ownMembers : Rule → List (String × Json)
  | .atom a _ => a.members
  | .scope s body _ => s.members body.toJson
  | .junction j members _ => j.members (.array (members.map toJson))

/-- The members of the JSON object. -/
def jsonMembers (r : Rule) : List (String × Json) :=
  ("type", .string r.tag.name) :: (r.ownMembers ++ noteMembers r.note)

theorem toJsonAll_eq_map (rs : List Rule) : toJsonAll rs = rs.map toJson := by
  induction rs with
  | nil => rfl
  | cons r rs ih => rw [toJsonAll, ih, List.map_cons]

theorem toJson_eq (r : Rule) : r.toJson = .object r.jsonMembers := by
  cases r with
  | junction j members note => rw [toJson, toJsonAll_eq_map]; rfl
  | _ => rfl

/-- The members of a rule have the names of its tag's. -/
theorem keys_ownMembers (r : Rule) : r.ownMembers.map Prod.fst = r.tag.memberNames := by
  cases r with
  | atom a note => cases a <;> rfl
  | scope s body note => cases s <;> rfl
  | junction j members note => cases j <;> rfl

/-- No shape has a member of one name twice, nor one named like those that all rules have. -/
theorem nodup_memberNames (t : Tag) : ("type" :: (t.memberNames ++ ["metadata"])).Nodup := by
  cases t <;> decide

/-- No member of a rule's object is named twice. -/
theorem nodup_jsonMembers (r : Rule) : (r.jsonMembers.map Prod.fst).Nodup := by
  have sub : ((noteMembers r.note).map Prod.fst).Sublist ["metadata"] := by
    cases r.note with
    | none => exact List.nil_sublist _
    | some m => exact .refl _
  rw [jsonMembers, List.map_cons, List.map_append, keys_ownMembers]
  exact (nodup_memberNames r.tag).sublist ((sub.append_left _).cons_cons _)

/-- Under its name a rule's object has the tag. -/
@[simp] theorem lookup_type (r : Rule) :
    Json.lookup "type" r.jsonMembers = some (.string r.tag.name) :=
  (Json.lookup_eq_some_iff r.nodup_jsonMembers).mpr List.mem_cons_self

@[simp] theorem lookup_noteMembers (name : String) (note : Option Metadata) :
    Json.lookup name (noteMembers note) =
      if "metadata" = name then note.map Metadata.toJson else none := by
  cases note <;> simp [noteMembers, Json.lookup]

/-- Under its name a rule's object has the record, if there is one. -/
@[simp] theorem lookup_metadata (r : Rule) :
    Json.lookup "metadata" r.jsonMembers = r.note.map Metadata.toJson := by
  have own : Json.lookup "metadata" r.ownMembers = none := Json.lookup_eq_none fun h => by
    rw [keys_ownMembers] at h
    have := (List.nodup_append.mp (nodup_memberNames r.tag).of_cons).2.2
    exact this _ h _ List.mem_cons_self rfl
  simp [jsonMembers, own]

end Rule

theorem Atom.expressible_members (a : Atom) : Json.ExpressibleMembers a.members := by
  cases a with
  | condition c => exact ⟨trivial, trivial, c.value.expressible_toJson, trivial, trivial⟩
  | length bound array limit =>
      exact ⟨trivial, trivial, Json.expressible_nat limit.toNat_lt, trivial⟩
  | call name args =>
      exact ⟨trivial, Json.expressible_array_map Argument.expressible_toJson args, trivial⟩
  | template id params => exact ⟨trivial, params.expressible_toJson, trivial⟩
  | custom name payload =>
      exact ⟨trivial, Json.expressible_of_canonical payload.canonical, trivial⟩
  | _ => repeat' constructor

theorem Scope.expressible_members (c : Scope) {body : Json} (h : Expressible body) :
    Json.ExpressibleMembers (c.members body) := by
  cases c with
  | withDefault field v => exact ⟨trivial, v.expressible_toJson, h, trivial⟩
  | forEach array => exact ⟨trivial, h, trivial⟩
  | _ => exact ⟨trivial, trivial, h, trivial⟩

theorem Junction.expressible_members (j : Junction) {specs : Json} (h : Expressible specs) :
    Json.ExpressibleMembers (j.members specs) := by
  cases j with
  | connective op => exact ⟨trivial, h, trivial⟩
  | quota kind count =>
      exact ⟨trivial, Json.expressible_nat (Nat.lt_trans count.toNat_lt (by decide)), h, trivial⟩

namespace Rule

open Json.Record (view)

/-- A rule can be written. -/
theorem expressible_toJson (r : Rule) : Expressible r.toJson := by
  induction r using induction_children with
  | step r ih =>
      have own : Json.ExpressibleMembers r.ownMembers := by
        cases r with
        | atom a n => exact a.expressible_members
        | scope c body n => exact c.expressible_members (ih body List.mem_cons_self)
        | junction j members n =>
            refine j.expressible_members (expressibleAll_iff.mpr fun q hq => ?_)
            obtain ⟨m, hm, rfl⟩ := List.mem_map.mp hq
            exact ih m hm
      have note : ∀ m ∈ noteMembers r.note, Expressible m.2 := by
        cases r.note with
        | none => exact fun _ h => nomatch h
        | some m => exact List.forall_mem_singleton.mpr m.expressible_toJson
      rw [toJson_eq]
      refine ⟨trivial, expressibleMembers_iff.mpr fun m hm => ?_⟩
      rcases List.mem_append.mp hm with hm | hm
      · exact expressibleMembers_iff.mp own m hm
      · exact note m hm

section

variable {f : Json → Json} {s : Json.Standing} (hf : Rearranges f) {inner : Json.Decoder Rule}
include hf

/-- An atom is read back from its members. -/
theorem ofTag?_atom {a : Atom} (ha : ∀ v ∈ (Head.atom a).literals, v.isRenderable = true)
    (note : Option Metadata) :
    ofTag? inner (view f s (atom a note).jsonMembers) note a.tag = some (.atom a note) := by
  cases a with
  | condition c =>
      have := hf.literal (s := s) (ha c.value List.mem_cons_self)
      simp [ofTag?, Atom.tag, Condition.ofRecord?, jsonMembers, ownMembers, Atom.members,
        Condition.members, hf, this, Rule.note]
  | call name args =>
      have := hf.asList_self (s := s) fun a h => hf.argument (ha a.value (List.mem_map_of_mem h))
      simp [ofTag?, Atom.tag, jsonMembers, ownMembers, Atom.members, hf, this, Rule.note]
  | template id params =>
      have := hf.parameters (s := s) fun e h => ha e.2 (List.mem_map_of_mem h)
      simp [ofTag?, Atom.tag, jsonMembers, ownMembers, Atom.members, hf, this, Rule.note]
  | _ => simp [ofTag?, Atom.tag, jsonMembers, ownMembers, Atom.members, hf, Rule.note]

/-- A scope is read back from its members, if its body is. -/
theorem ofTag?_scope {c : Scope} (hs : ∀ v ∈ (Head.scope c).literals, v.isRenderable = true)
    {body : Rule} (hb : inner s (f body.toJson) = some body) (note : Option Metadata) :
    ofTag? inner (view f s (scope c body note).jsonMembers) note c.tag =
      some (.scope c body note) := by
  cases c with
  | withDefault field v =>
      have := hf.literal (s := s) (hs v List.mem_cons_self)
      simp [ofTag?, Scope.tag, jsonMembers, ownMembers, Scope.members, hf, hb, this, Rule.note]
  | _ => simp [ofTag?, Scope.tag, jsonMembers, ownMembers, Scope.members, hf, hb, Rule.note]

/-- A junction is read back from its members, if these are. -/
theorem ofTag?_junction (j : Junction) {members : List Rule}
    (hm : ∀ r ∈ members, inner s (f r.toJson) = some r) (note : Option Metadata) :
    ofTag? inner (view f s (junction j members note).jsonMembers) note j.tag =
      some (.junction j members note) := by
  have := hf.asList_self hm
  cases j <;>
    simp [ofTag?, Junction.tag, jsonMembers, ownMembers, Junction.members, hf, this, Rule.note]

/-- The JSON of a rule is read as the rule, if those of the rules below are. -/
theorem ofJsonWith_toJson {r : Rule} (hr : ∀ v ∈ r.head.literals, v.isRenderable = true)
    (hc : ∀ c ∈ r.children, ∀ s, inner s (f c.toJson) = some c) :
    ofJsonWith inner s (f r.toJson) = some r := by
  have note : (view f s r.jsonMembers).optional "metadata" Metadata.ofJson? = some r.note := by
    have (m : Metadata) : Json.asNullable Metadata.ofJson? s (f m.toJson) = some (some m) :=
      Rearranges.asNullable_eq_some (hf.metadata m) rfl
    cases h : r.note <;> simp [h, this]
  have body : ofTag? inner (view f .setAside r.jsonMembers) r.note r.tag = some r := by
    cases r with
    | atom a n => exact ofTag?_atom hf hr n
    | scope c body n => exact ofTag?_scope hf hr (hc body List.mem_cons_self .setAside) n
    | junction j members n => exact ofTag?_junction hf j (fun c h => hc c h .setAside) n
  simp [ofJsonWith, toJson_eq, hf, hf.readObject_object r.nodup_jsonMembers, note, body]

/-- A reader with as many levels as the rule reads it. -/
theorem ofJsonWithin_toJson {r : Rule} (hr : r.Finite) {levels : Nat} (hd : r.depth ≤ levels) :
    ofJsonWithin levels s (f r.toJson) = some r := by
  induction levels generalizing r s with
  | zero => exact absurd hd (Nat.not_le.mpr r.depth_pos)
  | succ levels ih =>
      obtain ⟨own, below⟩ := finite_iff.mp hr
      refine ofJsonWith_toJson hf own fun c hc s => ih (below c hc) ?_
      exact Nat.le_of_lt_succ (Nat.lt_of_lt_of_le (depth_lt_of_mem_children hc) hd)

omit inner in
/-- The JSON of a rule below is less high. -/
theorem height_lt_of_mem_children {r c : Rule} (hc : c ∈ r.children) :
    (f c.toJson).height < (f r.toJson).height := by
  rw [r.toJson_eq]
  cases r with
  | atom a n => exact absurd hc List.not_mem_nil
  | scope b body n =>
      obtain rfl := List.mem_singleton.mp hc
      have own : ∃ m ∈ b.members c.toJson, m.2 = c.toJson := by
        cases b <;> simp [Scope.members]
      obtain ⟨m, hm, e⟩ := own
      have member : m ∈ (scope b c n).jsonMembers :=
        List.mem_cons_of_mem _ (List.mem_append_left _ hm)
      rw [← e]
      exact hf.height_lt_object (nodup_jsonMembers _) member
  | junction j members n =>
      have hm : ("specs", .array (members.map toJson)) ∈ (junction j members n).jsonMembers := by
        cases j <;> simp [jsonMembers, ownMembers, Junction.members]
      exact Nat.lt_trans (hf.height_lt_array (List.mem_map_of_mem hc))
        (hf.height_lt_object (nodup_jsonMembers _) hm)

omit inner in
/-- A rule has no more levels than its JSON. -/
theorem depth_le_height (r : Rule) : r.depth ≤ (f r.toJson).height := by
  induction r using induction_children with
  | step r ih =>
      have positive : 0 < (f r.toJson).height := by
        obtain ⟨ns, e, -⟩ := hf.object r.nodup_jsonMembers
        rw [toJson_eq, e, Json.height]
        omega
      have below : depthAll r.children ≤ (f r.toJson).height - 1 := by
        refine depthAll_le_iff.mpr fun c hc => ?_
        have := ih c hc
        have := height_lt_of_mem_children hf hc
        omega
      rw [depth_eq]
      omega

/-- **A rule whose numbers are finite reads back from its JSON**, with the members of objects in any
order. -/
theorem ofJson?_toJson {r : Rule} (hr : r.Finite) : ofJson? s (f r.toJson) = some r := by
  have aside : isReadableAside (f r.toJson) = true := by
    obtain ⟨ns, e, hp⟩ := hf.object r.nodup_jsonMembers
    have members : ∀ m ∈ r.jsonMembers, Expressible m.2 := by
      have := r.expressible_toJson
      rw [toJson_eq] at this
      exact expressibleMembers_iff.mp this
    rw [toJson_eq, e, isReadableAside, Json.areReadableMembers_iff]
    intro n hn
    obtain ⟨m, hm, rfl⟩ := List.mem_map.mp (hp.mem_iff.mp (List.mem_filter.mp hn).1)
    exact hf.readable (members m hm)
  rw [ofJson?, if_pos aside]
  exact ofJsonWithin_toJson hf hr (depth_le_height hf r)

end

/-- **A rule reads back from either text of its JSON**, as long as every number in it is finite and
the JSON nests no deeper than it is read. -/
theorem ofText?_text_toJson {r : Rule} (hr : r.Finite) (hd : r.toJson.nesting ≤ Json.depthLimit) :
    Json.ofText? ofJson? r.toJson.text = some r ∧
      Json.ofText? ofJson? r.toJson.spreadText = some r := by
  have read : ofJson? .inPlace r.toJson = some r := ofJson?_toJson Json.rearranges_id hr
  have hj := r.expressible_toJson
  exact ⟨by rw [Json.ofText?, Json.form?_text hj hd, Option.bind_some, read],
    by rw [Json.ofText?, Json.form?_spreadText hj hd, Option.bind_some, read]⟩

/-- With a null, an empty record, the largest limit, a number three that is no integer, parameters
with odd names and a payload of two levels. -/
theorem ofText?_text_toJson_mixed :
    let params : KeyMap Literal := .ofList [("", .null), ("a \"b\"", .float (.ofDecimal false 3 0))]
    let r : Rule := .junction (.quota .atLeast 2)
      [.scope (.withDefault "a" .null) (.atom (.template "t" params) none) none,
        .atom (.length .max "tags" 0xFFFFFFFFFFFFFFFF) (some ⟨none, none, none⟩),
        .atom (.custom "k" (.ofJson (.object [("b", .array [.int (-1)]), ("a", .null)]))) none]
      (some ⟨some "E1", none, some .info⟩)
    Json.ofText? ofJson? r.toJson.text = some r ∧
      Json.ofText? ofJson? r.toJson.spreadText = some r := by
  intro params r
  have finite : r.Finite := by decide
  have shallow : r.toJson.nesting ≤ Json.depthLimit := by decide
  exact ofText?_text_toJson finite shallow

end Rule

end Rulebook
