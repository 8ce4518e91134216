import Rulebook.Node.Codec
import Rulebook.Proofs.Rule.Codec

/-!
# Rulebook — Proofs — Node — Codec

What a node tree is once it has been written as JSON and read back.  A value that is there but null
is written like one that is absent, and so it is absent afterwards (`Node.stored`); all else comes
back.  A tree with such a null is no rule any more.

* `Node.ofJson?_toJson`: reading from JSON values.
* `Node.ofText?_text_toJson_stored`: reading from texts, and when the tree is still the same rule.
* `Node.ofText?_text_toJson_null`: the tree of a comparison with null is lost.
-/

namespace Rulebook

open Json (Expressible Rearranges expressibleAll_iff expressibleMembers_iff)
open Json.Record (view)

/-! ### Configurations -/

namespace Config

/-- The values in a configuration. -/
def literals : Config → List Literal
  | .fieldCondition _ _ value => value.toList
  | .withDefault _ value => value.toList
  | .call _ args => args.map Argument.value
  | .template _ params => params.entries.map Prod.snd
  | _ => []

/-- The configuration with a value absent that is there but null. -/
def stored : Config → Config
  | .fieldCondition field comparison value =>
    .fieldCondition field comparison (value.filter (· ≠ .null))
  | .withDefault field value => .withDefault field (value.filter (· ≠ .null))
  | c => c

/-- Whether a value that may be absent is there but null. -/
def holdsNull : Config → Bool
  | .fieldCondition _ _ value => value = some .null
  | .withDefault _ value => value = some .null
  | _ => false

/-- Filtering out null changes a value only if it is null. -/
theorem filter_eq_self_iff {value : Option Literal} :
    value.filter (· ≠ .null) = value ↔ value ≠ some .null := by
  cases value with
  | none => simp
  | some v => by_cases h : v = .null <;> simp [h]

/-- A configuration is stored as it is unless a value is there but null. -/
theorem stored_eq_self_iff {c : Config} : c.stored = c ↔ c.holdsNull = false := by
  cases c <;> simp only [stored, holdsNull, fieldCondition.injEq, withDefault.injEq,
    filter_eq_self_iff, true_and, decide_eq_false_iff_not]

/-- Nothing is absent that a rule has, and so no configuration that has lost a null is a rule's. -/
theorem stored_ne_config {c : Config} (hn : c.holdsNull = true) (h : Head) :
    c.stored ≠ h.config := by
  have condition (field : Option String) (comparison : Option Comparison) :
      Config.fieldCondition field comparison none ≠ h.config := by
    unfold Head.config
    split <;> try split
    all_goals simp
  have default (field : Option String) : Config.withDefault field none ≠ h.config := by
    unfold Head.config
    split <;> try split
    all_goals simp
  cases c with
  | fieldCondition field comparison value =>
      obtain rfl : value = some .null := of_decide_eq_true hn
      exact condition field comparison
  | withDefault field value =>
      obtain rfl : value = some .null := of_decide_eq_true hn
      exact default field
  | _ => cases hn

/-- The members of a configuration can be written as text. -/
theorem expressible_members (c : Config) : Json.ExpressibleMembers c.members := by
  have orNull {α : Type} (encode : α → Json) (he : ∀ a, Expressible (encode a)) (a : Option α) :
      Expressible (Json.orNull (a.map encode)) := by
    cases a with
    | none => trivial
    | some a => exact he a
  have string := orNull .string fun _ => trivial
  have word := orNull Comparison.toJson fun _ => trivial
  have value := orNull _ Literal.expressible_toJson
  cases c with
  | fieldCondition field comparison v => exact ⟨string field, word comparison, value v, trivial⟩
  | fieldToField left comparison right =>
      exact ⟨string left, word comparison, string right, trivial⟩
  | withDefault field v => exact ⟨string field, value v, trivial⟩
  | group op => exact ⟨trivial, trivial⟩
  | conditional _ target | guarded _ target => exact ⟨trivial, string target, trivial⟩
  | forEach name | contextual name | expression name => exact ⟨string name, trivial⟩
  | uniqueBy array key => exact ⟨string array, string key, trivial⟩
  | length bound array limit =>
      exact ⟨trivial, string array, orNull _ (fun n => Json.expressible_nat n.toNat_lt) limit,
        trivial⟩
  | quota kind count =>
      exact ⟨trivial, orNull _ (fun n => Json.expressible_nat (Nat.lt_trans n.toNat_lt (by decide)))
        count, trivial⟩
  | call name args =>
      exact ⟨string name, Json.expressible_array_map Argument.expressible_toJson args, trivial⟩
  | template id params => exact ⟨string id, params.expressible_toJson, trivial⟩
  | custom name payload =>
      exact ⟨string name, Json.expressible_of_canonical payload.canonical, trivial⟩

/-- The members of the JSON object. -/
def jsonMembers (c : Config) : List (String × Json) := ("kind", .string c.tag.name) :: c.members

theorem expressible_toJson (c : Config) : Expressible c.toJson := ⟨trivial, c.expressible_members⟩

/-- No member of a configuration is named twice, the tag included. -/
theorem nodup_jsonMembers (c : Config) : (c.jsonMembers.map Prod.fst).Nodup := by
  cases c <;> simp [jsonMembers, members]

section

variable {f : Json → Json} {s : Json.Standing} (hf : Rearranges f)
include hf

/-- A value that may be absent is read back, with null read as absent. -/
theorem asNullable_literal {value : Option Literal} (h : ∀ v ∈ value, v.isRenderable = true) :
    Json.asNullable Literal.ofJson? s (f (Json.orNull (value.map Literal.toJson))) =
      some (value.filter (· ≠ .null)) := by
  cases value with
  | none => exact hf.asNullable_null _
  | some v =>
      have hv := hf.literal (s := s) (h v rfl)
      rw [Option.map_some, Json.orNull, Option.filter_some]
      by_cases hn : v = .null
      · subst hn
        exact hf.asNullable_null _
      · have present : f v.toJson ≠ .null := by
          intro e
          rw [e] at hv
          exact hn (Option.some.inj hv).symm
        simp [Rearranges.asNullable_of_ne_null present, hv, hn]

variable {c : Config} (hc : ∀ v ∈ c.literals, v.isRenderable = true)
include hc

/-- Of a configuration's own members, in any order and among others, its storage is read back. -/
theorem ofTag?_view : ofTag? (view f s c.jsonMembers) c.tag = some c.stored := by
  have string (t : Option String) : Json.asNullable Json.asString s (f (stringOrNull t)) = some t :=
    hf.asNullable_orNull (fun _ _ => hf.asString_string _) rfl
  have word (t : Option Comparison) :
      Json.asNullable Comparison.ofJson? s (f (Json.orNull (t.map Comparison.toJson))) = some t :=
    hf.asNullable_orNull (fun _ _ => hf.comparison _) rfl
  cases c with
  | fieldCondition field comparison v =>
      have := asNullable_literal (s := s) hf fun w h => hc w (Option.mem_toList.mpr h)
      simp [ofTag?, tag, jsonMembers, members, string, word, this, stored]
  | withDefault field v =>
      have := asNullable_literal (s := s) hf fun w h => hc w (Option.mem_toList.mpr h)
      simp [ofTag?, tag, jsonMembers, members, string, this, stored]
  | call name args =>
      have := hf.asList_self (s := s) fun a h => hf.argument (hc a.value (List.mem_map_of_mem h))
      simp [ofTag?, tag, jsonMembers, members, string, this, stored]
  | template id params =>
      have := hf.parameters (s := s) fun e h => hc e.2 (List.mem_map_of_mem h)
      simp [ofTag?, tag, jsonMembers, members, string, this, stored]
  | length bound array limit =>
      have : Json.asNullable Json.asUInt64 s (f (Json.orNull (limit.map fun n => .nat n.toNat))) =
          some limit := hf.asNullable_orNull (fun n _ => hf.asUInt64_nat n) rfl
      simp [ofTag?, tag, jsonMembers, members, string, this, hf, stored]
  | quota kind count =>
      have : Json.asNullable Json.asUInt32 s (f (Json.orNull (count.map fun n => .nat n.toNat))) =
          some count := hf.asNullable_orNull (fun n _ => hf.asUInt32_nat n) rfl
      simp [ofTag?, tag, jsonMembers, members, this, hf, stored]
  | _ => simp [ofTag?, tag, jsonMembers, members, string, word, hf, stored]

/-- A configuration reads back from its JSON, but for a null. -/
theorem ofJson?_toJson : ofJson? s (f c.toJson) = some c.stored := by
  have readable := hf.readable c.expressible_toJson
  obtain ⟨ns, e, hp⟩ := hf.object c.nodup_jsonMembers
  have record (names : List String) :
      Json.Record.ofMembers names s ns = some (view f s c.jsonMembers) :=
    Rearranges.ofMembers_object c.nodup_jsonMembers hp names
  have tag : ConfigTag.ofJson? s (f (.string c.tag.name)) = some c.tag :=
    (hf.asShape_string _ _).trans (by cases c <;> rfl)
  have kind : Json.lookup "kind" c.jsonMembers = some (.string c.tag.name) :=
    (Json.lookup_eq_some_iff c.nodup_jsonMembers).mpr List.mem_cons_self
  have parts : ofParts? s (f c.toJson) = some c.stored := by
    show ofParts? s (f (.object c.jsonMembers)) = _
    rw [e, ofParts?]
    simp [record, tag, ofTag?_view hf hc, show Json.lookup "kind" c.jsonMembers = _ from kind]
  rw [ofJson?, Json.ofCopy, if_pos readable, parts]

end

end Config

/-! ### Trees -/

namespace Node

mutual

/-- The configurations in an embedded tree, each before those below it. -/
def configs : Node → List Config
  | ⟨_, _, _, children, _, config⟩ => config :: configsEntries children

/-- The configurations in several embedded trees. -/
def configsEntries : List Entry → List Config
  | [] => []
  | .ref _ :: es => configsEntries es
  | .node n :: es => configs n ++ configsEntries es

end

mutual

/-- The tree with every value absent that is there but null. -/
def stored : Node → Node
  | ⟨id, label, note, children, parent, config⟩ =>
    ⟨id, label, note, storedEntries children, parent, config.stored⟩

/-- Several trees with such values absent. -/
def storedEntries : List Entry → List Entry
  | [] => []
  | .ref id :: es => .ref id :: storedEntries es
  | .node n :: es => .node (stored n) :: storedEntries es

end

/-- Every number in the tree is finite. -/
def Finite (n : Node) : Prop := ∀ c ∈ n.configs, ∀ v ∈ c.literals, v.isRenderable = true

instance (n : Node) : Decidable n.Finite :=
  inferInstanceAs (Decidable (∀ c ∈ n.configs, ∀ v ∈ c.literals, v.isRenderable = true))

theorem configs_eq (n : Node) : n.configs = n.config :: configsEntries n.children := by
  cases n
  rfl

theorem mem_configsEntries_iff {c : Config} {es : List Entry} :
    c ∈ configsEntries es ↔ ∃ m, .node m ∈ es ∧ c ∈ m.configs := by
  induction es with
  | nil => simp [configsEntries]
  | cons e es ih => cases e <;> simp [configsEntries, ih, or_and_right, exists_or]

/-- A tree has finite numbers if its configuration and the trees embedded below it have. -/
theorem finite_iff {n : Node} : n.Finite ↔
    (∀ v ∈ n.config.literals, v.isRenderable = true) ∧ ∀ m, .node m ∈ n.children → m.Finite := by
  rw [Finite, configs_eq, List.forall_mem_cons]
  refine and_congr_right fun _ => ⟨fun h m hm c hc => ?_, fun h c hc => ?_⟩
  · exact h c (mem_configsEntries_iff.mpr ⟨m, hm, hc⟩)
  · obtain ⟨m, hm, hc⟩ := mem_configsEntries_iff.mp hc
    exact h m hm c hc

/-! #### Levels -/

theorem depth_lt_of_mem {n m : Node} (h : .node m ∈ n.children) : m.depth < n.depth := by
  have below (es : List Entry) (hm : .node m ∈ es) : m.depth ≤ depthEntries es := by
    induction es with
    | nil => cases hm
    | cons e es ih =>
        cases e with
        | ref id => exact ih (by simpa using hm)
        | node k =>
            rw [depthEntries]
            rcases List.mem_cons.mp hm with e | hm
            · obtain rfl := Entry.node.inj e
              exact Nat.le_max_left _ _
            · exact Nat.le_trans (ih hm) (Nat.le_max_right _ _)
  obtain ⟨id, label, note, children, parent, config⟩ := n
  have := below children h
  rw [depth]
  omega

theorem depth_le_of_forall {n : Node} {k : Nat} (h : ∀ m, .node m ∈ n.children → m.depth ≤ k) :
    n.depth ≤ k + 1 := by
  have below (es : List Entry) (hm : ∀ m, .node m ∈ es → m.depth ≤ k) : depthEntries es ≤ k := by
    induction es with
    | nil => exact Nat.zero_le k
    | cons e es ih =>
        have hes := ih fun m h => hm m (List.mem_cons_of_mem e h)
        cases e with
        | ref id => exact hes
        | node n => exact Nat.max_le.mpr ⟨hm n List.mem_cons_self, hes⟩
  obtain ⟨id, label, note, children, parent, config⟩ := n
  have := below children h
  rw [depth]
  omega

/-- **What holds of a tree as soon as it holds of those right below holds of every tree.** -/
theorem induction_embedded {p : Node → Prop}
    (step : ∀ n : Node, (∀ m, .node m ∈ n.children → p m) → p n) (n : Node) : p n := by
  induction h : n.depth using Nat.strongRecOn generalizing n with
  | ind d ih => exact step n fun m hm => ih m.depth (h ▸ depth_lt_of_mem hm) m rfl

/-! #### What is lost -/

mutual

/-- Storing a tree stores its configurations. -/
theorem configs_stored : (n : Node) → n.stored.configs = n.configs.map Config.stored
  | ⟨_, _, _, children, _, config⟩ => by
      rw [stored, configs, configs, List.map_cons, configsEntries_stored children]

theorem configsEntries_stored : (es : List Entry) →
    configsEntries (storedEntries es) = (configsEntries es).map Config.stored
  | [] => rfl
  | .ref _ :: es => configsEntries_stored es
  | .node n :: es => by
      rw [storedEntries, configsEntries, configsEntries, List.map_append, configs_stored n,
        configsEntries_stored es]

end

mutual

/-- A tree stays as it is just if no value in it is there but null. -/
theorem stored_eq_self_iff : (n : Node) → (n.stored = n ↔ ∀ c ∈ n.configs, c.holdsNull = false)
  | ⟨_, _, _, children, _, config⟩ => by
      simp only [stored, configs, List.forall_mem_cons, mk.injEq, true_and,
        storedEntries_eq_self_iff children, config.stored_eq_self_iff]
      exact and_comm

/-- A list of children is stored as it is unless one of their configurations holds null. -/
theorem storedEntries_eq_self_iff : (es : List Entry) →
    (storedEntries es = es ↔ ∀ c ∈ configsEntries es, c.holdsNull = false)
  | [] => by simp [storedEntries, configsEntries]
  | .ref _ :: es => by simp [storedEntries, configsEntries, storedEntries_eq_self_iff es]
  | .node n :: es => by
      simp [storedEntries, configsEntries, storedEntries_eq_self_iff es, stored_eq_self_iff n,
        or_imp, forall_and]

end

mutual

/-- A tree has the configurations of the rule that it mirrors. -/
theorem Mirrors.configs_eq : (n : Node) → (r : Rule) → n.Mirrors r →
    n.configs = r.preorder.map fun q => q.head.config
  | ⟨_, _, _, children, _, config⟩, r, h => by
      rw [configs, r.preorder_eq, List.map_cons, MirrorsAll.configs_eq children r.children h.2.2,
        h.1]

/-- Children that mirror rules have the rules' configurations, in pre-order. -/
theorem MirrorsAll.configs_eq : (es : List Entry) → (rs : List Rule) → MirrorsAll es rs →
    configsEntries es = (Rule.preorderAll rs).map fun q => q.head.config
  | [], [], _ => rfl
  | .node n :: es, r :: rs, h => by
      rw [configsEntries, Rule.preorderAll, List.map_append, Mirrors.configs_eq n r h.1,
        MirrorsAll.configs_eq es rs h.2]

end

/-- A tree that has lost a null is no rule. -/
theorem not_mirrors_stored {n : Node} {c : Config} (hc : c ∈ n.configs) (hn : c.holdsNull = true)
    (r : Rule) : ¬ n.stored.Mirrors r := by
  intro h
  have mem : c.stored ∈ n.stored.configs := by
    rw [configs_stored]
    exact List.mem_map_of_mem hc
  rw [h.configs_eq] at mem
  obtain ⟨q, -, e⟩ := List.mem_map.mp mem
  exact Config.stored_ne_config hn q.head e.symm

/-! #### JSON -/

/-- The JSON form of a child. -/
def entryToJson : Entry → Json
  | .ref id => .string id
  | .node n => n.toJson

/-- A child once it has been written and read back. -/
def entryStored : Entry → Entry
  | .ref id => .ref id
  | .node n => .node n.stored

theorem entriesToJson_eq_map (es : List Entry) : entriesToJson es = es.map entryToJson := by
  induction es with
  | nil => rfl
  | cons e es ih => cases e <;> rw [entriesToJson, ih, List.map_cons] <;> rfl

theorem storedEntries_eq_map (es : List Entry) : storedEntries es = es.map entryStored := by
  induction es with
  | nil => rfl
  | cons e es ih => cases e <;> rw [storedEntries, ih, List.map_cons] <;> rfl

theorem stored_eq (n : Node) : n.stored =
    ⟨n.id, n.label, n.note, n.children.map entryStored, n.parent, n.config.stored⟩ := by
  obtain ⟨id, label, note, children, parent, config⟩ := n
  rw [stored, storedEntries_eq_map]

/-- The members of the JSON object. -/
def jsonMembers (n : Node) : List (String × Json) :=
  ("id", .string n.id) ::
    (memberIfAny "label" .string n.label ++ memberIfAny "metadata" Metadata.toJson n.note ++
      ("children", .array (n.children.map entryToJson)) ::
      (memberIfAny "parentId" .string n.parent ++ [("config", n.config.toJson)]))

theorem toJson_eq (n : Node) : n.toJson = .object n.jsonMembers := by
  obtain ⟨id, label, note, children, parent, config⟩ := n
  rw [toJson, entriesToJson_eq_map]
  rfl

section Members

variable {α : Type} {name : String} {encode : α → Json}

@[simp] theorem lookup_memberIfAny (key : String) (a : Option α) :
    Json.lookup key (memberIfAny name encode a) = if name = key then a.map encode else none := by
  cases a <;> simp [memberIfAny]

theorem keys_memberIfAny (a : Option α) :
    ((memberIfAny name encode a).map Prod.fst).Sublist [name] := by
  cases a with
  | none => exact List.nil_sublist _
  | some a => exact .refl _

theorem expressible_memberIfAny (h : ∀ a, Expressible (encode a)) (a : Option α) :
    ∀ m ∈ memberIfAny name encode a, Expressible m.2 := by
  cases a with
  | none => exact fun _ hm => nomatch hm
  | some a => exact List.forall_mem_singleton.mpr (h a)

end Members

/-- No two members of the object have the same name. -/
theorem nodup_jsonMembers (n : Node) : (n.jsonMembers.map Prod.fst).Nodup := by
  have sub : (n.jsonMembers.map Prod.fst).Sublist memberNames := by
    simp only [jsonMembers, List.map_cons, List.map_append, List.append_assoc]
    refine .cons_cons _ ((keys_memberIfAny n.label).append ((keys_memberIfAny n.note).append ?_))
    exact .cons_cons _ ((keys_memberIfAny n.parent).append (.refl _))
  exact (by decide : memberNames.Nodup).sublist sub

theorem expressible_toJson (n : Node) : Expressible n.toJson := by
  induction n using induction_embedded with
  | step n ih =>
      have string (name : String) (t : Option String) :
          ∀ m ∈ memberIfAny name .string t, Expressible m.2 := by
        refine expressible_memberIfAny (fun _ => ?_) t
        trivial
      have children : Expressible (.array (n.children.map entryToJson)) := by
        refine expressibleAll_iff.mpr fun j hj => ?_
        obtain ⟨e, he, rfl⟩ := List.mem_map.mp hj
        cases e with
        | ref id => trivial
        | node m => exact ih m he
      rw [toJson_eq]
      refine expressibleMembers_iff.mpr fun m hm => ?_
      simp only [jsonMembers, List.mem_cons, List.mem_append, List.not_mem_nil, or_false] at hm
      rcases hm with rfl | (hm | hm) | rfl | hm | rfl
      · trivial
      · exact string "label" n.label m hm
      · exact expressible_memberIfAny Metadata.expressible_toJson n.note m hm
      · exact children
      · exact string "parentId" n.parent m hm
      · exact n.config.expressible_toJson

section

variable {f : Json → Json} {s : Json.Standing} (hf : Rearranges f)
include hf

omit hf in
/-- An optional member is read back if its value is, and null is not read as a value. -/
theorem optional_view {α : Type} {encode : α → Json} {decode : Json.Decoder α}
    {ms : List (String × Json)} {name : String} {a : Option α}
    (look : Json.lookup name ms = a.map encode) (h : ∀ b, decode s (f (encode b)) = some b)
    (hn : decode s .null = none) : (view f s ms).optional name decode = some a := by
  rw [Json.Record.optional_view, look]
  cases a with
  | none => rfl
  | some b => exact Rearranges.asNullable_eq_some (h b) hn

/-- The JSON of a tree is read as what is left of the tree, if those of the trees below are. -/
theorem ofJsonWith_toJson {inner : Json.Decoder Node} {n : Node}
    (hc : ∀ v ∈ n.config.literals, v.isRenderable = true)
    (hm : ∀ m, .node m ∈ n.children → inner .heldOut (f m.toJson) = some m.stored) :
    ofJsonWith inner s (f n.toJson) = some n.stored := by
  have entries : Json.asList (entryOfJson? inner) s (f (.array (n.children.map entryToJson))) =
      some (n.children.map entryStored) := by
    refine hf.asList_map fun e he => ?_
    cases e with
    | ref id =>
        rw [entryToJson, hf.string]
        rfl
    | node m =>
        obtain ⟨ns, e, -⟩ := hf.object m.nodup_jsonMembers
        have readable := hf.readable m.expressible_toJson
        have read := hm m he
        rw [toJson_eq, e] at readable read
        rw [entryToJson, toJson_eq, e, entryOfJson?, Json.ofCopy, if_pos readable, read]
        · rfl
        · nofun
  let r := view f s n.jsonMembers
  have id : r.required "id" Json.asString = some n.id := by simp [r, jsonMembers, hf]
  have label : r.optional "label" Json.asString = some n.label :=
    optional_view (by simp [jsonMembers]) hf.asString_string rfl
  have note : r.optional "metadata" Metadata.ofJson? = some n.note :=
    optional_view (by simp [jsonMembers]) hf.metadata rfl
  have children : r.withDefault "children" [] (Json.asList (entryOfJson? inner)) =
      some (n.children.map entryStored) := by simp [r, jsonMembers, entries]
  have parent : r.optional "parentId" Json.asString = some n.parent :=
    optional_view (by simp [jsonMembers]) hf.asString_string rfl
  have config : r.required "config" Config.ofJson? = some n.config.stored := by
    simp [r, jsonMembers, Config.ofJson?_toJson hf hc]
  have read : Json.Record.read memberNames s (f (.object n.jsonMembers)) = some r :=
    hf.read_object n.nodup_jsonMembers memberNames
  rw [toJson_eq, ofJsonWith, read, stored_eq]
  simp only [Option.bind_eq_bind, Option.bind_some, id, label, note, children, parent, config]

/-- A reader with as many levels as the tree reads what is left of it. -/
theorem ofJsonWithin_toJson {n : Node} (hn : n.Finite) {levels : Nat} (hd : n.depth ≤ levels) :
    ofJsonWithin levels s (f n.toJson) = some n.stored := by
  induction levels generalizing n s with
  | zero =>
      obtain ⟨id, label, note, children, parent, config⟩ := n
      rw [depth] at hd
      omega
  | succ levels ih =>
      obtain ⟨own, below⟩ := finite_iff.mp hn
      refine ofJsonWith_toJson hf own fun m hm => ih (below m hm) ?_
      exact Nat.le_of_lt_succ (Nat.lt_of_lt_of_le (depth_lt_of_mem hm) hd)

/-- A tree has no more levels than its JSON. -/
theorem depth_le_height (n : Node) : n.depth ≤ (f n.toJson).height := by
  induction n using induction_embedded with
  | step n ih =>
      have member : ("children", .array (n.children.map entryToJson)) ∈ n.jsonMembers := by
        simp [jsonMembers]
      have below : ∀ m, .node m ∈ n.children → m.depth ≤ (f n.toJson).height - 2 := by
        intro m hm
        have := ih m hm
        have item := hf.height_lt_array (List.mem_map_of_mem (f := entryToJson) hm)
        have outer := hf.height_lt_object n.nodup_jsonMembers member
        rw [toJson_eq n]
        simp only [entryToJson] at item outer
        omega
      have := depth_le_of_forall below
      have outer := hf.height_lt_object n.nodup_jsonMembers member
      have inner : 0 < (f (.array (n.children.map entryToJson))).height := by
        rw [hf.array, Json.height]
        omega
      rw [toJson_eq n] at this ⊢
      simp only at outer
      omega

/-- **A tree whose numbers are finite reads back from its JSON**, but for values that are there and
null. -/
theorem ofJson?_toJson {n : Node} (hn : n.Finite) : ofJson? s (f n.toJson) = some n.stored :=
  ofJsonWithin_toJson hf hn (depth_le_height hf n)

end

/-- A finite tree within the depth limit is read back as stored, from either of its texts. -/
theorem ofText?_text_eq_stored {n : Node} (hn : n.Finite)
    (hd : n.toJson.nesting ≤ Json.depthLimit) :
    Json.ofText? ofJson? n.toJson.text = some n.stored ∧
      Json.ofText? ofJson? n.toJson.spreadText = some n.stored := by
  have read : ofJson? .inPlace n.toJson = some n.stored := ofJson?_toJson Json.rearranges_id hn
  have hj := n.expressible_toJson
  exact ⟨by rw [Json.ofText?, Json.form?_text hj hd, Option.bind_some, read],
    by rw [Json.ofText?, Json.form?_spreadText hj hd, Option.bind_some, read]⟩

/-- **What is read from either text of a tree's JSON is the tree with every null value absent.**  So
it is the same tree just if no value that may be absent is there but null, and just then a tree that
is a rule is still the same rule. -/
theorem ofText?_text_toJson_stored {n : Node} (hn : n.Finite)
    (hd : n.toJson.nesting ≤ Json.depthLimit) :
    Json.ofText? ofJson? n.toJson.text = some n.stored ∧
      Json.ofText? ofJson? n.toJson.spreadText = some n.stored ∧
      (n.stored = n ↔ ∀ c ∈ n.configs, c.holdsNull = false) ∧
      ∀ r, n.toRule = .ok r → (n.stored.toRule = .ok r ↔ ∀ c ∈ n.configs, c.holdsNull = false) := by
  obtain ⟨compact, spread⟩ := ofText?_text_eq_stored hn hd
  refine ⟨compact, spread, n.stored_eq_self_iff, fun r hr => ⟨fun h c hc => ?_, fun h => ?_⟩⟩
  · by_contra hnull
    exact not_mirrors_stored hc (by simpa using hnull) r (toRule_eq_ok_iff.mp h).1
  · rw [n.stored_eq_self_iff.mpr h, hr]

/-- With children of both kinds, a record, an absent value, and a number three that is no
integer. -/
theorem ofText?_text_toJson_stored_mixed :
    let n : Node := ⟨"n1", some "Both", some ⟨none, none, none⟩,
      [.ref "n2", .node (.bare "n3" (.fieldCondition none none none)),
        .node (.bare "n4" (.withDefault (some "a") (some (.float (.ofDecimal false 3 0)))))],
      none, .quota .exactly (some 1)⟩
    Json.ofText? ofJson? n.toJson.text = some n ∧
      Json.ofText? ofJson? n.toJson.spreadText = some n := by
  intro n
  obtain ⟨compact, spread, same, -⟩ := ofText?_text_toJson_stored (n := n) (by decide) (by decide)
  rw [same.mpr (by decide)] at compact spread
  exact ⟨compact, spread⟩

/-- The tree of a comparison with null is another tree afterwards, and no rule. -/
theorem ofText?_text_toJson_null :
    let n : Node := .bare "n1" (.fieldCondition (some "a") (some .equals) (some .null))
    n.toRule = .ok (.compare "a" .equals .null) ∧ ∃ m, Json.ofText? ofJson? n.toJson.text = some m ∧
      m ≠ n ∧ m.toRule = .error (.missingField "n1" .fieldCondition "value") := by
  intro n
  refine ⟨rfl, n.stored, (ofText?_text_eq_stored (by decide) (by decide)).1, fun h => ?_, rfl⟩
  exact absurd (n.stored_eq_self_iff.mp h) (by decide)

end Node

end Rulebook
