import Rulebook.Node.Codec
import Rulebook.Proofs.Node.Convert

/-!
# Rulebook — Proofs — Node — Agreement

Configurations are compared by their JSON, where what is absent, what is null and a number that is
not finite are all null.

* `Config.agrees_toJson_self`: a configuration always agrees with itself.
* `Head.agrees_of_toJson`: the configurations of two rules agree only if the rules do, levels
  below apart, as long as every number in them is finite.
-/

namespace Rulebook

/-! ### A value and itself -/

/-- A finite number agrees with itself. -/
theorem Binary64.agrees_self {x : Binary64} (h : x.isFinite = true) : x.agrees x = true := by
  have hn : x.isNaN = false := by
    simp only [isFinite, decide_eq_true_eq] at h
    simp only [isNaN, decide_eq_false_iff_not, Nat.not_lt]
    exact Nat.le_of_lt h
  simp [agrees, hn]

namespace Json

/-- Members agree with themselves if each value does. -/
theorem agreesMembers_self {ms : List (String × Json)}
    (h : ∀ m ∈ ms, m.2.agrees m.2 = true) : agreesMembers ms ms = true := by
  induction ms with
  | nil => rfl
  | cons m ms ih =>
      obtain ⟨hm, hms⟩ := List.forall_mem_cons.mp h
      simp [agreesMembers, hm, ih hms]

theorem agreesAll_self {js : List Json} (h : ∀ j ∈ js, j.agrees j = true) :
    agreesAll js js = true := by
  induction js with
  | nil => rfl
  | cons j js ih =>
      obtain ⟨hj, hjs⟩ := List.forall_mem_cons.mp h
      simp [agreesAll, hj, ih hjs]

mutual

/-- Canonical JSON, which has only finite numbers, agrees with itself. -/
theorem agrees_self_of_canonical : (j : Json) → j.Canonical → j.agrees j = true
  | .null, _ => rfl
  | .bool b, _ => by simp [agrees]
  | .int n, _ => by simp [agrees]
  | .float x, h => Binary64.agrees_self h
  | .string s, _ => by simp [agrees]
  | .array items, h => agreesAll_self_of_canonical items h
  | .object members, h => agreesMembers_self_of_canonical members h.2
  | .unreadable, h => h.elim

theorem agreesAll_self_of_canonical : (js : List Json) → CanonicalAll js →
    agreesAll js js = true
  | [], _ => rfl
  | j :: js, h => by
      simp [agreesAll, agrees_self_of_canonical j h.1, agreesAll_self_of_canonical js h.2]

theorem agreesMembers_self_of_canonical : (ms : List (String × Json)) → CanonicalMembers ms →
    agreesMembers ms ms = true
  | [], _ => rfl
  | (_, j) :: ms, h => by
      simp [agreesMembers, agrees_self_of_canonical j h.1,
        agreesMembers_self_of_canonical ms h.2]

end

@[simp] theorem agrees_string {s t : String} :
    (Json.string s).agrees (.string t) = true ↔ s = t := by
  simp [agrees]

@[simp] theorem agrees_nat {m n : Nat} : (nat m).agrees (nat n) = true ↔ m = n := by
  simp only [nat, agrees, decide_eq_true_eq, Int.natCast_inj]

end Json

@[simp] theorem Json.orNull_some (j : Json) : orNull (some j) = j := rfl

@[simp] theorem Config.stringOrNull_some (s : String) : stringOrNull (some s) = .string s := rfl

/-! ### Names tell words apart -/

/-- A comparison is determined by its name. -/
@[simp] theorem Comparison.name_inj {a b : Comparison} : a.name = b.name ↔ a = b := by
  cases a <;> cases b <;> simp [name]

/-- A kind of operand is determined by its name. -/
@[simp] theorem OperandKind.name_inj {a b : OperandKind} : a.name = b.name ↔ a = b := by
  cases a <;> cases b <;> simp [name]

/-- A connective is determined by its name. -/
@[simp] theorem Connective.name_inj {a b : Connective} : a.name = b.name ↔ a = b := by
  cases a <;> cases b <;> simp [name]

/-- A requirement is determined by its name. -/
@[simp] theorem Requirement.name_inj {a b : Requirement} : a.name = b.name ↔ a = b := by
  cases a <;> cases b <;> simp [name]

/-- A bound of a length is determined by its name. -/
@[simp] theorem LengthBound.name_inj {a b : LengthBound} : a.name = b.name ↔ a = b := by
  cases a <;> cases b <;> simp [name]

/-- A guard is determined by its name. -/
@[simp] theorem Guard.name_inj {a b : Guard} : a.name = b.name ↔ a = b := by
  cases a <;> cases b <;> simp [name]

/-- A quota is determined by its name. -/
@[simp] theorem Quota.name_inj {a b : Quota} : a.name = b.name ↔ a = b := by
  cases a <;> cases b <;> simp [name]

/-- A configuration's tag is determined by its name. -/
@[simp] theorem ConfigTag.name_inj {a b : ConfigTag} : a.name = b.name ↔ a = b := by
  cases a <;> cases b <;> simp [name]

/-! ### Parts and themselves -/

/-- A literal's JSON agrees with itself, a number that is not finite being null there. -/
theorem Literal.agrees_toJson_self (v : Literal) : v.toJson.agrees v.toJson = true := by
  cases v with
  | float x =>
      rw [toJson]
      by_cases h : x.isFinite = true
      · rw [if_pos h]
        exact Binary64.agrees_self h
      · rw [if_neg h]
        rfl
  | _ => simp [toJson, Json.agrees]

theorem Argument.agrees_toJson_self (a : Argument) : a.toJson.agrees a.toJson = true := by
  simp [toJson, Json.agrees, Json.agreesMembers, a.value.agrees_toJson_self, OperandKind.toJson]

/-- A value that may be absent agrees with itself if it does where it is present. -/
theorem Json.agrees_orNull_self {α : Type} {encode : α → Json} (a : Option α)
    (h : ∀ x, (encode x).agrees (encode x) = true) :
    (orNull (a.map encode)).agrees (orNull (a.map encode)) = true := by
  cases a with
  | none => rfl
  | some x => exact h x

/-- **A configuration agrees with itself in JSON.** -/
theorem Config.agrees_toJson_self (c : Config) : c.toJson.agrees c.toJson = true := by
  have string (s : Option String) : (stringOrNull s).agrees (stringOrNull s) = true :=
    Json.agrees_orNull_self s fun t => by simp
  have comparison (c : Option Comparison) :
      (Json.orNull (c.map Comparison.toJson)).agrees (Json.orNull (c.map Comparison.toJson)) = true :=
    Json.agrees_orNull_self c fun d => by simp [Comparison.toJson]
  have value (v : Option Literal) := Json.agrees_orNull_self v Literal.agrees_toJson_self
  have members : ∀ m ∈ c.members, m.2.agrees m.2 = true := by
    cases c with
    | length bound array limit =>
        have (n : UInt64) : (Json.nat n.toNat).agrees (.nat n.toNat) = true := by simp
        simp [members, string, LengthBound.toJson, Json.agrees_orNull_self limit this]
    | quota kind count =>
        have (n : UInt32) : (Json.nat n.toNat).agrees (.nat n.toNat) = true := by simp
        simp [members, Quota.toJson, Json.agrees_orNull_self count this]
    | call name args =>
        have : Json.agreesAll (args.map Argument.toJson) (args.map Argument.toJson) = true := by
          refine Json.agreesAll_self fun j hj => ?_
          obtain ⟨a, -, rfl⟩ := List.mem_map.mp hj
          exact a.agrees_toJson_self
        simp [members, string, Json.agrees, this]
    | template id params =>
        have : (params.toJson Literal.toJson).agrees (params.toJson Literal.toJson) = true := by
          refine Json.agreesMembers_self fun m hm => ?_
          obtain ⟨e, -, rfl⟩ := List.mem_map.mp hm
          exact e.2.agrees_toJson_self
        simp [members, string, this]
    | custom name payload =>
        have := payload.value.agrees_self_of_canonical payload.canonical
        simp [members, string, this]
    | _ =>
        simp [members, string, comparison, value, Connective.toJson, Requirement.toJson,
          Guard.toJson]
  rw [toJson, Json.agrees, Json.agreesMembers, Json.agreesMembers_self members]
  simp

/-! ### From the JSON to the parts -/

/-- Finite numbers that agree in JSON agree. -/
theorem Literal.agrees_of_toJson {v w : Literal} (hv : v.isRenderable = true)
    (hw : w.isRenderable = true) (h : v.toJson.agrees w.toJson = true) : v.agrees w = true := by
  cases v <;> cases w <;>
    simp_all [toJson, isRenderable, Json.agrees, agrees, Int64.toInt_inj]

/-- Arguments with finite numbers agree if their JSON does. -/
theorem Argument.agrees_of_toJson {a b : Argument} (ha : a.value.isRenderable = true)
    (hb : b.value.isRenderable = true) (h : a.toJson.agrees b.toJson = true) :
    a.agrees b = true := by
  obtain ⟨v, k⟩ := a
  obtain ⟨w, l⟩ := b
  obtain ⟨hv, rfl⟩ : v.toJson.agrees w.toJson = true ∧ k = l := by
    simpa [toJson, Json.agrees, Json.agreesMembers, OperandKind.toJson] using h
  simp [agrees, Literal.agrees_of_toJson ha hb hv]

namespace Head

/-- The values in a head. -/
def literals : Head → List Literal
  | .atom (.condition c) => [c.value]
  | .atom (.call _ args) => args.map Argument.value
  | .atom (.template _ params) => params.entries.map Prod.snd
  | .scope (.withDefault _ v) => [v]
  | _ => []

/-- Equality of heads, floating-point numbers by value. -/
def agrees : Head → Head → Bool
  | .atom a, .atom b => a.agrees b
  | .scope s, .scope t => s.agrees t
  | .junction j, .junction k => j = k
  | _, _ => false

variable {g h : Head}

/-- Configurations whose JSON agrees have one tag and members that agree. -/
theorem tag_eq_of_toJson (hj : g.config.toJson.agrees h.config.toJson = true) :
    g.config.tag = h.config.tag ∧
      Json.agreesMembers g.config.members h.config.members = true := by
  simpa [Config.toJson, Json.agrees, Json.agreesMembers] using hj

/-- Lists of arguments agree if their JSON does. -/
theorem isEqv_arguments {as bs : List Argument}
    (ha : ∀ a ∈ as, a.value.isRenderable = true) (hb : ∀ b ∈ bs, b.value.isRenderable = true)
    (h : Json.agreesAll (as.map Argument.toJson) (bs.map Argument.toJson) = true) :
    as.isEqv bs Argument.agrees = true := by
  induction as generalizing bs with
  | nil =>
      cases bs with
      | nil => rfl
      | cons b bs => simp [Json.agreesAll] at h
  | cons a as ih =>
      cases bs with
      | nil => simp [Json.agreesAll] at h
      | cons b bs =>
          simp only [List.map_cons, Json.agreesAll, Bool.and_eq_true] at h
          rw [List.forall_mem_cons] at ha hb
          simp [List.isEqv, Argument.agrees_of_toJson ha.1 hb.1 h.1, ih ha.2 hb.2 h.2]

/-- Lists of parameters agree if their JSON does. -/
theorem isEqv_parameters {ps qs : List (String × Literal)}
    (hp : ∀ p ∈ ps, p.2.isRenderable = true) (hq : ∀ q ∈ qs, q.2.isRenderable = true)
    (h : Json.agreesMembers (ps.map fun e => (e.1, e.2.toJson))
      (qs.map fun e => (e.1, e.2.toJson)) = true) :
    ps.isEqv qs (fun p q => p.1 = q.1 && p.2.agrees q.2) = true := by
  induction ps generalizing qs with
  | nil =>
      cases qs with
      | nil => rfl
      | cons q qs => simp [Json.agreesMembers] at h
  | cons p ps ih =>
      cases qs with
      | nil => simp [Json.agreesMembers] at h
      | cons q qs =>
          simp only [List.map_cons, Json.agreesMembers, Bool.and_eq_true, decide_eq_true_eq] at h
          rw [List.forall_mem_cons] at hp hq
          obtain ⟨⟨hk, hv⟩, hrest⟩ := h
          simp [List.isEqv, hk, Literal.agrees_of_toJson hp.1 hq.1 hv, ih hp.2 hq.2 hrest]

/-- **The configurations of two rules agree in JSON only if the heads do**, as long as every number
in them is finite. -/
theorem agrees_of_toJson (hg : g.check = .ok ()) (hh : h.check = .ok ())
    (fg : ∀ v ∈ g.literals, v.isRenderable = true) (fh : ∀ v ∈ h.literals, v.isRenderable = true)
    (hj : g.config.toJson.agrees h.config.toJson = true) : g.agrees h = true := by
  obtain ⟨ht, hm⟩ := tag_eq_of_toJson hj
  cases g <;> cases h
  case atom.atom a b =>
    cases a <;> cases b
    case condition.condition c d =>
      obtain ⟨field, comparison, value, kind⟩ := c
      obtain ⟨field', comparison', value', kind'⟩ := d
      cases kind <;> cases kind' <;> try cases ht
      case literal.literal =>
        obtain ⟨rfl, rfl, hv⟩ : field = field' ∧ comparison = comparison' ∧
            value.toJson.agrees value'.toJson = true := by
          simpa [config, Config.members, Json.agreesMembers, Comparison.toJson] using hm
        have := Literal.agrees_of_toJson (fg value List.mem_cons_self)
          (fh value' List.mem_cons_self) hv
        simp [agrees, Atom.agrees, Condition.agrees, this]
      case fieldReference.fieldReference =>
        -- what a configuration keeps of a reference is its name, and both are names
        obtain ⟨s, rfl, -⟩ := (check_condition_iff.mp hg).1 rfl
        obtain ⟨t, rfl, -⟩ := (check_condition_iff.mp hh).1 rfl
        obtain ⟨rfl, rfl, rfl⟩ : field = field' ∧ comparison = comparison' ∧ s = t := by
          simpa [config, Config.members, Json.agreesMembers, Comparison.toJson,
            Literal.fieldName] using hm
        simp [agrees, Atom.agrees, Condition.agrees, Literal.agrees]
    case call.call name as name' bs =>
      obtain ⟨rfl, hv⟩ : name = name' ∧
          Json.agreesAll (as.map Argument.toJson) (bs.map Argument.toJson) = true := by
        simpa [config, Config.members, Json.agreesMembers, Json.agrees] using hm
      have := isEqv_arguments (fun a ha => fg _ (List.mem_map_of_mem ha))
        (fun b hb => fh _ (List.mem_map_of_mem hb)) hv
      simp [agrees, Atom.agrees, this]
    case template.template id ps id' qs =>
      obtain ⟨rfl, hv⟩ : id = id' ∧
          (ps.toJson Literal.toJson).agrees (qs.toJson Literal.toJson) = true := by
        simpa [config, Config.members, Json.agreesMembers] using hm
      have := isEqv_parameters (fun p hp => fg _ (List.mem_map_of_mem hp))
        (fun q hq => fh _ (List.mem_map_of_mem hq)) hv
      simp [agrees, Atom.agrees, this]
    case length.length bound array limit bound' array' limit' =>
      obtain ⟨rfl, rfl, rfl⟩ : bound = bound' ∧ array = array' ∧ limit = limit' := by
        simpa [config, Config.members, Json.agreesMembers, LengthBound.toJson,
          UInt64.toNat_inj] using hm
      simp [agrees, Atom.agrees]
    case uniqueBy.uniqueBy | contextual.contextual | expression.expression | custom.custom =>
      simp_all [config, Config.members, Json.agreesMembers, agrees, Atom.agrees, Payload.agrees]
    all_goals
      first
      | cases ht
      | cases ‹Condition› with | mk _ _ _ kind => cases kind <;> cases ht
  case scope.scope s t =>
    cases s <;> cases t <;> try cases ht
    case withDefault.withDefault field v field' w =>
      obtain ⟨rfl, hv⟩ : field = field' ∧ v.toJson.agrees w.toJson = true := by
        simpa [config, Config.members, Json.agreesMembers] using hm
      have := Literal.agrees_of_toJson (fg v List.mem_cons_self) (fh w List.mem_cons_self) hv
      simp [agrees, Scope.agrees, this]
    all_goals
      simp_all [config, Config.members, Json.agreesMembers, Requirement.toJson, Guard.toJson,
        agrees, Scope.agrees]
  case junction.junction j k =>
    cases j <;> cases k <;> try cases ht
    all_goals
      simp_all [config, Config.members, Json.agreesMembers, Connective.toJson, Quota.toJson,
        UInt32.toNat_inj, agrees]
  all_goals
    rename_i x y
    cases x <;> cases y
    all_goals
      first
      | cases ht
      | cases ‹Condition› with | mk _ _ _ kind => cases kind <;> cases ht

end Head

end Rulebook
