import Rulebook.Proofs.Dsl.Check
import Rulebook.Proofs.Node.Supply
import Rulebook.Proofs.Rule.Tree

/-!
# Rulebook — Proofs — Node — Convert

Rules and embedded node trees are two forms of one thing.  A tree *mirrors* a rule if node by node
it has the rule's configuration and record.  Either conversion takes one form to the other exactly
if the two mirror each other and nodes can hold what the rule says.

* `toRule_eq_ok_iff`: a tree is converted to the rule that it mirrors.
* `mirrors_drawNodes`: the tree drawn for a rule mirrors it.
* `toNodeWith_inverse_toRule`: the two conversions are inverse to each other, and each succeeds
  exactly on what the other one makes.
-/

namespace Rulebook

/-! ### Heads -/

namespace Node

variable {n : Node} {field : String}

/-- A text that has to be there is read exactly if it is there and not empty. -/
theorem needText_eq_ok_iff {value : Option String} {s : String} :
    n.needText field value = .ok s ↔ value = some s ∧ s ≠ "" := by
  cases value with
  | none => simp [needText]
  | some t =>
      by_cases ht : t = ""
      · simp only [needText, if_pos ht]
        exact ⟨nofun, fun h => absurd (Option.some.inj h.1 ▸ ht) h.2⟩
      · simp only [needText, if_neg ht]
        exact ⟨fun h => Except.ok.inj h ▸ ⟨rfl, ht⟩, fun h => Option.some.inj h.1 ▸ rfl⟩

theorem needText_some {s : String} (h : s ≠ "") : n.needText field (some s) = .ok s :=
  needText_eq_ok_iff.mpr ⟨rfl, h⟩

/-- A part that has to be there is read exactly if it is there. -/
theorem needPart_eq_ok_iff {α : Type} {value : Option α} {a : α} :
    n.needPart field value = .ok a ↔ value = some a := by
  cases value <;> simp [needPart]

end Node

namespace Head

/-- A name passes the check exactly if it is not empty. -/
@[simp] theorem checkName_eq_ok_iff {what name : String} :
    checkName what name = .ok () ↔ name ≠ "" := by
  by_cases h : name = "" <;> simp [checkName, h]

/-- A condition names its field, and the other field if it compares two. -/
theorem check_condition_iff {c : Condition} : (atom (.condition c)).check = .ok () ↔
    (c.kind = .fieldReference → ∃ s, c.value = .string s ∧ s ≠ "") ∧ c.field ≠ "" := by
  obtain ⟨field, comparison, value, kind⟩ := c
  cases kind with
  | literal => simp [check, bind, Except.bind]
  | fieldReference =>
      cases value with
      | string s => by_cases hs : s = "" <;> simp [check, hs, bind, Except.bind]
      | _ => simp [check, bind, Except.bind]

/-- A call passes the check exactly if its name is not reserved and not empty. -/
theorem check_call_iff {name : String} {args : List Argument} :
    (atom (.call name args)).check = .ok () ↔ isReservedCall name = false ∧ name ≠ "" := by
  cases hr : isReservedCall name <;> simp [check, hr]

/-- A rule's node has as many children as its configuration asks for. -/
theorem arity_config (h : Head) : h.config.arity =
    match h with
    | .atom _ => some 0
    | .scope _ => some 1
    | .junction _ => none := by
  cases h with
  | atom a =>
      cases a with
      | condition c =>
          obtain ⟨field, comparison, value, kind⟩ := c
          cases kind <;> rfl
      | _ => rfl
  | scope s => cases s <;> rfl
  | junction j => cases j <;> rfl

end Head

namespace Node

variable {n : Node} {h : Head}

/-- A node with a head has the head's configuration, which passes the check in front of
drawing. -/
theorem config_of_head (hn : n.head = .ok h) : n.config = h.config ∧ h.check = .ok () := by
  rw [head] at hn
  cases hc : n.config <;> rw [hc] at hn <;>
    simp only [bind_eq_ok_iff, pure_eq_ok_iff, needText_eq_ok_iff, needPart_eq_ok_iff] at hn
  case fieldCondition =>
    obtain ⟨_, ⟨rfl, hf⟩, _, rfl, _, rfl, rfl⟩ := hn
    exact ⟨rfl, Head.check_condition_iff.mpr ⟨nofun, hf⟩⟩
  case fieldToField =>
    obtain ⟨_, ⟨rfl, hf⟩, _, rfl, right, ⟨rfl, hr⟩, rfl⟩ := hn
    exact ⟨rfl, Head.check_condition_iff.mpr ⟨fun _ => ⟨right, rfl, hr⟩, hf⟩⟩
  case uniqueBy =>
    obtain ⟨_, ⟨rfl, ha⟩, _, ⟨rfl, hk⟩, rfl⟩ := hn
    exact ⟨rfl, ok_andThen_iff.mpr
      ⟨Head.checkName_eq_ok_iff.mpr ha, Head.checkName_eq_ok_iff.mpr hk⟩⟩
  case call =>
    obtain ⟨name, ⟨rfl, hf⟩, hn⟩ := hn
    cases hr : isReservedCall name <;> rw [hr] at hn
    · cases hn
      exact ⟨rfl, Head.check_call_iff.mpr ⟨hr, hf⟩⟩
    · cases hn
  case group | quota =>
    -- junctions have nothing that could be missing in a drawn node
    first
    | obtain rfl := hn; exact ⟨rfl, rfl⟩
    | obtain ⟨_, rfl, rfl⟩ := hn; exact ⟨rfl, rfl⟩
  case length | withDefault =>
    obtain ⟨_, ⟨rfl, hf⟩, _, rfl, rfl⟩ := hn
    exact ⟨rfl, Head.checkName_eq_ok_iff.mpr hf⟩
  all_goals
    obtain ⟨_, ⟨rfl, hf⟩, rfl⟩ := hn
    exact ⟨rfl, Head.checkName_eq_ok_iff.mpr hf⟩

/-- A node with the configuration of a head that passes the check has that head. -/
theorem head_of_config (hn : n.config = h.config) (hc : h.check = .ok ()) : n.head = .ok h := by
  rw [head, hn]
  cases h with
  | atom a =>
      cases a with
      | condition c =>
          obtain ⟨field, comparison, value, kind⟩ := c
          obtain ⟨hv, hf⟩ := Head.check_condition_iff.mp hc
          cases kind with
          | literal =>
              simp only [Head.config, needText_some hf]
              rfl
          | fieldReference =>
              obtain ⟨s, rfl, hs⟩ := hv rfl
              simp only [Head.config, Literal.fieldName, needText_some hf, needText_some hs]
              rfl
      | uniqueBy array key =>
          obtain ⟨ha, hk⟩ := ok_andThen_iff.mp hc
          rw [Head.checkName_eq_ok_iff] at ha hk
          simp only [Head.config, needText_some ha, needText_some hk]
          rfl
      | call name args =>
          obtain ⟨hr, hf⟩ := Head.check_call_iff.mp hc
          simp only [Head.config, needText_some hf]
          exact if_neg (Bool.eq_false_iff.mp hr)
      | _ =>
          simp only [Head.config, needText_some (Head.checkName_eq_ok_iff.mp hc)]
          rfl
  | scope s =>
      cases s <;> simp only [Head.config, needText_some (Head.checkName_eq_ok_iff.mp hc)] <;> rfl
  | junction j => cases j <;> rfl

/-- A node has a head exactly if it has the head's configuration and that passes the check. -/
theorem head_eq_ok_iff : n.head = .ok h ↔ n.config = h.config ∧ h.check = .ok () :=
  ⟨config_of_head, fun hn => head_of_config hn.1 hn.2⟩

end Node

/-! ### Views of a rule -/

namespace Rule

/-- Every node of a rule passes its check exactly if the rule's head and the children's nodes do. -/
theorem checkNodes_ok_iff (r : Rule) : r.checkNodes = .ok () ↔
    r.head.check = .ok () ∧ checkNodesAll r.children = .ok () := by
  cases r with
  | atom a note => simp [checkNodes, checkNodesAll, head, children]
  | scope s body note =>
      have hbody : checkNodesAll [body] = .ok () ↔ checkNodes body = .ok () := by
        rw [checkNodesAll, ok_andThen_iff, checkNodesAll]
        exact and_iff_left rfl
      rw [checkNodes, ok_andThen_iff, head, children, hbody]
  | junction j members note => rw [checkNodes, ok_andThen_iff, head, children]

/-- The nodes of a list of rules pass their checks exactly if each rule's do. -/
theorem checkNodesAll_ok_iff {rs : List Rule} :
    checkNodesAll rs = .ok () ↔ ∀ r ∈ rs, r.checkNodes = .ok () := by
  induction rs with
  | nil => simp [checkNodesAll]
  | cons r rs ih => rw [checkNodesAll, ok_andThen_iff, ih]; simp

/-- A rule that may be drawn passes the checks of its nodes. -/
theorem checkNodes_of_checkDrawable {r : Rule} (h : r.checkDrawable = .ok ()) :
    r.checkNodes = .ok () := by
  rw [checkDrawable] at h
  split at h
  · cases h
  · exact h

/-- Every part of a rule that nodes can hold passes the check. -/
theorem check_head_of_checkNodes {r : Rule} (h : r.checkNodes = .ok ()) :
    ∀ q ∈ r.preorder, q.head.check = .ok () := by
  induction r using induction_children with
  | step r ih =>
      obtain ⟨head, below⟩ := r.checkNodes_ok_iff.mp h
      exact forall_mem_preorder_iff.mpr
        ⟨head, fun c hc => ih c hc (checkNodesAll_ok_iff.mp below c hc)⟩

/-- A rule whose configuration asks for a number of children has as many. -/
theorem length_children {r : Rule} {k : Nat} (h : r.head.config.arity = some k) :
    r.children.length = k := by
  rw [Head.arity_config] at h
  cases r with
  | junction j members note => cases h
  | _ => cases h; rfl

end Rule

/-! ### Mirrors -/

namespace Node

mutual

/-- Node by node, the tree has the configuration and the record of the rule. -/
def Mirrors : Node → Rule → Prop
  | ⟨_, _, note, children, _, config⟩, r =>
    config = r.head.config ∧ note = r.note ∧ MirrorsAll children r.children

/-- The entries are embedded trees that mirror the rules, one by one. -/
def MirrorsAll : List Entry → List Rule → Prop
  | [], [] => True
  | .node n :: es, r :: rs => Mirrors n r ∧ MirrorsAll es rs
  | _, _ => False

end

mutual

/-- Two trees are the same apart from ids, labels and parents. -/
def Alike : Node → Node → Prop
  | ⟨_, _, note, children, _, config⟩, m =>
    config = m.config ∧ note = m.note ∧ AlikeAll children m.children

/-- Two lists of embedded trees are the same, one by one, apart from ids, labels and parents. -/
def AlikeAll : List Entry → List Entry → Prop
  | [], [] => True
  | .node n :: es, .node m :: fs => Alike n m ∧ AlikeAll es fs
  | _, _ => False

end

mutual

/-- Every node below the top has the node it is a child of as its parent, and the top has the
parent that is given. -/
def Hangs (parent : Option String) : Node → Prop
  | ⟨id, _, _, children, above, _⟩ => above = parent ∧ HangsAll id children

/-- Embedded children have their node as their parent, and so on below. -/
def HangsAll (id : String) : List Entry → Prop
  | [] => True
  | .ref _ :: es => HangsAll id es
  | .node n :: es => Hangs (some id) n ∧ HangsAll id es

end

section

variable {n m : Node} {r : Rule} {es fs : List Entry} {rs : List Rule}

/-- A node mirrors a rule in its configuration, its note and its children. -/
theorem mirrors_iff : n.Mirrors r ↔
    n.config = r.head.config ∧ n.note = r.note ∧ MirrorsAll n.children r.children := by
  cases n
  rfl

/-- As many children mirror rules as there are rules. -/
theorem MirrorsAll.length_eq : ∀ {es : List Entry} {rs : List Rule}, MirrorsAll es rs →
    es.length = rs.length
  | [], [], _ => rfl
  | .node _ :: _, _ :: _, h => congrArg (· + 1) (MirrorsAll.length_eq h.2)

/-- Children that mirror rules are embedded. -/
theorem MirrorsAll.embedded : ∀ {es : List Entry} {rs : List Rule}, MirrorsAll es rs →
    ∀ e ∈ es, ∃ n, e = .node n
  | [], [], _, _, he => nomatch he
  | .node n :: _, _ :: _, h, e, he => by
      rcases List.mem_cons.mp he with rfl | he
      · exact ⟨n, rfl⟩
      · exact h.2.embedded e he

end

mutual

/-- A tree that mirrors a rule has as many nodes. -/
theorem Mirrors.count_eq : (n : Node) → (r : Rule) → n.Mirrors r → n.count = r.count
  | ⟨_, _, _, children, _, _⟩, r, h => by
      rw [count, r.count_eq, MirrorsAll.count_eq children r.children h.2.2]

theorem MirrorsAll.count_eq : (es : List Entry) → (rs : List Rule) → MirrorsAll es rs →
    countEntries es = Rule.countAll rs
  | [], [], _ => rfl
  | .node n :: es, r :: rs, h => by
      rw [countEntries, Rule.countAll, h.1.count_eq n r, MirrorsAll.count_eq es rs h.2]

end

mutual

/-- A tree that mirrors a rule is as deep. -/
theorem Mirrors.depth_eq : (n : Node) → (r : Rule) → n.Mirrors r → n.depth = r.depth
  | ⟨_, _, _, children, _, _⟩, r, h => by
      rw [depth, r.depth_eq, MirrorsAll.depth_eq children r.children h.2.2]

theorem MirrorsAll.depth_eq : (es : List Entry) → (rs : List Rule) → MirrorsAll es rs →
    depthEntries es = Rule.depthAll rs
  | [], [], _ => rfl
  | .node n :: es, r :: rs, h => by
      rw [depthEntries, Rule.depthAll, h.1.depth_eq n r, MirrorsAll.depth_eq es rs h.2]

end

mutual

/-- Two trees that mirror one rule are alike. -/
theorem Mirrors.alike : (m n : Node) → (r : Rule) → m.Mirrors r → n.Mirrors r → m.Alike n
  | ⟨_, _, _, es, _, _⟩, n, r, hm, hn => by
      obtain ⟨hc, hnote, hes⟩ := mirrors_iff.mp hn
      exact ⟨hm.1.trans hc.symm, hm.2.1.trans hnote.symm,
        MirrorsAll.alike es n.children r.children hm.2.2 hes⟩

/-- Trees that mirror the same rules are alike. -/
theorem MirrorsAll.alike : (es fs : List Entry) → (rs : List Rule) → MirrorsAll es rs →
    MirrorsAll fs rs → AlikeAll es fs
  | [], [], [], _, _ => trivial
  | [], _ :: _, [], _, hn => nomatch hn.length_eq
  | .node _ :: _, [], _ :: _, _, hn => hn.elim
  | .node m :: es, .node n :: fs, r :: rs, hm, hn =>
      ⟨Mirrors.alike m n r hm.1 hn.1, MirrorsAll.alike es fs rs hm.2 hn.2⟩

end

mutual

/-- A tree that is alike to one that mirrors a rule mirrors it too. -/
theorem Alike.mirrors : (m n : Node) → (r : Rule) → m.Alike n → n.Mirrors r → m.Mirrors r
  | ⟨_, _, _, es, _, _⟩, n, r, hm, hn => by
      obtain ⟨hc, hnote, hes⟩ := mirrors_iff.mp hn
      exact ⟨hm.1.trans hc, hm.2.1.trans hnote,
        AlikeAll.mirrors es n.children r.children hm.2.2 hes⟩

/-- A tree that is like one that mirrors rules mirrors them too. -/
theorem AlikeAll.mirrors : (es fs : List Entry) → (rs : List Rule) → AlikeAll es fs →
    MirrorsAll fs rs → MirrorsAll es rs
  | [], [], [], _, _ => trivial
  | .node m :: es, .node n :: fs, r :: rs, hm, hn =>
      ⟨Alike.mirrors m n r hm.1 hn.1, AlikeAll.mirrors es fs rs hm.2 hn.2⟩

end

/-! ### From nodes to rules -/

/-- The check of a node's children passes exactly if they are embedded. -/
theorem checkEmbedded_ok_iff {n : Node} :
    n.checkEmbedded = .ok () ↔ ∀ e ∈ n.children, ∃ m, e = .node m := by
  rw [checkEmbedded, forM_ok_iff]
  refine forall₂_congr fun e _ => ?_
  cases e <;> simp

/-- The check of a node's arity passes exactly if it has as many children as are asked for. -/
theorem checkArity_ok_iff {n : Node} : n.checkArity = .ok () ↔
    ∀ k, n.config.arity = some k → n.children.length = k := by
  rw [checkArity]
  cases ha : n.config.arity with
  | none => simp
  | some k => by_cases hk : n.children.length = k <;> simp [hk]

/-- A conversion is that of the head and of the trees below. -/
theorem convert_eq_ok_iff {n : Node} {r : Rule} : n.convert = .ok r ↔
    n.checkEmbedded = .ok () ∧ n.checkArity = .ok () ∧ n.head = .ok r.head ∧ n.note = r.note ∧
      convertEntries n.children = .ok r.children := by
  obtain ⟨id, label, note, children, parent, config⟩ := n
  rw [convert]
  constructor
  · intro h
    obtain ⟨_, he, h⟩ := bind_eq_ok_iff.mp h
    obtain ⟨_, ha, h⟩ := bind_eq_ok_iff.mp h
    obtain ⟨hd, hh, h⟩ := bind_eq_ok_iff.mp h
    refine ⟨he, ha, ?_⟩
    have arity := checkArity_ok_iff.mp ha
    rw [(config_of_head hh).1, hd.arity_config] at arity
    cases hd with
    | atom a =>
        -- an atom's node has no children, so there is nothing to convert
        obtain rfl := List.eq_nil_of_length_eq_zero (arity 0 rfl)
        obtain rfl := Except.ok.inj h
        exact ⟨hh, rfl, rfl⟩
    | scope s =>
        obtain ⟨rs, hrs, h⟩ := bind_eq_ok_iff.mp h
        split at h
        · obtain rfl := Except.ok.inj h
          exact ⟨hh, rfl, hrs⟩
        · cases h
    | junction j =>
        obtain ⟨rs, hrs, h⟩ := bind_eq_ok_iff.mp h
        obtain rfl := Except.ok.inj h
        exact ⟨hh, rfl, hrs⟩
  · rintro ⟨he, ha, hh, rfl, hrs⟩
    refine bind_eq_ok_iff.mpr ⟨(), he, bind_eq_ok_iff.mpr ⟨(), ha,
      bind_eq_ok_iff.mpr ⟨r.head, hh, ?_⟩⟩⟩
    cases r with
    | atom a note => rfl
    | scope s body note => exact bind_eq_ok_iff.mpr ⟨[body], hrs, rfl⟩
    | junction j members note => exact bind_eq_ok_iff.mpr ⟨members, hrs, rfl⟩

mutual

/-- A tree is converted, levels apart, to the rule that it mirrors and that nodes can hold. -/
theorem convert_eq_ok_iff_mirrors : (n : Node) → (r : Rule) →
    (n.convert = .ok r ↔ n.Mirrors r ∧ r.checkNodes = .ok ())
  | ⟨id, label, note, children, parent, config⟩, r => by
      rw [convert_eq_ok_iff, mirrors_iff, head_eq_ok_iff, r.checkNodes_ok_iff,
        checkEmbedded_ok_iff, checkArity_ok_iff]
      constructor
      · rintro ⟨he, -, ⟨hc, hk⟩, hn, hcs⟩
        obtain ⟨hm, hks⟩ := (convertEntries_eq_ok_iff children r.children he).mp hcs
        exact ⟨⟨hc, hn, hm⟩, hk, hks⟩
      · rintro ⟨⟨hc, hn, hm⟩, hk, hks⟩
        have he := hm.embedded
        refine ⟨he, fun k ha => ?_, ⟨hc, hk⟩, hn,
          (convertEntries_eq_ok_iff children r.children he).mpr ⟨hm, hks⟩⟩
        rw [hc] at ha
        exact hm.length_eq.trans (Rule.length_children ha)

/-- Embedded children are converted to the rules that they mirror and that nodes can hold. -/
theorem convertEntries_eq_ok_iff : (es : List Entry) → (rs : List Rule) →
    (∀ e ∈ es, ∃ n, e = .node n) →
    (convertEntries es = .ok rs ↔ MirrorsAll es rs ∧ Rule.checkNodesAll rs = .ok ())
  | [], [], _ => by simp [convertEntries, pure_eq_ok_iff, MirrorsAll, Rule.checkNodesAll]
  | [], r :: rs, _ => by simp [convertEntries, pure_eq_ok_iff, MirrorsAll]
  | .ref id :: es, _, h => by
      obtain ⟨n, hn⟩ := h (.ref id) List.mem_cons_self
      cases hn
  | .node n :: es, [], _ => by
      simp only [convertEntries, bind_eq_ok_iff, pure_eq_ok_iff, MirrorsAll, false_and, iff_false]
      rintro ⟨r, -, rs, -, h⟩
      cases h
  | .node n :: es, r :: rs, h => by
      have hes := convertEntries_eq_ok_iff es rs fun e he => h e (List.mem_cons_of_mem _ he)
      have hn := convert_eq_ok_iff_mirrors n r
      rw [Rule.checkNodesAll, ok_andThen_iff, MirrorsAll]
      simp only [convertEntries, bind_eq_ok_iff, pure_eq_ok_iff, List.cons.injEq]
      constructor
      · rintro ⟨_, hr, _, hrs, rfl, rfl⟩
        obtain ⟨hm, hk⟩ := hn.mp hr
        obtain ⟨hms, hks⟩ := hes.mp hrs
        exact ⟨⟨hm, hms⟩, hk, hks⟩
      · rintro ⟨⟨hm, hms⟩, hk, hks⟩
        exact ⟨r, hn.mpr ⟨hm, hk⟩, rs, hes.mpr ⟨hms, hks⟩, rfl, rfl⟩

end

/-- **A tree is converted to the rule that it mirrors**, if the rule can be drawn. -/
theorem toRule_eq_ok_iff {n : Node} {r : Rule} :
    n.toRule = .ok r ↔ n.Mirrors r ∧ r.checkDrawable = .ok () := by
  rw [toRule, Rule.checkDrawable]
  by_cases hm : n.Mirrors r
  · rw [hm.depth_eq]
    by_cases hd : nestingLimit < r.depth
    · simp [hd]
    · simp only [if_neg hd]
      exact convert_eq_ok_iff_mirrors n r
  · refine ⟨fun h => ?_, fun h => absurd h.1 hm⟩
    by_cases hd : nestingLimit < n.depth
    · rw [if_pos hd] at h
      cases h
    · rw [if_neg hd] at h
      exact absurd ((convert_eq_ok_iff_mirrors n r).mp h).1 hm

end Node

/-! ### From rules to nodes -/

namespace Rule

mutual

/-- The tree drawn for a rule mirrors it, and hangs from the parent that is given. -/
theorem mirrors_drawNodes (parent : Option String) (s : IdSupply) : (r : Rule) →
    (drawNodes parent s r).1.Mirrors r ∧ (drawNodes parent s r).1.Hangs parent
  | .atom a note => ⟨⟨rfl, rfl, trivial⟩, rfl, trivial⟩
  | .scope sc body note => by
      obtain ⟨hm, hh⟩ := mirrors_drawNodes (some s.draw.1) s.draw.2 body
      exact ⟨⟨rfl, rfl, hm, trivial⟩, rfl, hh, trivial⟩
  | .junction j members note => by
      obtain ⟨hm, hh⟩ := mirrorsAll_drawEntries s.draw.1 s.draw.2 members
      exact ⟨⟨rfl, rfl, hm⟩, rfl, hh⟩

/-- The children drawn for rules mirror them, and hang from their node. -/
theorem mirrorsAll_drawEntries (id : String) (s : IdSupply) : (rs : List Rule) →
    Node.MirrorsAll (drawEntries id s rs).1 rs ∧ Node.HangsAll id (drawEntries id s rs).1
  | [] => ⟨trivial, trivial⟩
  | r :: rs => by
      obtain ⟨hm, hh⟩ := mirrors_drawNodes (some id) s r
      obtain ⟨hms, hhs⟩ := mirrorsAll_drawEntries id (drawNodes (some id) s r).2 rs
      exact ⟨⟨hm, hms⟩, hh, hhs⟩

end

/-- A rule is drawn exactly if it may be, and then as `drawNodes` says. -/
theorem toNodeWith_eq_ok_iff {r : Rule} {s : IdSupply} {p : Node × IdSupply} :
    r.toNodeWith s = .ok p ↔ r.checkDrawable = .ok () ∧ r.drawNodes none s = p := by
  rw [toNodeWith, bind_eq_ok_iff]
  constructor
  · rintro ⟨_, hk, hp⟩
    exact ⟨hk, Except.ok.inj hp⟩
  · rintro ⟨hk, hp⟩
    exact ⟨(), hk, congrArg _ hp⟩

/-- A tree that is drawn mirrors its rule, and is converted back to it. -/
theorem toRule_of_toNodeWith {r : Rule} {s t : IdSupply} {n : Node}
    (h : r.toNodeWith s = .ok (n, t)) : n.Mirrors r ∧ n.toRule = .ok r := by
  obtain ⟨hk, hd⟩ := toNodeWith_eq_ok_iff.mp h
  have hm := (r.mirrors_drawNodes none s).1
  rw [hd] at hm
  exact ⟨hm, Node.toRule_eq_ok_iff.mpr ⟨hm, hk⟩⟩

/-- A rule that a tree is converted to is drawn, and both trees mirror it. -/
theorem toNodeWith_of_toRule {n : Node} {r : Rule} (h : n.toRule = .ok r) (s : IdSupply) :
    ∃ m t, r.toNodeWith s = .ok (m, t) ∧ m.Mirrors r ∧ n.Mirrors r := by
  obtain ⟨hm, hk⟩ := Node.toRule_eq_ok_iff.mp h
  exact ⟨_, _, toNodeWith_eq_ok_iff.mpr ⟨hk, rfl⟩, (r.mirrors_drawNodes none s).1, hm⟩

/-- **The two conversions are inverse to each other.**  A drawn tree is converted back to its rule,
has as many nodes and levels, hangs together and takes its ids from the supply; a tree that is
converted is alike to any drawn for its rule.  Each conversion succeeds exactly on what the other
one makes. -/
theorem toNodeWith_inverse_toRule :
    (∀ (r : Rule) (s t : IdSupply) (n : Node), r.toNodeWith s = .ok (n, t) →
      n.toRule = .ok r ∧ n.count = r.count ∧ n.depth = r.depth ∧ n.Hangs none ∧
        s.Draws (Grove.ids [n.branch]) t) ∧
    (∀ (n : Node) (r : Rule), n.toRule = .ok r →
      ∀ s, ∃ m t, r.toNodeWith s = .ok (m, t) ∧ m.Alike n) ∧
    (∀ (r : Rule) (s : IdSupply), (∃ p, r.toNodeWith s = .ok p) ↔ ∃ n : Node, n.toRule = .ok r) ∧
    ∀ n : Node, (∃ r, n.toRule = .ok r) ↔
      ∃ (r : Rule) (s t : IdSupply) (m : Node), r.toNodeWith s = .ok (m, t) ∧ n.Alike m := by
  refine ⟨fun r s t n h => ?_, fun n r h s => ?_, fun r s => ⟨fun ⟨p, h⟩ => ?_, fun ⟨n, h⟩ => ?_⟩,
    fun n => ⟨fun ⟨r, h⟩ => ?_, fun ⟨r, s, t, m, h, ha⟩ => ?_⟩⟩
  · obtain ⟨hm, hr⟩ := toRule_of_toNodeWith h
    have hd := (r.draws_drawNodes none s).2
    have hh := (r.mirrors_drawNodes none s).2
    rw [toNodeWith_eq_ok h] at hd hh
    exact ⟨hr, hm.count_eq, hm.depth_eq, hh, hd⟩
  · obtain ⟨m, t, hd, hm, hn⟩ := toNodeWith_of_toRule h s
    exact ⟨m, t, hd, hm.alike _ _ _ hn⟩
  · exact ⟨p.1, (toRule_of_toNodeWith h).2⟩
  · obtain ⟨m, t, hd, -, -⟩ := toNodeWith_of_toRule h s
    exact ⟨_, hd⟩
  · obtain ⟨m, t, hd, hm, hn⟩ := toNodeWith_of_toRule h .fresh
    exact ⟨r, .fresh, t, m, hd, hn.alike _ _ _ hm⟩
  · obtain ⟨hm, hr⟩ := toRule_of_toNodeWith h
    exact ⟨r, Node.toRule_eq_ok_iff.mpr
      ⟨ha.mirrors _ _ _ hm, (Node.toRule_eq_ok_iff.mp hr).2⟩⟩

/-- A negated comparison is drawn, and its tree is converted back to it. -/
theorem toNodeWith_inverse_toRule_not :
    ∃ n t, (group .not [compare "age" .lessThan (.int 18)]).toNodeWith .fresh = .ok (n, t) ∧
      n.toRule = .ok (group .not [compare "age" .lessThan (.int 18)]) ∧ n.count = 2 ∧ n.depth = 2 :=
  have drawn := toNodeWith_inverse_toRule.1 (group .not [compare "age" .lessThan (.int 18)])
    .fresh _ _ (toNodeWith_eq_ok_iff.mpr ⟨rfl, rfl⟩)
  ⟨_, _, rfl, drawn.1, drawn.2.1, drawn.2.2.1⟩

end Rule

end Rulebook
