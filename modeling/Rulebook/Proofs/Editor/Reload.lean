import Rulebook.Proofs.Editor.Invariant
import Rulebook.Proofs.Node.Rebuild

/-!
# Rulebook — Proofs — Editor — Reload

What an editor writes as JSON can be loaded by any editor.  The text holds the rules of the roots,
in order; they are read as they were, drawn as trees with new ids, put into the store, and put
together again as the same rules.

* `Transfer.rulesOfJson_spreadText`: the rules are read back.
* `Transfer.mapM_ruleBelow_append`: what is appended to a document are the rules that were drawn.
* `Editor.load_write`: loading what was written, in place of what there is or behind it.
-/

namespace Rulebook

open Json (Rearranges)

/-! ### Trimming -/

namespace Text

/-- Text that starts with no blank is not trimmed at its start. -/
theorem trimStart_cons {c : Char} (h : isBlank c = false) (cs : List Char) :
    trimStart (c :: cs) = c :: cs := by
  simp [trimStart, h]

/-- A text without blanks around it stays as it is. -/
theorem trim_eq_self {c d : Char} {cs ds : List Char} (hc : isBlank c = false)
    (hd : isBlank d = false) (e : c :: cs = ds ++ [d]) : trim (c :: cs) = c :: cs := by
  rw [trim, trimStart_cons hc, trimEnd, e, List.reverse_append, List.reverse_singleton,
    List.singleton_append, List.dropWhile_cons_of_neg (by simp [hd])]
  simp

end Text

namespace Transfer

open Grove

/-! ### In -/

/-- **A rule is read from its JSON**, also with the members of its objects in another order. -/
theorem ruleOfJson_canonicalize {r : Rule} (hr : r.Finite) :
    ruleOfJson r.toJson.canonicalize = .ok r := by
  have type : r.toJson.canonicalize.get? "type" ≠ none := by
    rw [r.toJson_eq, Json.rearranges_canonicalize.get?_object r.nodup_jsonMembers, r.lookup_type]
    nofun
  have read : Rule.ofJson? .inPlace r.toJson.canonicalize = some r :=
    Rule.ofJson?_toJson Json.rearranges_canonicalize hr
  rw [ruleOfJson]
  split
  · exact absurd ‹_› type
  · rw [read]

/-- The spread text of an array stands between its brackets. -/
theorem exists_spreadFrom_array (js : List Json) :
    ∃ inner, Json.spreadFrom 0 (.array js) = '[' :: (inner ++ [']']) := by
  cases js with
  | nil => exact ⟨[], rfl⟩
  | cons j js => exact ⟨_, by rw [Json.spreadFrom]⟩

/-- **The rules that were written are read back.** -/
theorem rulesOfJson_spreadText {rules : List Rule} (finite : ∀ r ∈ rules, r.Finite)
    (shallow : (Json.array (rules.map Rule.toJson)).nesting ≤ Json.depthLimit) :
    rulesOfJson (Json.array (rules.map Rule.toJson)).spreadText = .ok rules := by
  obtain ⟨inner, text⟩ := exists_spreadFrom_array (rules.map Rule.toJson)
  have expressible : Json.Expressible (.array (rules.map Rule.toJson)) :=
    Json.expressible_array_map Rule.expressible_toJson rules
  have read := Json.read?_lay (g := .spread) expressible shallow
  rw [Json.lay_spread, text] at read
  have trimmed : Text.trim ('[' :: (inner ++ [']'])) = '[' :: (inner ++ [']']) :=
    Text.trim_eq_self (by decide) (by decide) (List.cons_append ..).symm
  have each : (rules.map (Json.canonicalize ∘ Rule.toJson)).mapM ruleOfJson = .ok rules := by
    refine mapM_eq_ok_iff.mpr (List.forall₂_map_left_iff.mpr (List.forall₂_same.mpr fun r hr => ?_))
    exact ruleOfJson_canonicalize (finite r hr)
  rw [rulesOfJson, Json.spreadText, String.toList_ofList, text, trimmed]
  simp only [read]
  rw [Json.canonicalize, Json.canonicalizeAll_eq_map, List.map_map, rulesOfValue, each]

/-- A rule that nodes can hold is drawn, and the trees that are drawn are the rules. -/
theorem exists_treesOf {rules : List Rule} (h : ∀ r ∈ rules, r.checkDrawable = .ok ())
    (s : IdSupply) : ∃ trees t, treesOf s rules = .ok (trees, t) ∧
      List.Forall₂ (fun n r => n.toRule = .ok r ∧ n.Hangs none) trees rules := by
  induction rules generalizing s with
  | nil => exact ⟨[], s, rfl, .nil⟩
  | cons r rules ih =>
      obtain ⟨hr, hrules⟩ := List.forall_mem_cons.mp h
      have drawn : r.toNodeWith s = .ok (r.drawNodes none s) :=
        Rule.toNodeWith_eq_ok_iff.mpr ⟨hr, rfl⟩
      obtain ⟨trees, t, ht, all⟩ := ih hrules (r.drawNodes none s).2
      refine ⟨(r.drawNodes none s).1 :: trees, t, ?_, .cons ⟨?_, ?_⟩ all⟩
      · rw [treesOf, drawn]
        simp only [bind, Except.bind, ht]
        rfl
      · exact (Rule.toRule_of_toNodeWith drawn).2
      · exact (r.mirrors_drawNodes none s).2

/-! ### Out -/

/-- The rule below a root is that of the tree that is put together there. -/
theorem ruleBelow_eq_ok_iff {nodes : Forest} {root : String} {r : Rule} :
    ruleBelow nodes root = .ok r ↔ ∃ tree, nodes.build root = .ok tree ∧ tree.toRule = .ok r := by
  rw [ruleBelow]
  cases nodes.build root with
  | error e => simp
  | ok tree => cases h : tree.toRule <;> simp [h]

/-- A node that is a rule is no deeper than nodes may be. -/
theorem Node.depth_le_of_toRule {n : Node} {r : Rule} (h : n.toRule = .ok r) :
    n.depth ≤ nestingLimit := by
  rw [Node.toRule] at h
  split at h
  · cases h
  · omega

/-- **The trees that are appended to a document are the rules that they were drawn for.** -/
theorem mapM_ruleBelow_append {d : Document} {next : Nat} {rules : List Rule} {trees : List Node}
    {t : IdSupply} (ht : treesOf ⟨next, d.nodes.keys⟩ rules = .ok (trees, t))
    (all : List.Forall₂ (fun n r => n.toRule = .ok r ∧ n.Hangs none) trees rules) :
    (trees.map Node.id).mapM (ruleBelow (d.append trees).nodes) = .ok rules := by
  have embedded := (draws_treesOf ht).1
  have nodup := nodup_treesOf ht
  have members := (List.forall₂_and_left trees rules).mpr ⟨fun n hn => hn, all⟩
  refine mapM_eq_ok_iff.mpr (List.forall₂_map_left_iff.mpr (members.imp ?_))
  rintro n r ⟨hn, converted, hangs⟩
  have built := Forest.build_addTrees embedded nodup hn
  rw [Node.onLevel_branch_eq_nil_iff.mpr (Node.depth_le_of_toRule converted),
    Node.hung_eq_self none n hangs] at built
  exact ruleBelow_eq_ok_iff.mpr ⟨n, built, converted⟩

/-- The rules of a document are those of its roots. -/
theorem rulesIn_trees {d : Document} {rules : List Rule} (h : rulesIn d = .ok rules) :
    rules.length = d.roots.length ∧
      ∀ r ∈ rules, ∃ root tree, d.nodes.build root = .ok tree ∧ tree.toRule = .ok r := by
  have each := mapM_eq_ok_iff.mp h
  refine ⟨each.length_eq.symm, fun r hr => ?_⟩
  obtain ⟨root, -, hroot⟩ := exists_of_mem_right each hr
  exact ⟨root, ruleBelow_eq_ok_iff.mp hroot⟩

/-- The rules of a document whose numbers are finite can be drawn, and their numbers are finite. -/
theorem rulesIn_spec {d : Document} (finite : d.nodes.Finite) {rules : List Rule}
    (h : rulesIn d = .ok rules) : rules.length = d.roots.length ∧
      ∀ r ∈ rules, r.Finite ∧ r.checkDrawable = .ok () := by
  obtain ⟨count, each⟩ := rulesIn_trees h
  refine ⟨count, fun r hr => ?_⟩
  obtain ⟨root, tree, built, converted⟩ := each r hr
  exact ⟨(finite.build built).toRule converted, (Node.toRule_eq_ok_iff.mp converted).2⟩

/-- A document is written as the JSON of its rules, in an array. -/
theorem write_json_eq_ok_iff {d : Document} {layout : Layout} {text : String} :
    write d layout .json = .ok text ↔ ∃ rules, rulesIn d = .ok rules ∧
      (Json.array (rules.map Rule.toJson)).spreadText = text := by
  rw [write, bind_eq_ok_iff]
  exact exists_congr fun rules => and_congr_right fun _ => pure_eq_ok_iff

end Transfer

/-! ### Editors -/

namespace Editor

open Transfer

variable {e f : Editor} {text : String}

/-- No change of phase changes the settings. -/
theorem settings_enter (e : Editor) (phase : Phase) : (e.enter phase).settings = e.settings := by
  rw [enter]
  split <;> rfl

theorem settings_validate (e : Editor) : e.validate.settings = e.settings := by
  simp only [validate, emit]
  split
  · rfl
  · exact settings_enter _ _

theorem settings_commit (e : Editor) (description : String) (loaded : Bool) :
    (e.commit description loaded).settings = e.settings := by
  simp only [commit, afterChange, emit]
  split
  · exact (settings_validate _).trans (settings_enter _ _)
  · exact settings_enter _ _

/-- Rules have become the last roots of what is kept of a document. -/
structure Loads (e : Editor) (kept : Document) (rules : List Rule) (f : Editor) : Prop where
  settings : f.settings = e.settings
  keeps : ∀ key n, kept.nodes.get? key = some n → f.document.nodes.get? key = some n
  adds : ∃ new, f.document.roots = kept.roots ++ new ∧
    new.mapM (ruleBelow f.document.nodes) = .ok rules

/-- **Rules that can be read and drawn are loaded**, one tree for each of them, behind those that
are kept. -/
theorem exists_load {o : ImportOptions} {rules : List Rule}
    (read : rulesOf o.format text = .ok rules) (any : rules ≠ [])
    (drawable : ∀ r ∈ rules, r.checkDrawable = .ok ()) :
    ∃ id f, (load text o).on e = (.ok (some id), f) ∧
      Loads e (if o.merge then e.document else .empty) rules f := by
  let kept := if o.merge then e.document else .empty
  obtain ⟨trees, ids, drawn, all⟩ := exists_treesOf drawable (e.supply kept)
  cases rules with
  | nil => exact absurd rfl any
  | cons rule rules =>
      obtain ⟨tree, rest, -, -, rfl⟩ := List.forall₂_cons_right_iff.mp all
      let f := { e with document := kept.append (tree :: rest), nextId := ids.next }.commit
        "import" !o.merge
      have loaded : (load text o).on e = (.ok (some tree.id), f) := by
        rw [on_load, read]
        simp only [drawn, kept]
        rfl
      have committed : Commits e (kept.append (tree :: rest)) f := commits_commit _ _ _ _ _
      refine ⟨tree.id, f, loaded, settings_commit _ _ _, fun key n hn => ?_,
        (tree :: rest).map Node.id, ?_, ?_⟩
      · rw [committed.document]
        exact Forest.get?_addTrees (draws_treesOf drawn).1 (nodup_treesOf drawn) hn
      · rw [committed.document]
        rfl
      · rw [committed.document]
        exact mapM_ruleBelow_append drawn all

/-- **What an editor writes as JSON can be loaded.**  Take an editor with roots whose numbers are
finite, and whose JSON nests no deeper than it is read.  Loaded into any editor in place of what it
holds, the text gives as many roots with the same rules in order, and what is written is then the
same.  Loaded behind what the editor holds, it keeps that and gives roots with the rules in
order. -/
theorem load_write {e : Editor} {text : String} (written : e.write .json = .ok text)
    (rooted : e.document.roots ≠ []) (finite : e.document.nodes.Finite)
    (shallow : ∀ rules, rulesIn e.document = .ok rules →
      (Json.array (rules.map Rule.toJson)).nesting ≤ Json.depthLimit) (e' : Editor) :
    (∃ id f, (load text ⟨.json, false⟩).on e' = (.ok (some id), f) ∧
      f.document.roots.length = e.document.roots.length ∧
      rulesIn f.document = rulesIn e.document ∧ f.write .json = e.write .json ∧
      (e'.settings.roundTrip.layout = e.settings.roundTrip.layout →
        f.write .dsl = e.write .dsl)) ∧
    ∃ id f, (load text ⟨.json, true⟩).on e' = (.ok (some id), f) ∧
      (∀ key n, e'.document.nodes.get? key = some n → f.document.nodes.get? key = some n) ∧
      ∃ new, f.document.roots = e'.document.roots ++ new ∧
        new.mapM (ruleBelow f.document.nodes) = rulesIn e.document := by
  obtain ⟨rules, specified, rfl⟩ := write_json_eq_ok_iff.mp written
  obtain ⟨count, each⟩ := rulesIn_spec finite specified
  have read := rulesOfJson_spreadText (fun r hr => (each r hr).1) (shallow rules specified)
  have drawable : ∀ r ∈ rules, r.checkDrawable = .ok () := fun r hr => (each r hr).2
  have any : rules ≠ [] := by
    rintro rfl
    exact rooted (List.length_eq_zero_iff.mp count.symm)
  constructor
  · obtain ⟨id, f, loaded, settings, -, new, roots, below⟩ :=
      exists_load (e := e') (o := ⟨.json, false⟩) read any drawable
    have replaced : f.document.roots = new := roots
    have same : rulesIn f.document = rulesIn e.document := by
      rw [rulesIn, replaced, below, specified]
    have length : f.document.roots.length = e.document.roots.length := by
      rw [replaced, (mapM_eq_ok_iff.mp below).length_eq, count]
    refine ⟨id, f, loaded, length, same, ?_, fun layout => ?_⟩
    · rw [write, write, Transfer.write, Transfer.write, same]
    · rw [write, write, Transfer.write, Transfer.write, same, settings, layout]
  · obtain ⟨id, f, loaded, -, keeps, new, roots, below⟩ :=
      exists_load (e := e') (o := ⟨.json, true⟩) read any drawable
    exact ⟨id, f, loaded, keeps, new, roots, below.trans specified.symm⟩

/-- A negated comparison with null, which has an empty record, and a payload behind it. -/
theorem load_write_pair :
    let e := (new .standard).run
      [.add (some "g") ⟨none, none, .group .not⟩ none,
        .add (some "c") ⟨none, some ⟨none, none, none⟩,
          .fieldCondition (some "a") (some .equals) (some .null)⟩ (some "g"),
        .add (some "k") ⟨none, none, .custom (some "k") (.ofJson (.array [.int 1, .null]))⟩ none]
    ∃ text, e.write .json = .ok text ∧ ∃ id f, (load text ⟨.json, false⟩).on (new .standard) =
      (.ok (some id), f) ∧ f.document.roots.length = 2 ∧ f.write .dsl = e.write .dsl := by
  intro e
  have specified : rulesIn e.document = .ok
      [.junction (.connective .not)
        [.atom (.condition ⟨"a", .equals, .null, .literal⟩) (some ⟨none, none, none⟩)] none,
       .atom (.custom "k" (.ofJson (.array [.int 1, .null]))) none] := rfl
  obtain ⟨text, written⟩ : ∃ text, e.write .json = .ok text :=
    ⟨_, write_json_eq_ok_iff.mpr ⟨_, specified, rfl⟩⟩
  obtain ⟨id, f, loaded, length, -, -, dsl⟩ := (load_write written (by decide +kernel)
    (by decide +kernel) (fun rules h => by cases specified.symm.trans h; decide) (new .standard)).1
  exact ⟨text, written, id, f, loaded, length, dsl rfl⟩

end Editor

end Rulebook
