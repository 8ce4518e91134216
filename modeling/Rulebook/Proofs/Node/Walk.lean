import Mathlib.Data.List.Chain
import Rulebook.Proofs.Node.Rebuild

/-!
# Rulebook — Proofs — Node — Walk

The tree below an id of any store, whatever is wrong with the store: references may lead nowhere,
to a node above or to one that is referenced elsewhere, and children may be embedded.  An address
says level by level to which child to go down, so that pre-order is the order of addresses.  A tree
is put together by walking to every address, and what may be wrong on the way is a `Flaw`.

* `judged_of_levels`: a tree is put together only if nothing is wrong, and else the first flaw is
  reported.
* `grows_of_materialize`: the same addresses lead through the tree as through the store.
* `build_walk`: both, for the tree below an id.
-/

namespace Rulebook

section

variable {ε α β : Type} {f : α → Except ε β} {as : List α} {e : ε}

/-- Outcomes together fail as the first of them that fails. -/
theorem exists_of_mapM_error (h : as.mapM f = .error e) : ∃ (i : Nat) (a : α), as[i]? = some a ∧
    f a = .error e ∧ ∀ (j : Nat) (b : α), j < i → as[j]? = some b → ∃ c, f b = .ok c := by
  induction as with
  | nil => cases h
  | cons a as ih =>
      rw [List.mapM_cons] at h
      cases ha : f a with
      | error d =>
          rw [ha] at h
          cases h
          exact ⟨0, a, rfl, ha, fun j _ hj => absurd hj (Nat.not_lt_zero j)⟩
      | ok b =>
          cases has : as.mapM f with
          | ok bs =>
              rw [ha, has] at h
              cases h
          | error d =>
              rw [ha, has] at h
              cases h
              obtain ⟨i, a', hi, hf, before⟩ := ih has
              refine ⟨i + 1, a', hi, hf, fun j c hj hc => ?_⟩
              cases j with
              | zero =>
                  cases hc
                  exact ⟨b, ha⟩
              | succ j => exact before j c (Nat.lt_of_succ_lt_succ hj) hc

/-- What is related item by item is related at each index. -/
theorem getElem?_of_forall₂ {R : α → β → Prop} {bs : List β} (h : List.Forall₂ R as bs) {i : Nat}
    {a : α} (ha : as[i]? = some a) : ∃ b, bs[i]? = some b ∧ R a b := by
  induction h generalizing i with
  | nil => cases ha
  | cons hr _ ih =>
      cases i with
      | zero =>
          cases ha
          exact ⟨_, rfl, hr⟩
      | succ i => exact ih ha

end

namespace Node

variable {es : List Entry} {id : String}

theorem embeddedAll_iff : EmbeddedAll es ↔ ∀ e ∈ es, ∃ n, e = .node n ∧ n.Embedded := by
  induction es with
  | nil => simp [EmbeddedAll]
  | cons e es ih => cases e <;> simp [EmbeddedAll, ih]

theorem hangsAll_iff : HangsAll id es ↔ ∀ n, .node n ∈ es → n.Hangs (some id) := by
  induction es with
  | nil => simp [HangsAll]
  | cons e es ih => cases e <;> simp [HangsAll, ih, or_imp, forall_and]

/-- What a node is apart from its parent and from how its children are given. -/
def shape (n : Node) : Vertex × List String := (n.vertex, n.childIds)

end Node

namespace Forest

variable {nodes : Forest} {path : List String} {levels i : Nat} {addr : List Nat}
  {n m tree : Node} {c : Entry} {e : StructureError}

/-! ### Walking -/

/-- The node to which an address leads from a node. -/
def walk (nodes : Forest) : Node → List Nat → Option Node
  | n, [] => some n
  | n, i :: addr => n.children[i]?.bind fun c =>
    match resolve nodes n.id c with
    | .ok m => walk nodes m addr
    | .error _ => none

/-- A child of one node stands for the other one, and has its id. -/
def Leads (nodes : Forest) (n m : Node) : Prop :=
  ∃ c ∈ n.children, c.id = m.id ∧ resolve nodes n.id c = .ok m

/-- What is wrong at an address, on the walk from a node below the ids on a path. -/
inductive Flaw (nodes : Forest) : List String → Node → List Nat → StructureError → Prop where
  /-- The node is on the path. -/
  | cycle {path : List String} {n : Node} (h : n.id ∈ path) :
      Flaw nodes path n [] (.cycle (path ++ [n.id]))
  /-- There are as many nodes above as there may be levels. -/
  | tooDeep {path : List String} {n : Node} (h : n.id ∉ path) (deep : nestingLimit ≤ path.length) :
      Flaw nodes path n [] (.tooDeep n.id)
  /-- There is no node with the id of the child. -/
  | dangling {path : List String} {n : Node} {i : Nat} {id : String}
      (child : n.children[i]? = some (.ref id)) (h : nodes.get? id = none) :
      Flaw nodes path n [i] (.danglingChild n.id id)
  | down {path : List String} {n m : Node} {i : Nat} {c : Entry} {addr : List Nat}
      {e : StructureError} (child : n.children[i]? = some c) (h : resolve nodes n.id c = .ok m)
      (flaw : Flaw nodes (path ++ [n.id]) m addr e) : Flaw nodes path n (i :: addr) e

/-- One address is the other one, or stands before it in pre-order. -/
def UpTo : List Nat → List Nat → Prop
  | [], _ => True
  | _ :: _, [] => False
  | i :: addr, j :: addr' => i < j ∨ i = j ∧ UpTo addr addr'

/-- The flaw with the first address. -/
def FirstFlaw (nodes : Forest) (path : List String) (n : Node) (e : StructureError) : Prop :=
  ∃ addr, Flaw nodes path n addr e ∧ ∀ addr' e', Flaw nodes path n addr' e' → UpTo addr addr'

/-- Pre-order is antisymmetric on addresses. -/
theorem UpTo.antisymm {a b : List Nat} (h : UpTo a b) (h' : UpTo b a) : a = b := by
  induction a generalizing b with
  | nil =>
      cases b with
      | nil => rfl
      | cons j b => exact h'.elim
  | cons i a ih =>
      cases b with
      | nil => exact h.elim
      | cons j b =>
          rcases h with hij | ⟨rfl, h⟩
          · rcases h' with hji | ⟨rfl, -⟩
            · exact absurd hij (Nat.lt_asymm hji)
            · exact absurd hij (Nat.lt_irrefl _)
          · rcases h' with hii | ⟨-, h'⟩
            · exact absurd hii (Nat.lt_irrefl _)
            · rw [ih h h']

theorem walk_cons (child : n.children[i]? = some c) (h : resolve nodes n.id c = .ok m)
    (addr : List Nat) : walk nodes n (i :: addr) = walk nodes m addr := by
  rw [walk, child, Option.bind_some]
  simp only [h]

/-- A child stands for no node only if it refers to one that is not there. -/
theorem resolve_eq_error_iff {p : String} : resolve nodes p c = .error e ↔
    ∃ id, c = .ref id ∧ nodes.get? id = none ∧ e = .danglingChild p id := by
  cases c with
  | node n => simp [resolve]
  | ref id =>
      cases h : nodes.get? id with
      | none => simp [resolve, h, eq_comm]
      | some n => simp [resolve, h]

namespace Flaw

/-- A flaw of the node itself. -/
theorem of_nil (h : Flaw nodes path n [] e) : n.id ∈ path ∨ nestingLimit ≤ path.length := by
  cases h with
  | cycle h => exact .inl h
  | tooDeep _ deep => exact .inr deep

/-- A flaw below a node is a reference that leads nowhere, or a flaw of the walk from a child. -/
theorem of_cons (child : n.children[i]? = some c) (h : Flaw nodes path n (i :: addr) e) :
    (addr = [] ∧ resolve nodes n.id c = .error e) ∨
      ∃ m, resolve nodes n.id c = .ok m ∧ Flaw nodes (path ++ [n.id]) m addr e := by
  cases h with
  | dangling child' hid =>
      cases child.symm.trans child'
      exact .inl ⟨rfl, resolve_eq_error_iff.mpr ⟨_, rfl, hid, rfl⟩⟩
  | down child' hm flaw =>
      cases child.symm.trans child'
      exact .inr ⟨_, hm, flaw⟩

/-- The flaw of a child that leads nowhere. -/
theorem of_resolve (child : n.children[i]? = some c) (h : resolve nodes n.id c = .error e) :
    Flaw nodes path n [i] e := by
  obtain ⟨id, rfl, hid, rfl⟩ := resolve_eq_error_iff.mp h
  exact .dangling child hid

/-- A flaw below a child is below a child that there is. -/
theorem exists_child (h : Flaw nodes path n (i :: addr) e) : ∃ c, n.children[i]? = some c := by
  cases h with
  | dangling child _ => exact ⟨_, child⟩
  | down child _ _ => exact ⟨_, child⟩

/-- There is one flaw at most at an address. -/
theorem eq {e' : StructureError} (h : Flaw nodes path n addr e)
    (h' : Flaw nodes path n addr e') : e = e' := by
  induction h with
  | cycle hm =>
      cases h' with
      | cycle _ => rfl
      | tooDeep hn _ => exact absurd hm hn
  | tooDeep hn _ =>
      cases h' with
      | cycle hm => exact absurd hm hn
      | tooDeep _ _ => rfl
  | dangling child hid =>
      rcases of_cons child h' with ⟨-, hr⟩ | ⟨m, hm, -⟩
      · exact Except.error.inj ((resolve_eq_error_iff.mpr ⟨_, rfl, hid, rfl⟩).symm.trans hr)
      · exact absurd (hm.symm.trans (resolve_eq_error_iff.mpr ⟨_, rfl, hid, rfl⟩)) nofun
  | down child hm _ ih =>
      rcases of_cons child h' with ⟨-, hr⟩ | ⟨m, hm', flaw⟩
      · exact absurd (hm.symm.trans hr) nofun
      · cases hm.symm.trans hm'
        exact ih flaw

end Flaw

/-- There is at most one first flaw. -/
theorem FirstFlaw.eq {e' : StructureError} (h : FirstFlaw nodes path n e)
    (h' : FirstFlaw nodes path n e') : e = e' := by
  obtain ⟨addr, flaw, first⟩ := h
  obtain ⟨addr', flaw', first'⟩ := h'
  cases (first addr' e' flaw').antisymm (first' addr e flaw)
  exact flaw.eq flaw'

/-! ### Putting together -/

/-- A child is not put together if it stands for no node or if its tree is not put together. -/
theorem grow_eq_error {id : String} (h : grow nodes levels path id c = .error e) :
    resolve nodes id c = .error e ∨
      ∃ m, resolve nodes id c = .ok m ∧ materialize nodes levels path m = .error e := by
  rw [grow] at h
  cases hr : resolve nodes id c with
  | error d =>
      rw [hr] at h
      cases h
      exact .inl rfl
  | ok m =>
      rw [hr] at h
      cases hm : materialize nodes levels path m with
      | error d =>
          simp only [bind, Except.bind, hm] at h
          cases h
          exact .inr ⟨m, rfl, hm⟩
      | ok tree =>
          simp only [bind, Except.bind, hm] at h
          cases h

/-- What a walk says about putting together: there is a tree only if nothing is wrong, and an error
is the first flaw. -/
structure Judged (nodes : Forest) (levels : Nat) (path : List String) (n : Node) : Prop where
  sound : ∀ tree, materialize nodes levels path n = .ok tree →
    ∀ addr e, ¬ Flaw nodes path n addr e
  first : ∀ e, materialize nodes levels path n = .error e → FirstFlaw nodes path n e

/-- A node that stands on the path to it is judged: it closes a cycle. -/
theorem judged_of_mem (h : n.id ∈ path) : Judged nodes levels path n := by
  refine ⟨?_, ?_⟩ <;> rw [materialize_of_mem h]
  · exact nofun
  · rintro e ⟨⟩
    exact ⟨[], .cycle h, fun _ _ _ => trivial⟩

/-- Nothing is wrong below a child of which something becomes. -/
theorem not_flaw_of_grow (judged : ∀ m, Judged nodes levels (path ++ [n.id]) m) {d : Entry}
    (child : n.children[i]? = some c) (hd : grow nodes levels (path ++ [n.id]) n.id c = .ok d) :
    ¬ Flaw nodes path n (i :: addr) e := by
  obtain ⟨m, tree, hm, ht, -⟩ := grow_eq_ok_iff.mp hd
  intro flaw
  rcases flaw.of_cons child with ⟨-, hr⟩ | ⟨m', hm', flaw'⟩
  · cases hm.symm.trans hr
  · cases hm.symm.trans hm'
    exact (judged m).sound tree ht addr e flaw'

/-- The error of a child is the first flaw below its node that is at or below the child. -/
theorem exists_flaw_of_grow (judged : ∀ m, Judged nodes levels (path ++ [n.id]) m)
    (child : n.children[i]? = some c)
    (he : grow nodes levels (path ++ [n.id]) n.id c = .error e) :
    ∃ addr, Flaw nodes path n (i :: addr) e ∧
      ∀ addr' e', Flaw nodes path n (i :: addr') e' → UpTo addr addr' := by
  rcases grow_eq_error he with hr | ⟨m, hm, ht⟩
  · exact ⟨[], .of_resolve child hr, fun _ _ _ => trivial⟩
  · obtain ⟨addr, flaw, first⟩ := (judged m).first e ht
    refine ⟨addr, .down child hm flaw, fun addr' e' flaw' => ?_⟩
    rcases flaw'.of_cons child with ⟨-, hr⟩ | ⟨m', hm', flaw'⟩
    · cases hm.symm.trans hr
    · cases hm.symm.trans hm'
      exact first addr' e' flaw'

/-- **A tree is put together only if nothing is wrong on the walk, and the error is the first flaw
otherwise**, with as many levels left as are not on the path. -/
theorem judged_of_levels (hl : path.length + levels = nestingLimit) (n : Node) :
    Judged nodes levels path n := by
  by_cases hmem : n.id ∈ path
  · exact judged_of_mem hmem
  induction levels generalizing path n with
  | zero =>
      refine ⟨?_, ?_⟩ <;> rw [materialize_zero hmem]
      · exact nofun
      · rintro e ⟨⟩
        exact ⟨[], .tooDeep hmem (Nat.le_of_eq hl.symm), fun _ _ _ => trivial⟩
  | succ levels ih =>
      have hl' : (path ++ [n.id]).length + levels = nestingLimit := by
        rw [List.length_append, List.length_singleton]
        omega
      have judged (m : Node) : Judged nodes levels (path ++ [n.id]) m := by
        by_cases hm : m.id ∈ path ++ [n.id]
        · exact judged_of_mem hm
        · exact ih hl' m hm
      -- the node itself is neither on the path nor too deep, so a flaw is at or below a child
      have below {addr : List Nat} {e : StructureError} (flaw : Flaw nodes path n addr e) :
          ∃ i rest c, addr = i :: rest ∧ n.children[i]? = some c := by
        cases addr with
        | nil =>
            rcases flaw.of_nil with hm | hd
            · exact absurd hm hmem
            · omega
        | cons i rest =>
            obtain ⟨c, child⟩ := flaw.exists_child
            exact ⟨i, rest, c, rfl, child⟩
      refine ⟨?_, ?_⟩ <;> rw [materialize_succ hmem] <;>
        cases hc : n.children.mapM (grow nodes levels (path ++ [n.id]) n.id)
      case refine_1.error | refine_2.ok => exact nofun
      case refine_1.ok children =>
        intro _ _ addr e flaw
        obtain ⟨i, rest, c, rfl, child⟩ := below flaw
        obtain ⟨d, -, hd⟩ := getElem?_of_forall₂ (mapM_eq_ok_iff.mp hc) child
        exact not_flaw_of_grow judged child hd flaw
      case refine_2.error e =>
        rintro _ ⟨⟩
        obtain ⟨i, c, child, he, before⟩ := exists_of_mapM_error hc
        obtain ⟨addr, flaw, first⟩ := exists_flaw_of_grow judged child he
        refine ⟨i :: addr, flaw, fun addr' e' flaw' => ?_⟩
        obtain ⟨j, rest, c', rfl, child'⟩ := below flaw'
        rcases Nat.lt_trichotomy i j with hij | rfl | hji
        · exact .inl hij
        · exact .inr ⟨rfl, first rest e' flaw'⟩
        · obtain ⟨d, hd⟩ := before j c' hji child'
          exact absurd flaw' (not_flaw_of_grow judged child' hd)

/-! ### What is put together -/

/-- What is put together from a node, below a parent: an embedded tree with at most so many levels
in which every node names its container, and through which the same addresses lead as through the
store, to nodes of the same shape. -/
structure Grows (nodes : Forest) (levels : Nat) (above : Option String) (n tree : Node) : Prop where
  embedded : tree.Embedded
  hangs : tree.Hangs above
  depth_le : tree.depth ≤ levels
  walk_eq : ∀ addr, (walk ∅ tree addr).map Node.shape = (walk nodes n addr).map Node.shape

/-- Putting a tree together keeps what a node is apart from its links. -/
theorem Grows.shape_eq {above : Option String} (h : Grows nodes levels above n tree) :
    tree.shape = n.shape := Option.some.inj (h.walk_eq [])

/-- Another parent changes nothing about the way down. -/
theorem Grows.withParent {above : Option String} (h : Grows nodes levels above n tree)
    (parent : Option String) : Grows nodes levels parent n { tree with parent } where
  embedded := by
    cases tree
    exact h.embedded
  hangs := by
    cases tree
    exact ⟨rfl, h.hangs.2⟩
  depth_le := by
    cases tree
    exact h.depth_le
  walk_eq addr := by
    rw [← h.walk_eq addr]
    cases addr <;> rfl

/-- The node of an entry has its id, if the nodes are kept under their own ids. -/
theorem id_of_resolve (key : ∀ e ∈ nodes.entries, e.2.id = e.1) {p : String}
    (h : resolve nodes p c = .ok m) : m.id = c.id := by
  cases c with
  | node n => exact congrArg Node.id (Except.ok.inj h).symm
  | ref id =>
      rw [resolve] at h
      split at h
      · cases h
        exact key _ (KeyMap.get?_eq_some_iff.mp ‹_›)
      · cases h

/-- What becomes of a child of a node with an id. -/
def Becomes (nodes : Forest) (levels : Nat) (id : String) (c d : Entry) : Prop :=
  ∃ m tree, resolve nodes id c = .ok m ∧ d = .node tree ∧ d.id = c.id ∧
    Grows nodes levels (some id) m tree

/-- A node with children that are put together is itself put together. -/
theorem grows_of_children {children : List Entry}
    (h : List.Forall₂ (Becomes nodes levels n.id) n.children children) :
    Grows nodes (levels + 1) n.parent n { n with children } where
  embedded := Node.embeddedAll_iff.mpr fun d hd => by
    obtain ⟨c, -, m, tree, -, rfl, -, grows⟩ := exists_of_mem_right h hd
    exact ⟨tree, rfl, grows.embedded⟩
  hangs := ⟨rfl, Node.hangsAll_iff.mpr fun t ht => by
    obtain ⟨c, -, m, tree, -, he, -, grows⟩ := exists_of_mem_right h ht
    exact Entry.node.inj he ▸ grows.hangs⟩
  depth_le := Node.depth_le_of_forall fun t ht => by
    obtain ⟨c, -, m, tree, -, he, -, grows⟩ := exists_of_mem_right h ht
    exact Entry.node.inj he ▸ grows.depth_le
  walk_eq addr := by
    cases addr with
    | nil =>
        have ids : children.map Entry.id = n.children.map Entry.id := by
          refine List.forall₂_eq_eq_eq ▸ List.forall₂_map_left_iff.mpr
            (List.forall₂_map_right_iff.mpr (h.flip.imp fun d c hd => ?_))
          obtain ⟨m, tree, -, -, hid, -⟩ := hd
          exact hid
        exact congrArg (fun l => some (n.vertex, l)) ids
    | cons i addr =>
        cases hi : n.children[i]? with
        | none =>
            have hnone : children[i]? = none := by
              rw [List.getElem?_eq_none_iff] at hi ⊢
              exact h.length_eq ▸ hi
            rw [walk, walk, hi, hnone]
            rfl
        | some c =>
            obtain ⟨d, hd, m, tree, hm, rfl, -, grows⟩ := getElem?_of_forall₂ h hi
            rw [walk_cons hi hm, ← grows.walk_eq addr,
              walk_cons (n := { n with children }) hd rfl]

/-- **The tree of a node is the walk from it.** -/
theorem grows_of_materialize (key : ∀ e ∈ nodes.entries, e.2.id = e.1)
    (h : materialize nodes levels path n = .ok tree) :
    Grows nodes levels n.parent n tree := by
  induction levels generalizing path n tree with
  | zero =>
      obtain ⟨below, children, hl, -⟩ := exists_of_materialize h
      cases hl
  | succ levels ih =>
      obtain ⟨_, children, ⟨⟩, grown, rfl⟩ := exists_of_materialize h
      refine grows_of_children (grown.imp fun c d hd => ?_)
      obtain ⟨m, tree, hm, ht, rfl⟩ := grow_eq_ok_iff.mp hd
      have grows := ih ht
      have hid : tree.id = m.id := congrArg (fun s => s.1.id) grows.shape_eq
      exact ⟨m, _, hm, rfl, hid.trans (id_of_resolve key hm), grows.withParent _⟩

/-- A path that is reported as a cycle is a walk, and its last id is met before. -/
theorem Flaw.exists_walk (key : ∀ e ∈ nodes.entries, e.2.id = e.1) {p : List String}
    (h : Flaw nodes path n addr (.cycle p)) : ∃ (below : List Node) (init : List String)
      (last : String), (n :: below).IsChain (Leads nodes) ∧
        p = path ++ (n :: below).map Node.id ∧ p = init ++ [last] ∧ last ∈ init := by
  generalize he : StructureError.cycle p = e at h
  induction h with
  | cycle hm =>
      cases he
      exact ⟨[], _, _, .singleton _, rfl, rfl, hm⟩
  | tooDeep _ _ => cases he
  | dangling _ _ => cases he
  | @down path n m i c addr e child hm _ ih =>
      obtain ⟨below, init, last, chain, rfl, hp, hlast⟩ := ih he
      refine ⟨m :: below, init, last, List.isChain_cons_cons.mpr ⟨?_, chain⟩, ?_, hp, hlast⟩
      · exact ⟨c, List.mem_of_getElem? child, (id_of_resolve key hm).symm, hm⟩
      · rw [List.append_assoc]
        rfl

/-- **The tree below an id of any store.**  It is put together exactly if there is a node with the
id and the walk from there meets no reference that leads nowhere, no id that is above and no level
too many.  Otherwise the error is that of the first address where one of these is met, and a path
that is reported as a cycle is a walk to an id that is on the way.  The tree consists of embedded
children that name their containers, and it has the shape of the walk. -/
theorem build_walk (nodes : Forest) (key : ∀ e ∈ nodes.entries, e.2.id = e.1) (root : String) :
    ((∃ tree, nodes.build root = .ok tree) ↔
      ∃ top, nodes.get? root = some top ∧ ∀ addr e, ¬ Flaw nodes [] top addr e) ∧
    (nodes.get? root = none → nodes.build root = .error (.unknownNode root)) ∧
    ∀ top, nodes.get? root = some top →
      (∀ e, nodes.build root = .error e ↔ FirstFlaw nodes [] top e) ∧
      (∀ p, nodes.build root = .error (.cycle p) →
        ∃ (below : List Node) (init : List String) (last : String),
          (top :: below).IsChain (Leads nodes) ∧ p = (top :: below).map Node.id ∧
            p = init ++ [last] ∧ last ∈ init) ∧
      ∀ tree, nodes.build root = .ok tree → Grows nodes nestingLimit top.parent top tree := by
  cases hroot : nodes.get? root with
  | none =>
      rw [build, hroot]
      refine ⟨⟨?_, ?_⟩, fun _ => rfl, ?_⟩
      · rintro ⟨tree, ⟨⟩⟩
      · rintro ⟨top, ⟨⟩, -⟩
      · rintro top ⟨⟩
  | some top =>
      have hbuild : nodes.build root = materialize nodes nestingLimit [] top := by
        rw [build, hroot]
      have judged : Judged nodes nestingLimit [] top :=
        judged_of_levels (Nat.zero_add nestingLimit) top
      obtain ⟨sound, first⟩ := judged
      -- there is one first flaw at most, so the error can be read off it
      have error (e : StructureError) :
          nodes.build root = .error e ↔ FirstFlaw nodes [] top e := by
        rw [hbuild]
        refine ⟨first e, fun hf => ?_⟩
        cases hm : materialize nodes nestingLimit [] top with
        | ok tree =>
            obtain ⟨addr, flaw, -⟩ := hf
            exact absurd flaw (sound tree hm addr e)
        | error e' => rw [(first e' hm).eq hf]
      refine ⟨⟨?_, ?_⟩, fun h => absurd h (Option.some_ne_none top), ?_⟩
      · rintro ⟨tree, ht⟩
        exact ⟨top, rfl, sound tree (hbuild ▸ ht)⟩
      · rintro ⟨_, ⟨⟩, clean⟩
        cases hm : nodes.build root with
        | ok tree => exact ⟨tree, rfl⟩
        | error e =>
            obtain ⟨addr, flaw, -⟩ := (error e).mp hm
            exact absurd flaw (clean addr e)
      · rintro _ ⟨⟩
        refine ⟨error, fun p hp => ?_, fun tree ht => grows_of_materialize key (hbuild ▸ ht)⟩
        obtain ⟨addr, flaw, -⟩ := (error _).mp hp
        exact flaw.exists_walk key

/-- A group. -/
def groupNode (id : String) (children : List Entry) : Node :=
  ⟨id, none, none, children, none, .group .and⟩

/-- A store with a node that two others share, one of them embedded, and with a way back to a node
above in front of a reference that leads nowhere. -/
def tangledStore : Forest :=
  ⟨[("leaf", groupNode "leaf" []),
    ("loop", groupNode "loop"
      [.ref "leaf", .node (groupNode "inner" [.ref "leaf", .ref "loop"]), .ref "ghost"]),
    ("top", groupNode "top" [.ref "leaf", .node (groupNode "inner" [.ref "leaf"])])], by decide⟩

/-- The shared node is put together in both places, and the way back is reported before the
reference that leads nowhere. -/
theorem build_walk_tangled :
    (∃ top tree, tangledStore.get? "top" = some top ∧ tangledStore.build "top" = .ok tree ∧
      Grows tangledStore nestingLimit top.parent top tree) ∧
    (∃ loop, tangledStore.get? "loop" = some loop ∧
      FirstFlaw tangledStore [] loop (.cycle ["loop", "inner", "loop"])) := by
  have key : ∀ e ∈ tangledStore.entries, e.2.id = e.1 := by
    simp [tangledStore, groupNode]
  refine ⟨⟨_, _, rfl, rfl, ?_⟩, ⟨_, rfl, ?_⟩⟩
  · exact ((build_walk tangledStore key "top").2.2 _ rfl).2.2 _ rfl
  · exact (((build_walk tangledStore key "loop").2.2 _ rfl).1 _).mp rfl

end Forest

end Rulebook
