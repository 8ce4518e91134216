import Mathlib.Data.List.Chain
import Mathlib.Logic.Relation
import Rulebook.Proofs.Node.Cycles

/-!
# Rulebook — Proofs — Node — Traversal

The search for cycles one step at a time.  A traversal keeps the way down from the present start on
a stack, each node with the children of it that are still to be looked at, and marks that all its
starts share: a node is in progress while it is on the stack and done afterwards.

* `Traversal.Inv.step`, `Traversal.Inv.run`: the nodes in progress are those on the way down, and
  what is found are circuits.
* `exists_run`: a traversal ends, and has found the cycles of the store.
* `cycle_reports`: so the cycles among the problems of a store are circuits, and there is one
  exactly if there is a circuit.
-/

namespace Rulebook.Forest

/-- How far a traversal has come with a node. -/
inductive Progress where
  | inProgress
  | done
  deriving DecidableEq, Repr

/-- A node on the way down, with the children of it that are still to be looked at. -/
structure Frame where
  id : String
  pending : List String

/-- The ids on a stack, which has the innermost node first, from the start on. -/
def pathOf (stack : List Frame) : List String := (stack.map Frame.id).reverse

/-- A traversal of a store: the ids that are still to be started from, the way down from the present
one, the marks and the cycles found. -/
structure Traversal where
  starts : List String
  stack : List Frame
  marks : KeyMap Progress
  found : List StructureError

namespace Traversal

/-- A traversal that is to start from every node. -/
def start (nodes : Forest) : Traversal := ⟨nodes.keys, [], ∅, []⟩

/-- Goes down to a node. -/
def enter (nodes : Forest) (id : String) (t : Traversal) : Traversal :=
  { t with
    stack := ⟨id, childrenAt nodes id⟩ :: t.stack
    marks := t.marks.insert id .inProgress }

/-- Looks at a child of the last node on the way down. -/
def look (nodes : Forest) (child : String) (t : Traversal) : Traversal :=
  match t.marks.get? child with
  | some .inProgress =>
    let closed := (pathOf t.stack).dropWhile (· != child) ++ [child]
    { t with found := t.found ++ [.cycle closed] }
  | some .done => t
  | none => if nodes.contains child then t.enter nodes child else t

/-- One step: to the next start, back up from a node without pending children, or to the next
pending child.  There is none once no start is left. -/
def step (nodes : Forest) (t : Traversal) : Option Traversal :=
  match t.stack, t.starts with
  | [], [] => none
  | [], id :: starts =>
    let t := { t with starts }
    some (if t.marks.contains id then t else t.enter nodes id)
  | ⟨id, []⟩ :: stack, _ => some { t with stack, marks := t.marks.insert id .done }
  | ⟨id, child :: pending⟩ :: stack, _ =>
    some ({ t with stack := ⟨id, pending⟩ :: stack }.look nodes child)

/-- One traversal goes on to another. -/
def Steps (nodes : Forest) : Traversal → Traversal → Prop :=
  Relation.ReflTransGen fun t u => t.step nodes = some u

end Traversal

/-- A way from an id down to itself, on which no other id is met twice. -/
structure Circuit (nodes : Forest) (path : List String) : Prop where
  chain : path.IsChain fun parent child => ChildOf nodes child parent
  closed : ∃ id rest, path = id :: rest ++ [id] ∧ (id :: rest).Nodup

variable {nodes : Forest} {path : List String} {id child : String} {t u : Traversal}
  {stack : List Frame} {pending starts : List String} {marks : KeyMap Progress}
  {found : List StructureError}

/-- The path to the frame on top ends in that frame's id. -/
theorem pathOf_cons (f : Frame) (stack : List Frame) :
    pathOf (f :: stack) = pathOf stack ++ [f.id] := by
  rw [pathOf, pathOf, List.map_cons, List.reverse_cons]

/-! ### Circuits -/

theorem exists_dropWhile_eq_cons {l : List String} (h : id ∈ l) :
    ∃ rest, l.dropWhile (· != id) = id :: rest := by
  induction l with
  | nil => cases h
  | cons a l ih =>
      by_cases ha : a = id
      · subst ha
        exact ⟨l, List.dropWhile_cons_of_neg (by simp)⟩
      · rw [List.dropWhile_cons_of_pos (by simpa using ha)]
        exact ih ((List.mem_cons.mp h).resolve_left (Ne.symm ha))

/-- A child of the last node on a way down closes a circuit, if it is on the way. -/
theorem circuit_of_mem (chain : (path ++ [id]).IsChain fun p c => ChildOf nodes c p)
    (nodup : (path ++ [id]).Nodup) (hc : ChildOf nodes child id) (hm : child ∈ path ++ [id]) :
    Circuit nodes ((path ++ [id]).dropWhile (· != child) ++ [child]) := by
  obtain ⟨rest, hdrop⟩ := exists_dropWhile_eq_cons hm
  have suffix : child :: rest <:+ path ++ [id] := hdrop ▸ List.dropWhile_suffix _
  rw [hdrop]
  refine ⟨List.isChain_append.mpr ⟨chain.suffix suffix, .singleton child, ?_⟩,
    child, rest, rfl, nodup.sublist suffix.sublist⟩
  intro last hlast first hfirst
  obtain rfl : child = first := by simpa using hfirst
  -- what is left of the way still ends where the way does
  obtain ⟨before, hsplit⟩ := suffix
  have ends : (before ++ child :: rest).getLast? = some id := by
    rw [hsplit]
    exact List.getLast?_concat
  rw [List.getLast?_append_of_ne_nil _ (List.cons_ne_nil _ _)] at ends
  cases hlast.symm.trans ends
  exact hc

/-- From a node one comes down to itself on a circuit. -/
theorem Circuit.transGen (h : Circuit nodes path) :
    ∃ id, Relation.TransGen (ChildOf nodes) id id := by
  obtain ⟨chain, id, rest, rfl, -⟩ := h
  have down (rest : List String) (a : String)
      (chain : (a :: rest ++ [id]).IsChain fun p c => ChildOf nodes c p) :
      Relation.TransGen (ChildOf nodes) id a := by
    induction rest generalizing a with
    | nil => exact .single (List.isChain_cons_cons.mp chain).1
    | cons b rest ih =>
        obtain ⟨hab, chain⟩ := List.isChain_cons_cons.mp chain
        exact .tail (ih b chain) hab
  exact ⟨id, down rest id chain⟩

/-! ### The invariant -/

namespace Traversal

/-- What holds all along a traversal: the way down is one, without repetition; the nodes in progress
are those on it; the pending ids are children; and what is found are circuits. -/
structure Inv (nodes : Forest) (t : Traversal) : Prop where
  nodup : (pathOf t.stack).Nodup
  chain : (pathOf t.stack).IsChain fun p c => ChildOf nodes c p
  inProgress : ∀ id, t.marks.get? id = some .inProgress ↔ id ∈ pathOf t.stack
  pending : ∀ f ∈ t.stack, ∀ c ∈ f.pending, ChildOf nodes c f.id
  found : ∀ e ∈ t.found, ∃ path, e = .cycle path ∧ Circuit nodes path

/-- The invariant holds at the start. -/
theorem inv_start (nodes : Forest) : Inv nodes (start nodes) where
  nodup := List.nodup_nil
  chain := .nil
  inProgress _ := ⟨nofun, nofun⟩
  pending _ hf := absurd hf List.not_mem_nil
  found _ he := absurd he List.not_mem_nil

/-- Going down to a child that is not in progress. -/
theorem Inv.enter (h : Inv nodes t) (fresh : id ∉ pathOf t.stack)
    (below : ∀ last ∈ (pathOf t.stack).getLast?, ChildOf nodes id last) :
    Inv nodes (t.enter nodes id) where
  nodup := by
    rw [Traversal.enter, pathOf_cons]
    refine List.nodup_append.mpr ⟨h.nodup, List.nodup_singleton id, ?_⟩
    rintro a ha b hb rfl
    obtain rfl := List.mem_singleton.mp hb
    exact fresh ha
  chain := by
    rw [Traversal.enter, pathOf_cons]
    refine List.isChain_append.mpr ⟨h.chain, .singleton id, fun last hlast first hfirst => ?_⟩
    obtain rfl : id = first := by simpa using hfirst
    exact below last hlast
  inProgress k := by
    rw [Traversal.enter, pathOf_cons, List.mem_append, List.mem_singleton]
    by_cases hk : k = id
    · subst hk
      simp [KeyMap.get?_insert_self]
    · rw [KeyMap.get?_insert_of_ne _ hk, h.inProgress k]
      simp [hk]
  pending f hf := by
    rcases List.mem_cons.mp hf with rfl | hf
    · exact fun c hc => hc
    · exact h.pending f hf
  found := h.found

/-- Looking at a child of the last node on the way down. -/
theorem Inv.look (h : Inv nodes t) {path : List String} (hpath : pathOf t.stack = path ++ [id])
    (hc : ChildOf nodes child id) : Inv nodes (t.look nodes child) := by
  rw [Traversal.look]
  split
  · -- a child in progress is on the way down, so it closes a circuit
    rename_i hmark
    have hm := (h.inProgress child).mp hmark
    have chain := h.chain
    have nodup := h.nodup
    rw [hpath] at hm chain nodup
    refine ⟨h.nodup, h.chain, h.inProgress, h.pending, fun e he => ?_⟩
    rcases List.mem_append.mp he with he | he
    · exact h.found e he
    · obtain rfl := List.mem_singleton.mp he
      exact ⟨_, rfl, hpath ▸ circuit_of_mem chain nodup hc hm⟩
  · exact h
  · rename_i hmark
    split
    · refine h.enter (fun hm => ?_) fun last hlast => ?_
      · have := (h.inProgress child).mpr hm
        rw [hmark] at this
        cases this
      · rw [hpath, List.getLast?_concat] at hlast
        cases hlast
        exact hc
    · exact h

/-- **One step keeps the invariant.** -/
theorem Inv.step (h : Inv nodes t) (hu : t.step nodes = some u) : Inv nodes u := by
  rw [Traversal.step] at hu
  split at hu
  · cases hu
  · -- the next start
    rename_i id starts hstack _
    have base : Inv nodes { t with starts } := ⟨h.nodup, h.chain, h.inProgress, h.pending, h.found⟩
    cases hu
    split
    · exact base
    · have hnil : pathOf t.stack = [] := by rw [hstack]; rfl
      exact base.enter (by rw [hnil]; exact List.not_mem_nil) (by rw [hnil]; exact nofun)
  · -- back up
    rename_i id stack hstack
    cases hu
    obtain ⟨nodup, chain, inProgress, pending, found⟩ := h
    rw [hstack, pathOf_cons] at nodup chain inProgress
    rw [hstack, List.forall_mem_cons] at pending
    have left : id ∉ pathOf stack := fun hm =>
      (List.nodup_append.mp nodup).2.2 id hm id (List.mem_singleton_self id) rfl
    refine ⟨(List.nodup_append.mp nodup).1, (List.isChain_append.mp chain).1, fun k => ?_,
      pending.2, found⟩
    by_cases hk : k = id
    · subst hk
      rw [KeyMap.get?_insert_self]
      exact ⟨nofun, fun hm => absurd hm left⟩
    · rw [KeyMap.get?_insert_of_ne _ hk, inProgress k]
      simp [hk]
  · -- the next child
    rename_i id child pending stack hstack
    cases hu
    have hpath : pathOf t.stack = pathOf (⟨id, pending⟩ :: stack) := by
      rw [hstack, pathOf_cons, pathOf_cons]
    have children := h.pending
    rw [hstack, List.forall_mem_cons] at children
    obtain ⟨hid, hstack'⟩ := children
    have base : Inv nodes { t with stack := ⟨id, pending⟩ :: stack } :=
      ⟨hpath ▸ h.nodup, hpath ▸ h.chain, hpath ▸ h.inProgress,
        List.forall_mem_cons.mpr ⟨fun c hc => hid c (List.mem_cons_of_mem child hc), hstack'⟩,
        h.found⟩
    exact base.look (pathOf_cons _ _) (hid child List.mem_cons_self)

/-- **The invariant holds all along a traversal.** -/
theorem Inv.run (h : Inv nodes t) (hu : Steps nodes t u) : Inv nodes u := by
  induction hu with
  | refl => exact h
  | tail _ hstep ih => exact ih.step hstep

end Traversal

/-! ### The search, step by step -/

/-- The marks of a traversal whose way down is a path, with some nodes done. -/
def Marked (marks : KeyMap Progress) (path finished : List String) : Prop :=
  ∀ id, marks.get? id =
    if id ∈ path then some .inProgress else if id ∈ finished then some .done else none

/-- Marks stay right when a node is entered. -/
theorem Marked.enter {finished : List String} (h : Marked marks path finished) (id : String) :
    Marked (marks.insert id .inProgress) (path ++ [id]) finished := by
  intro k
  by_cases hk : k = id
  · subst hk
    simp
  · rw [KeyMap.get?_insert_of_ne _ hk, h k]
    simp [hk]

/-- Marks stay right when a node is left. -/
theorem Marked.leave {finished : List String} (h : Marked marks (path ++ [id]) finished)
    (hid : id ∉ path) : Marked (marks.insert id .done) path (id :: finished) := by
  intro k
  by_cases hk : k = id
  · subst hk
    simp [hid]
  · rw [KeyMap.get?_insert_of_ne _ hk, h k]
    simp [hk]

variable {fuel : Nat} {s s' s'' : Search} {stack' stack'' : List Frame}

/-- A traversal goes from one stack to another while a search goes from one state to another,
whatever starts are left. -/
def Follows (nodes : Forest) (stack : List Frame) (s : Search) (stack' : List Frame) (s' : Search) :
    Prop :=
  ∀ starts marks, Marked marks (pathOf stack) s.finished →
    ∃ marks', Traversal.Steps nodes ⟨starts, stack, marks, s.found⟩
        ⟨starts, stack', marks', s'.found⟩ ∧ Marked marks' (pathOf stack') s'.finished

theorem Follows.refl (stack : List Frame) (s : Search) : Follows nodes stack s stack s :=
  fun _ marks hm => ⟨marks, .refl, hm⟩

/-- One traversal behind another follows one search behind another. -/
theorem Follows.trans (h : Follows nodes stack s stack' s')
    (h' : Follows nodes stack' s' stack'' s'') : Follows nodes stack s stack'' s'' := by
  intro starts marks hm
  obtain ⟨marks', hsteps, hm'⟩ := h starts marks hm
  obtain ⟨marks'', hsteps', hm''⟩ := h' starts marks' hm'
  exact ⟨marks'', hsteps.trans hsteps', hm''⟩

/-- A child on the way down is found, one that is done or missing is passed over, and any other is
gone down to. -/
theorem follows_visit
    (hsearch : child ∉ pathOf (⟨id, pending⟩ :: stack) → child ∈ nodes.keys →
      Follows nodes (⟨child, childrenAt nodes child⟩ :: ⟨id, pending⟩ :: stack) s
        (⟨id, pending⟩ :: stack)
        (searchFrom nodes fuel (pathOf (⟨id, pending⟩ :: stack)) child s)) :
    Follows nodes (⟨id, child :: pending⟩ :: stack) s (⟨id, pending⟩ :: stack)
      (visit nodes fuel (pathOf (⟨id, pending⟩ :: stack)) s child) := by
  intro starts marks hm
  have hm : Marked marks (pathOf (⟨id, pending⟩ :: stack)) s.finished := hm
  have first : Traversal.step nodes ⟨starts, ⟨id, child :: pending⟩ :: stack, marks, s.found⟩ =
      some (Traversal.look nodes child ⟨starts, ⟨id, pending⟩ :: stack, marks, s.found⟩) := rfl
  have mark := hm child
  rw [visit]
  split
  · -- on the way down
    rename_i hpath
    rw [if_pos (List.contains_iff_mem.mp hpath)] at mark
    rw [Traversal.look, mark] at first
    exact ⟨marks, .single first, hm⟩
  · rename_i hpath
    have hpath := fun hin => hpath (List.contains_iff_mem.mpr hin)
    rw [if_neg hpath] at mark
    split
    · -- done, or not in the store
      rename_i hdone
      by_cases hf : child ∈ s.finished
      · rw [if_pos hf] at mark
        rw [Traversal.look, mark] at first
        exact ⟨marks, .single first, hm⟩
      · have hk : nodes.contains child = false := by simpa [hf] using hdone
        rw [if_neg hf] at mark
        simp only [Traversal.look, mark, hk] at first
        exact ⟨marks, .single first, hm⟩
    · -- not looked at before
      rename_i hnew
      obtain ⟨hf, hk⟩ : child ∉ s.finished ∧ nodes.contains child = true := by simpa using hnew
      rw [if_neg hf] at mark
      simp only [Traversal.look, mark, hk, if_true] at first
      obtain ⟨marks', hsteps, hm'⟩ := hsearch hpath (KeyMap.contains_iff_mem_keys.mp hk) starts
        (marks.insert child .inProgress) (by rw [pathOf_cons]; exact hm.enter child)
      exact ⟨marks', .head first hsteps, hm'⟩

/-- A search from a node is the traversal from there until it is back up. -/
theorem follows_search (hp : OnPath nodes fuel (pathOf stack) id) :
    Follows nodes (⟨id, childrenAt nodes id⟩ :: stack) s stack
      (searchFrom nodes fuel (pathOf stack) id s) := by
  induction fuel generalizing stack id s with
  | zero => exact absurd rfl hp.fuel_pos
  | succ fuel ih =>
      have children (cs : List String) : ∀ s : Search,
          Follows nodes (⟨id, cs⟩ :: stack) s (⟨id, []⟩ :: stack)
            (cs.foldl (visit nodes fuel (pathOf stack ++ [id])) s) := by
        induction cs with
        | nil => exact fun s => .refl _ s
        | cons c cs ihcs =>
            intro s
            refine Follows.trans ?_ (ihcs _)
            have hpath : pathOf (⟨id, cs⟩ :: stack) = pathOf stack ++ [id] := pathOf_cons _ _
            rw [← hpath]
            refine follows_visit fun hc hk => ih ?_
            rw [hpath] at hc ⊢
            exact hp.child hc hk
      refine (children (childrenAt nodes id) s).trans fun starts marks hm => ?_
      -- no child is pending, so the next step goes back up
      refine ⟨marks.insert id .done, .single rfl, ?_⟩
      rw [pathOf_cons] at hm
      exact hm.leave fun hin => (List.nodup_append.mp hp.nodup).2.2 id hin id
        (List.mem_singleton_self id) rfl

/-- **A traversal of a store ends, and it has found the cycles of the store.** -/
theorem exists_run (nodes : Forest) : ∃ t, Traversal.Steps nodes (.start nodes) t ∧
    t.step nodes = none ∧ t.found = cycles nodes := by
  have each (ids : List String) (hids : ids ⊆ nodes.keys) :
      ∀ (s : Search) (marks : KeyMap Progress), Marked marks [] s.finished →
      ∃ marks', Traversal.Steps nodes ⟨ids, [], marks, s.found⟩ ⟨[], [], marks',
        (ids.foldl (fun (s : Search) id => if s.finished.contains id then s
          else searchFrom nodes nodes.size [] id s) s).found⟩ := by
    induction ids with
    | nil => exact fun s marks _ => ⟨marks, .refl⟩
    | cons id ids ih =>
        intro s marks hm
        obtain ⟨hid, hids⟩ := List.cons_subset.mp hids
        have first : Traversal.step nodes ⟨id :: ids, [], marks, s.found⟩ =
            some (if marks.contains id then ⟨ids, [], marks, s.found⟩
              else Traversal.enter nodes id ⟨ids, [], marks, s.found⟩) := rfl
        have mark := hm id
        rw [if_neg List.not_mem_nil] at mark
        rw [List.foldl_cons]
        by_cases hf : id ∈ s.finished
        · have hc : marks.contains id = true := by simp [KeyMap.contains, mark, hf]
          rw [hc] at first
          rw [if_pos (List.contains_iff_mem.mpr hf)]
          obtain ⟨marks', hsteps⟩ := ih hids s marks hm
          exact ⟨marks', .head first hsteps⟩
        · have hc : marks.contains id = false := by simp [KeyMap.contains, mark, hf]
          rw [hc] at first
          rw [if_neg fun h => hf (List.contains_iff_mem.mp h)]
          have hp : OnPath nodes nodes.size (pathOf []) id :=
            ⟨List.nodup_singleton id, List.cons_subset.mpr ⟨hid, List.nil_subset _⟩, Nat.le_refl _⟩
          obtain ⟨marks', hsteps, hm'⟩ := follows_search (s := s) hp ids _ (hm.enter id)
          obtain ⟨marks'', hsteps'⟩ := ih hids _ marks' hm'
          exact ⟨marks'', .head first (hsteps.trans hsteps')⟩
  obtain ⟨marks, hsteps⟩ := each nodes.keys (List.Subset.refl _) ⟨[], []⟩ ∅ fun _ => rfl
  exact ⟨_, hsteps, rfl, rfl⟩

/-! ### Cycles among the problems -/

/-- What the search finds are circuits. -/
theorem circuit_of_mem_cycles {e : StructureError} (h : e ∈ cycles nodes) :
    ∃ path, e = .cycle path ∧ Circuit nodes path := by
  obtain ⟨t, hsteps, -, hfound⟩ := exists_run nodes
  exact ((Traversal.inv_start nodes).run hsteps).found e (hfound ▸ h)

/-- Where one comes down to a node from itself, the search finds something. -/
theorem cycles_ne_nil (h : Relation.TransGen (ChildOf nodes) id id) : cycles nodes ≠ [] :=
  fun hnil => (cycles_eq_nil_iff.mp hnil).transGen.irrefl.irrefl id h

/-- A cycle among the problems is one that the search has found. -/
theorem cycle_mem_structureProblems_iff {roots : List String} :
    .cycle path ∈ structureProblems nodes roots ↔ .cycle path ∈ cycles nodes := by
  rw [structureProblems]
  simp only [List.mem_append]
  refine ⟨?_, .inr⟩
  rintro ((((h | h) | h) | h) | h)
  · obtain ⟨root, -, hr⟩ := List.mem_filterMap.mp h
    split at hr
    · cases hr
    · obtain ⟨parent, -, hr⟩ := Option.map_eq_some_iff.mp hr
      cases hr
  · obtain ⟨e, -, he⟩ := List.mem_flatMap.mp h
    rcases List.mem_append.mp he with he | he
    · obtain ⟨child, -, hc⟩ := List.mem_filterMap.mp he
      split at hc
      · cases hc
      · split at hc <;> cases hc
    · rw [parentProblems] at he
      split at he
      · cases he
      · split at he
        · cases List.mem_singleton.mp he
        · split at he
          · cases he
          · cases List.mem_singleton.mp he
  · obtain ⟨e, -, he⟩ := List.mem_map.mp h
    cases he
  · obtain ⟨id, -, he⟩ := List.mem_map.mp h
    cases he
  · exact h

/-- **Cycles are reported exactly.**  The traversal of a store ends with the cycles that are among
its problems; each of these is a circuit; and there is one exactly if there is a node, below a root
or not, to which one comes down from itself. -/
theorem cycle_reports (nodes : Forest) (roots : List String) :
    (∃ t, Traversal.Steps nodes (.start nodes) t ∧ t.step nodes = none ∧
      ∀ path, .cycle path ∈ structureProblems nodes roots ↔ .cycle path ∈ t.found) ∧
    (∀ path, .cycle path ∈ structureProblems nodes roots → Circuit nodes path) ∧
    ((∃ path, .cycle path ∈ structureProblems nodes roots) ↔
      ∃ id, Relation.TransGen (ChildOf nodes) id id) := by
  simp only [cycle_mem_structureProblems_iff]
  have circuit (path : List String) (h : .cycle path ∈ cycles nodes) : Circuit nodes path := by
    obtain ⟨path', he, circuit⟩ := circuit_of_mem_cycles h
    cases he
    exact circuit
  refine ⟨?_, circuit, ⟨fun ⟨path, h⟩ => (circuit path h).transGen, fun ⟨id, h⟩ => ?_⟩⟩
  · obtain ⟨t, hsteps, ended, hfound⟩ := exists_run nodes
    exact ⟨t, hsteps, ended, fun path => by rw [hfound]⟩
  · obtain ⟨e, he⟩ := List.exists_mem_of_ne_nil _ (cycles_ne_nil h)
    obtain ⟨path, rfl, -⟩ := circuit_of_mem_cycles he
    exact ⟨path, he⟩

/-- A root with a missing child, and two nodes that refer to each other and share its other child.
-/
def loopStore : Forest :=
  ⟨[("back", ⟨"back", none, none, [.ref "leaf", .ref "forth"], none, .group .and⟩),
    ("forth", ⟨"forth", none, none, [.ref "back", .ref "leaf"], none, .group .and⟩),
    ("leaf", ⟨"leaf", none, none, [], none, .group .and⟩),
    ("root", ⟨"root", none, none, [.ref "leaf", .ref "ghost"], none, .group .and⟩)], by decide⟩

/-- The cycle is reported though no way leads to it from the root. -/
theorem cycle_reports_unreached : Circuit loopStore ["back", "forth", "back"] ∧
    ∃ id, Relation.TransGen (ChildOf loopStore) id id := by
  have reported : .cycle ["back", "forth", "back"] ∈ structureProblems loopStore ["root"] := by
    decide +kernel
  obtain ⟨-, circuit, exists_iff⟩ := cycle_reports loopStore ["root"]
  exact ⟨circuit _ reported, exists_iff.mp ⟨_, reported⟩⟩

end Rulebook.Forest
