import Rulebook.Proofs.Editor.Diagnosis
import Rulebook.Proofs.Editor.Steps

/-!
# Rulebook — Proofs — Editor — Coherence

The phase of an editor, and those who are told of it.  The phase says whether there are nodes,
whether there are changes that are not saved, and whether what the last validation found is what one
would find now (`Coherent`); that is so after every change, whatever was so before
(`coherent_afterChange`).  Events are sent where the phase is entered and nowhere else, so that the
changes of phase that a subscriber is told of lead from the phase in which it subscribed to the
present one (`Tells`, `Follows`).

* `coherent_run`: both, after any run of commands.
-/

namespace Rulebook

/-- The change of phase that an event reports. -/
def Event.change? : Event → Option (Phase × Phase)
  | .phaseChanged before after => some (before, after)
  | _ => none

namespace Editor

variable {e e' e'' : Editor} {c : Command} {o : Outcome} {p q : Phase} {s : Nat}

/-! ### The phase -/

/-- What the last validation found is what one would find now. -/
structure Found (e : Editor) : Prop where
  diagnostics : e.diagnostics = (diagnose e.settings e.document).diagnostics
  text : e.text = (diagnose e.settings e.document).text

/-- The phase fits the nodes and the changes that are not saved. -/
structure Phased (e : Editor) : Prop where
  empty_iff : e.phase = .empty ↔ e.document.nodes.isEmpty = true
  saved : e.phase = .clean → e.dirty = false
  unsaved : e.phase = .populated ∨ e.phase = .dirty → e.dirty = true

/-- The phase fits, and so does what was found where something has to have been found. -/
structure Coherent (e : Editor) : Prop extends Phased e where
  found : e.phase = .validated ∨ e.settings.autoValidate = true → e.Found

/-- Entering a phase changes that, and what has been sent. -/
theorem exists_enter (e : Editor) (p : Phase) :
    ∃ sent, e.enter p = { e with phase := p, outbox := sent } := by
  rw [enter]
  split
  · rename_i h
    exact ⟨e.outbox, by rw [← h]⟩
  · exact ⟨_, rfl⟩

/-- A new editor is empty, clean, and has nothing to find fault with. -/
theorem coherent_new (settings : Settings) : (new settings).Coherent where
  empty_iff := ⟨fun _ => rfl, fun _ => rfl⟩
  saved := nofun
  unsaved h := by rcases h with h | h <;> cases h
  found _ := ⟨rfl, rfl⟩

/-- Where there are nodes, it is fit for validated ones to be so. -/
theorem phased_validated (hn : ¬ e.document.nodes.isEmpty = true) (hp : e.phase = .validated) :
    e.Phased where
  empty_iff := ⟨fun h => (by rw [hp] at h; cases h), fun h => absurd h hn⟩
  saved h := by rw [hp] at h; cases h
  unsaved h := by
    rw [hp] at h
    rcases h with h | h <;> cases h

/-- A validation leaves an editor coherent if its phase fits. -/
theorem Phased.validate (h : e.Phased) : e.validate.Coherent := by
  simp only [Editor.validate]
  split
  · exact ⟨⟨h.empty_iff, h.saved, h.unsaved⟩, fun _ => ⟨rfl, rfl⟩⟩
  · rename_i hn
    obtain ⟨sent, hsent⟩ := exists_enter { e with
      diagnostics := (diagnose e.settings e.document).diagnostics
      text := (diagnose e.settings e.document).text } .validated
    rw [hsent]
    exact ⟨phased_validated hn rfl, fun _ => ⟨rfl, rfl⟩⟩

/-- The phase is that of an empty document exactly if the document is empty. -/
theorem phaseAfter_eq_empty (e : Editor) (loaded : Bool) :
    e.phaseAfter loaded = .empty ↔ e.document.nodes.isEmpty = true := by
  rw [phaseAfter]
  split
  · exact ⟨fun _ => ‹_›, fun _ => rfl⟩
  · rename_i hn
    split <;> exact ⟨nofun, fun h => absurd h hn⟩

/-- After a change nothing is saved or validated. -/
theorem phaseAfter_ne (e : Editor) (loaded : Bool) :
    e.phaseAfter loaded ≠ .clean ∧ e.phaseAfter loaded ≠ .validated := by
  rw [phaseAfter]
  split
  · exact ⟨nofun, nofun⟩
  · split <;> exact ⟨nofun, nofun⟩

/-- **A change leaves any editor coherent.** -/
theorem coherent_afterChange (e : Editor) (loaded : Bool) : (e.afterChange loaded).Coherent := by
  obtain ⟨sent, hsent⟩ := exists_enter { e with dirty := true } (e.phaseAfter loaded)
  obtain ⟨hclean, hvalidated⟩ := phaseAfter_ne e loaded
  simp only [afterChange, hsent]
  have hphased : Phased ({ e with
      dirty := true, phase := e.phaseAfter loaded, outbox := sent }.emit .stateChanged) :=
    ⟨phaseAfter_eq_empty e loaded, fun hp => absurd hp hclean, fun _ => rfl⟩
  split
  · exact hphased.validate
  · rename_i hauto
    exact ⟨hphased, fun hp => absurd hp (not_or.mpr ⟨hvalidated, hauto⟩)⟩

/-- To take the state as saved keeps an editor coherent. -/
theorem Coherent.markClean (h : e.Coherent) : e.markClean.Coherent := by
  simp only [Editor.markClean]
  have hfound (hf : e.phase = .validated ∨ e.settings.autoValidate = true) :=
    (⟨(h.found hf).diagnostics, (h.found hf).text⟩ : Found { e with dirty := false })
  split
  · rename_i hn
    refine ⟨⟨h.empty_iff, fun _ => rfl, fun hs => ?_⟩, hfound⟩
    have hs : Phase.empty = .populated ∨ Phase.empty = .dirty := h.empty_iff.mpr hn ▸ hs
    rcases hs with hs | hs <;> cases hs
  · rename_i hn
    obtain ⟨sent, hsent⟩ := exists_enter { e with dirty := false } .clean
    rw [hsent]
    refine ⟨⟨⟨fun h => ?_, fun h => absurd h hn⟩, fun _ => rfl, fun hs => ?_⟩, fun hf => ?_⟩
    · cases h
    · rcases hs with hs | hs <;> cases hs
    · have := hfound (.inr (hf.resolve_left Phase.noConfusion))
      exact ⟨this.diagnostics, this.text⟩

/-- What is selected, shown and sent has no say in this. -/
theorem Coherent.frame (h : e.Coherent) (id : Option String) (view : View)
    (subscribers : List Nat) (subscriptions : Nat) (outbox : List (Nat × Event)) :
    Coherent { e with
      document := { e.document with selected := id }
      view := view
      subscribers := subscribers
      subscriptions := subscriptions
      outbox := outbox } :=
  ⟨⟨h.empty_iff, h.saved, h.unsaved⟩, fun hf => ⟨(h.found hf).diagnostics, (h.found hf).text⟩⟩

/-- **A command leaves a coherent editor coherent.** -/
theorem Step.coherent (hs : Step e c o e') (h : e.Coherent) : e'.Coherent := by
  cases hs with
  | idle ho => exact h
  | edit hc ho next d description loaded => exact coherent_afterChange _ loaded
  | undo hu => exact coherent_afterChange _ false
  | redo hr => exact coherent_afterChange _ false
  | select id => exact h.frame id _ _ _ _
  | markClean => exact h.markClean
  | validate => exact h.toPhased.validate
  | setView view =>
      rw [Editor.setView]
      split
      · exact h
      · exact h.frame _ view _ _ _
  | subscribe => exact h.frame _ _ _ _ _
  | unsubscribe subscriber => exact h.frame _ _ _ _ _

/-! ### Changes of phase -/

/-- The changes of phase that have been reported to a subscriber, in order. -/
def changes (s : Nat) (sent : List (Nat × Event)) : List (Phase × Phase) :=
  sent.filterMap fun m => if m.1 = s then m.2.change? else none

/-- Changes that lead from a phase to another: each is to a new phase, and from where the one before
has led. -/
inductive Chain : Phase → List (Phase × Phase) → Phase → Prop where
  | nil (p : Phase) : Chain p [] p
  | cons {p q last : Phase} {rest : List (Phase × Phase)} (hne : q ≠ p) (h : Chain q rest last) :
      Chain p ((p, q) :: rest) last

/-- Changes of phase that go on where others end are one chain. -/
theorem Chain.append {l₁ l₂ : List (Phase × Phase)} {last : Phase} (h₁ : Chain p l₁ q)
    (h₂ : Chain q l₂ last) : Chain p (l₁ ++ l₂) last := by
  induction h₁ with
  | nil p => exact h₂
  | cons hne h ih => exact .cons hne (ih h₂)

/-- What a subscriber is told of changes is told in the order in which it is sent. -/
theorem changes_append (s : Nat) (sent₁ sent₂ : List (Nat × Event)) :
    changes s (sent₁ ++ sent₂) = changes s sent₁ ++ changes s sent₂ :=
  List.filterMap_append

/-- Of what is sent to others a subscriber is not told. -/
theorem changes_eq_nil {sent : List (Nat × Event)} (h : ∀ m ∈ sent, m.1 ≠ s) :
    changes s sent = [] := by
  rw [changes, List.filterMap_eq_nil_iff]
  intro m hm
  rw [if_neg (h m hm)]

/-- A subscriber is told of an event once. -/
theorem changes_map {subscribers : List Nat} (hnodup : subscribers.Nodup) (hs : s ∈ subscribers)
    (event : Event) :
    changes s (subscribers.map fun t => (t, event)) = event.change?.toList := by
  induction subscribers with
  | nil => cases hs
  | cons t subscribers ih =>
      obtain ⟨ht, hnodup⟩ := List.nodup_cons.mp hnodup
      rw [List.map_cons, changes, List.filterMap_cons]
      rcases List.mem_cons.mp hs with rfl | hs
      · have hrest : changes s (subscribers.map fun t => (t, event)) = [] := by
          refine changes_eq_nil fun m hm => ?_
          obtain ⟨t, htail, rfl⟩ := List.mem_map.mp hm
          exact ne_of_mem_of_not_mem htail ht
        rw [changes] at hrest
        rw [if_pos rfl, hrest]
        cases event.change? <;> rfl
      · have hne : t ≠ s := (ne_of_mem_of_not_mem hs ht).symm
        rw [if_neg hne]
        exact ih hnodup hs

/-! ### What subscribers are told -/

/-- The subscribers stay the same, and each is told how the phase comes to be another. -/
structure Tells (e e' : Editor) : Prop where
  subscribers : e'.subscribers = e.subscribers
  subscriptions : e'.subscriptions = e.subscriptions
  sent : ∃ sent, e'.outbox = e.outbox ++ sent ∧ (∀ m ∈ sent, m.1 ∈ e.subscribers) ∧
    ∀ s ∈ e.subscribers, Chain e.phase (changes s sent) e'.phase

/-- What is told in two stretches is told in one. -/
theorem Tells.trans (h : Tells e e') (h' : Tells e' e'') : Tells e e'' := by
  obtain ⟨sent, hsent, hto, hchain⟩ := h.sent
  obtain ⟨sent', hsent', hto', hchain'⟩ := h'.sent
  rw [h.subscribers] at hto' hchain'
  refine ⟨h'.subscribers.trans h.subscribers, h'.subscriptions.trans h.subscriptions,
    sent ++ sent', ?_, ?_, ?_⟩
  · rw [hsent', hsent, List.append_assoc]
  · intro m hm
    exact (List.mem_append.mp hm).elim (hto m) (hto' m)
  · intro s hs
    rw [changes_append]
    exact (hchain s hs).append (hchain' s hs)

/-- Nobody comes to be listed twice. -/
theorem Tells.nodup (h : Tells e e') (hnodup : e.subscribers.Nodup) : e'.subscribers.Nodup := by
  rw [h.subscribers]
  exact hnodup

/-- Where the phase stays and nothing is sent there is nothing to be told. -/
theorem Tells.of_eq (hs : e'.subscribers = e.subscribers) (hn : e'.subscriptions = e.subscriptions)
    (hout : e'.outbox = e.outbox) (hp : e'.phase = e.phase) : Tells e e' := by
  refine ⟨hs, hn, [], by rw [hout, List.append_nil], nofun, fun s _ => ?_⟩
  rw [hp]
  exact .nil e.phase

/-- An event that reports in what way the phase is another. -/
theorem tells_emit {event : Event} (hnodup : e.subscribers.Nodup)
    (hchain : Chain e.phase event.change?.toList p) :
    Tells e ({ e with phase := p }.emit event) := by
  refine ⟨rfl, rfl, _, rfl, ?_, ?_⟩
  · intro m hm
    obtain ⟨t, ht, rfl⟩ := List.mem_map.mp hm
    exact ht
  · intro s hs
    rw [changes_map hnodup hs]
    exact hchain

/-- A change of phase is told to all subscribers, once. -/
theorem tells_enter (hnodup : e.subscribers.Nodup) (p : Phase) : Tells e (e.enter p) := by
  rw [enter]
  split
  · exact .of_eq rfl rfl rfl rfl
  · rename_i hne
    exact tells_emit hnodup (.cons (Ne.symm hne) (.nil p))

theorem Tells.enter (h : Tells e e') (hnodup : e.subscribers.Nodup) (p : Phase) :
    Tells e (e'.enter p) :=
  h.trans (tells_enter (h.nodup hnodup) p)

/-- After the phase has been reported anything else may be. -/
theorem Tells.emit {event : Event} (h : Tells e e') (hnodup : e.subscribers.Nodup)
    (hevent : event.change? = none) : Tells e (e'.emit event) := by
  refine h.trans (tells_emit (p := e'.phase) (h.nodup hnodup) ?_)
  rw [hevent]
  exact .nil e'.phase

/-- A diagnosis tells everyone of the phase that it enters. -/
theorem tells_validate (hnodup : e.subscribers.Nodup) : Tells e e.validate := by
  have htold : Tells e { e with
      diagnostics := (diagnose e.settings e.document).diagnostics
      text := (diagnose e.settings e.document).text } := .of_eq rfl rfl rfl rfl
  simp only [Editor.validate]
  split
  · exact htold.emit hnodup rfl
  · exact (htold.enter hnodup .validated).emit hnodup rfl

/-- What follows a change of the document is told in the order in which it is done. -/
theorem tells_afterChange (hnodup : e.subscribers.Nodup) (loaded : Bool) :
    Tells e (e.afterChange loaded) := by
  have hdirty : Tells e { e with dirty := true } := .of_eq rfl rfl rfl rfl
  have htold :
      Tells e (({ e with dirty := true }.enter (e.phaseAfter loaded)).emit .stateChanged) :=
    (hdirty.enter hnodup (e.phaseAfter loaded)).emit hnodup rfl
  simp only [afterChange]
  split
  · exact htold.trans (tells_validate (htold.nodup hnodup))
  · exact htold

theorem tells_markClean (hnodup : e.subscribers.Nodup) : Tells e e.markClean := by
  have hsaved : Tells e { e with dirty := false } := .of_eq rfl rfl rfl rfl
  simp only [markClean]
  split
  · exact hsaved
  · exact hsaved.enter hnodup .clean

theorem tells_setView (hnodup : e.subscribers.Nodup) (view : View) :
    Tells e (e.setView view) := by
  have hview : Tells e { e with view := view } := .of_eq rfl rfl rfl rfl
  rw [setView]
  split
  · exact .of_eq rfl rfl rfl rfl
  · exact hview.emit hnodup rfl

/-- A command other than one about a subscription tells the subscribers how the phase changes. -/
theorem Step.tells (hs : Step e c o e') (hnodup : e.subscribers.Nodup) :
    Tells e e' ∨ (∃ t, e' = { e with subscribers := e.subscribers.filter fun s => s != t }) ∨
      e' = e.subscribe.2 := by
  have changed {e₁ : Editor} (loaded : Bool) (h : Tells e e₁) : Tells e (e₁.afterChange loaded) :=
    h.trans (tells_afterChange (h.nodup hnodup) loaded)
  cases hs with
  | idle ho => exact .inl (.of_eq rfl rfl rfl rfl)
  | edit hc ho next d description loaded => exact .inl (changed loaded (.of_eq rfl rfl rfl rfl))
  | undo hu => exact .inl (changed false (.of_eq rfl rfl rfl rfl))
  | redo hr => exact .inl (changed false (.of_eq rfl rfl rfl rfl))
  | select id =>
      have hselected : Tells e { e with document := { e.document with selected := id } } :=
        .of_eq rfl rfl rfl rfl
      exact .inl (hselected.emit hnodup rfl)
  | markClean => exact .inl (tells_markClean hnodup)
  | validate => exact .inl (tells_validate hnodup)
  | setView view => exact .inl (tells_setView hnodup view)
  | subscribe => exact .inr (.inr rfl)
  | unsubscribe t => exact .inr (.inl ⟨t, rfl⟩)

/-! ### Runs -/

/-- The subscribers are among those that there have been, and only to these has anything been
sent. -/
structure Registered (e : Editor) : Prop where
  nodup : e.subscribers.Nodup
  known : ∀ s ∈ e.subscribers, s < e.subscriptions
  sent : ∀ m ∈ e.outbox, m.1 < e.subscriptions

theorem registered_new (settings : Settings) : (new settings).Registered := ⟨.nil, nofun, nofun⟩

/-- A new subscriber gets a number that no one has had. -/
theorem Registered.subscribe (h : e.Registered) : e.subscribe.2.Registered where
  nodup := List.nodup_append.mpr ⟨h.nodup, List.nodup_singleton _, fun s hs t ht => by
    rw [List.mem_singleton.mp ht]
    exact (h.known s hs).ne⟩
  known s hs := by
    rcases List.mem_append.mp hs with hs | hs
    · exact Nat.lt_succ_of_lt (h.known s hs)
    · rw [List.mem_singleton.mp hs]
      exact Nat.lt_succ_self _
  sent m hm := Nat.lt_succ_of_lt (h.sent m hm)

theorem Registered.of_tells (h : e.Registered) (ht : Tells e e') : e'.Registered := by
  obtain ⟨sent, hsent, hto, -⟩ := ht.sent
  refine ⟨ht.subscribers ▸ h.nodup, ?_, ?_⟩
  · rw [ht.subscribers, ht.subscriptions]
    exact h.known
  · intro m hm
    rw [hsent] at hm
    rw [ht.subscriptions]
    exact (List.mem_append.mp hm).elim (h.sent m) fun hm => h.known _ (hto m hm)

/-- Every command keeps the subscribers in order, whether someone comes or goes. -/
theorem Step.registered (hs : Step e c o e') (h : e.Registered) : e'.Registered := by
  rcases hs.tells h.nodup with ht | ⟨t, rfl⟩ | rfl
  · exact h.of_tells ht
  · exact ⟨h.nodup.filter _, fun s hs => h.known s (List.mem_of_mem_filter hs), h.sent⟩
  · exact h.subscribe

/-- Someone who has subscribed in a phase has been told, as long as it has been a subscriber, how
the phase has become what it is. -/
structure Follows (start : Phase) (s : Nat) (e : Editor) : Prop extends Registered e where
  subscribed : s < e.subscriptions
  chain : ∃ last, Chain start (changes s e.outbox) last ∧ (s ∈ e.subscribers → last = e.phase)

/-- A new subscriber follows the phase from the present one on. -/
theorem Registered.follows (h : e.Registered) :
    Follows e.phase e.subscribe.1 e.subscribe.2 where
  toRegistered := h.subscribe
  subscribed := Nat.lt_succ_self _
  chain := by
    have hnone : changes e.subscriptions e.outbox = [] :=
      changes_eq_nil fun m hm => (h.sent m hm).ne
    refine ⟨e.phase, ?_, fun _ => rfl⟩
    show Chain e.phase (changes e.subscriptions e.outbox) e.phase
    rw [hnone]
    exact .nil e.phase

/-- **A command tells a subscriber how the phase changes**, and those who are none nothing. -/
theorem Step.follows {start : Phase} (hs : Step e c o e') (h : Follows start s e) :
    Follows start s e' := by
  obtain ⟨last, hchain, hlast⟩ := h.chain
  refine ⟨hs.registered h.toRegistered, ?_, ?_⟩
  · rcases hs.tells h.nodup with ht | ⟨t, rfl⟩ | rfl
    · exact ht.subscriptions ▸ h.subscribed
    · exact h.subscribed
    · exact Nat.lt_succ_of_lt h.subscribed
  · rcases hs.tells h.nodup with ht | ⟨t, rfl⟩ | rfl
    · obtain ⟨sent, hsent, hto, hmore⟩ := ht.sent
      rw [hsent, changes_append, ht.subscribers]
      by_cases hmem : s ∈ e.subscribers
      · rw [hlast hmem] at hchain
        exact ⟨e'.phase, hchain.append (hmore s hmem), fun _ => rfl⟩
      · have hnone : changes s sent = [] :=
          changes_eq_nil fun m hm => ne_of_mem_of_not_mem (hto m hm) hmem
        rw [hnone, List.append_nil]
        exact ⟨last, hchain, fun hs => absurd hs hmem⟩
    · exact ⟨last, hchain, fun hs => hlast (List.mem_of_mem_filter hs)⟩
    · refine ⟨last, hchain, fun hs => ?_⟩
      rcases List.mem_append.mp hs with hs | hs
      · exact hlast hs
      · exact absurd (List.mem_singleton.mp hs) h.subscribed.ne

/-- **The phase, the changes that are not saved and what was found are coherent after any run of
commands**, and whoever subscribes then is told of changes of phase that lead from the phase then to
the one in which it is a subscriber at last. -/
theorem coherent_run (settings : Settings) (commands : List Command) :
    let e := (new settings).run commands
    e.Coherent ∧ ∀ more,
      let e' := e.subscribe.2.run more
      ∃ last, Chain e.phase (changes e.subscribe.1 e'.outbox) last ∧
        (e.subscribe.1 ∈ e'.subscribers → last = e'.phase) := by
  intro e
  have hcoherent : e.Coherent := run_induction Step.coherent (coherent_new settings) commands
  have hregistered : e.Registered :=
    run_induction Step.registered (registered_new settings) commands
  refine ⟨hcoherent, fun more => ?_⟩
  exact (run_induction Step.follows hregistered.follows more).chain

/-- Someone who subscribes when all is saved is told that everything is removed, that it is back,
and that it is validated. -/
theorem coherent_run_restored :
    let e := (new ⟨false, false, 3, .standard⟩).run
      [.add (some "a") ⟨none, none, .group .and⟩ none, .markClean]
    let e' := e.subscribe.2.run [.remove "a", .undo, .validate, .select none]
    (e.phase = .clean ∧ e.dirty = false) ∧
      (0 ∈ e'.subscribers ∧ e'.phase = .validated) ∧
      changes 0 e'.outbox = [(.clean, .empty), (.empty, .populated), (.populated, .validated)] ∧
      Chain .clean (changes 0 e'.outbox) .validated := by
  intro e e'
  obtain ⟨coherent, told⟩ := coherent_run ⟨false, false, 3, .standard⟩
    [.add (some "a") ⟨none, none, .group .and⟩ none, .markClean]
  obtain ⟨last, chain, present⟩ := told [.remove "a", .undo, .validate, .select none]
  have saved : e.phase = .clean := by decide +kernel
  have listens : 0 ∈ e'.subscribers := by decide +kernel
  have validated : e'.phase = .validated := by decide +kernel
  have hlast : last = .validated := (present listens).trans validated
  rw [hlast] at chain
  refine ⟨⟨saved, coherent.saved saved⟩, ⟨listens, validated⟩, by decide +kernel, ?_⟩
  rw [← saved]
  exact chain

end Editor

end Rulebook
