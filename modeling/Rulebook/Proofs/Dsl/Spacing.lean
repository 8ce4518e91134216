import Rulebook.Proofs.Dsl.Documents

/-!
# Rulebook — Proofs — Dsl — Spacing

Blanks and comments between the tokens of a text make no difference to what is read
(`parse_padded`).  Behind a comment that the end of the text closes nothing may be put in, for it
would go on with the comment (`parse_behind_record`).
-/

namespace Rulebook.Dsl

variable {cs ds : List Char}

/-- Texts with the same lexemes are read alike. -/
theorem document_of_parallel {o : Option Rule} (h : Parallel [] 0 cs ds)
    (hd : document cs = .ok o []) : document ds = .ok o [] := by
  cases o with
  | none => exact document_of_nil (h.tail_of_nil (document_eq_none_iff.mp hd))
  | some r =>
      have aligned : (Bridge.plain []).Aligned false false 0 cs ds := h.aligned
      obtain ⟨q, j, hq, ⟨-, rfl⟩, -⟩ := document_of_aligned fits_plain rfl aligned hd
      exact hq

/-- Texts with the same lexemes and records are read alike. -/
theorem read_of_parallel {o : Option Rule} (h : read cs = .ok o) (hp : Parallel [] 0 cs ds)
    (hr : recordTexts ds = recordTexts cs) : read ds = .ok o := by
  have structure_eq {q : Option Rule} (hq : readStructure cs = .ok q) : readStructure ds = .ok q :=
    readStructure_eq_ok_iff.mpr (document_of_parallel hp (readStructure_eq_ok_iff.mp hq))
  cases o with
  | none => exact read_eq_ok_none_iff.mpr (structure_eq (read_eq_ok_none_iff.mp h))
  | some r =>
      obtain ⟨q, hq, hs⟩ := read_eq_ok_some_iff.mp h
      exact read_eq_ok_some_iff.mpr ⟨q, structure_eq hq, hr ▸ hs⟩

/-- **Blanks and comments between tokens are insignificant.**  Wherever they are put in outside of
the tokens and comments of a text, what is read is the same, records included. -/
theorem parse_padded {text text' : String} {o : Option Rule} (h : parse text = .ok o)
    (hp : Padded [] text.toList text'.toList) : parse text' = .ok o := by
  obtain ⟨q, hq⟩ := exists_readStructure h
  have closes : Lint.Closes 0 text.toList := Lint.closes_of_cut (cut_of_readStructure hq) .nil
  refine read_of_parallel h (hp.parallel nofun closes) ?_
  rw [hp.recordTexts closes, show recordTexts [] = [] from rfl, List.append_nil]

/-- The record and the call are the same among line breaks, a tab and comments. -/
theorem parse_padded_call :
    ∃ r, parse "f(a)# @meta \x7b\"path\":[]\x7d" = .ok (some r) ∧
      parse "#\nf\t(a # x\n)# @meta \x7b\"path\":[]\x7d \n" = .ok (some r) := by
  have record : PathRecord.read? "\x7b\"path\":[]\x7d".toList =
      some ⟨[], ⟨none, none, none⟩⟩ := by decide +kernel
  let call : Atom := .call "f" [⟨.string "a", .fieldReference⟩]
  have read : parse "f(a)# @meta \x7b\"path\":[]\x7d" =
      .ok (some (.atom call (some ⟨none, none, none⟩))) := by
    refine read_eq_ok_some_iff.mpr ⟨.atom call none, rfl, ?_⟩
    rw [show recordTexts _ = ["\x7b\"path\":[]\x7d".toList] from rfl, List.foldlM_cons, setRecord,
      record]
    rfl
  have line : Padding ['#', '\n'] := @Padding.comment [] [] (by decide) (by decide) .nil
  have tab : Padding ['\t'] := .blank (by decide) .nil
  have note : Padding " # x\n".toList :=
    .blank (by decide) (@Padding.comment [' ', 'x'] [] (by decide) (by decide) .nil)
  have stop : Padding ['\n'] := .blank (by decide) .nil
  have last : Padded [] "# @meta \x7b\"path\":[]\x7d".toList
      "# @meta \x7b\"path\":[]\x7d \n".toList :=
    @Padded.comment [] " @meta \x7b\"path\":[]\x7d".toList [' '] [] ['\n'] (by decide)
      ⟨[' '], List.forall_mem_singleton.mpr (by decide), .inl rfl⟩ (.inl rfl) (.inr ⟨[], .inl rfl⟩)
      (.pad stop .done)
  refine ⟨_, read, parse_padded read (.pad line ?_)⟩
  refine .token (by decide) rfl (by decide) (.pad tab ?_)
  refine .token (by decide) rfl (by decide) ?_
  refine .token (by decide) rfl (by decide) (.pad note ?_)
  exact .token (by decide) rfl (by decide) last

/-- A comment that is put in behind all tokens goes on with the comment in front of it, and spoils
the record there. -/
theorem parse_behind_record :
    let text := "a == 1 # @meta \x7b\"path\":[]\x7d"
    Padding "# x\n".toList ∧ (∀ t ∈ Lint.tokens text.toList, t.stop ≤ Text.width text.toList) ∧
      (parse text).isOk = true ∧ (parse (text ++ "# x\n")).isOk = false :=
  ⟨@Padding.comment [' ', 'x'] [] (by decide) (by decide) .nil, by decide, by decide +kernel,
    by decide +kernel⟩

end Rulebook.Dsl
