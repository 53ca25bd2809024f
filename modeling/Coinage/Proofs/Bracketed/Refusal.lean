import Coinage.Proofs.Bracketed.Invariant

namespace Coinage

namespace Bracketed

-- The text begins a text that is accepted.
def Viable (text : Text) : Prop :=
  ∃ rest, Matched depthLimit (text ++ rest)

-- The character is the first one that cannot stand where it does.
def Impossible (before : Text) (c : Char) : Prop :=
  Viable before ∧ ¬ Viable (before ++ [c])

-- What a flaw means for the character it is about, the text before it and the
-- text after it.
def Explains : Flaw → Text → Char → Text → Prop
  | .tooDeep, before, c, _ => (∃ bracket : Bracket, c = bracket.opener) ∧ Impossible before c
  | .strayCloser bracket, before, c, _ => c = bracket.closer ∧ Impossible before c
  | .wrongCloser expected found, before, c, _ =>
    c = found.closer ∧ Impossible before c ∧ Viable (before ++ [expected.closer])
  | .unclosedQuote, before, c, after =>
    c = '"' ∧ before.count '"' % 2 = 0 ∧ '"' ∉ after ∧ Viable (before ++ c :: after)
  | .unclosedGroup bracket, before, c, after =>
    c = bracket.opener ∧ before.count '"' % 2 = 0 ∧ Matched depthLimit after ∧
      (before ++ c :: after).count '"' % 2 = 0 ∧ Viable (before ++ c :: after)

end Bracketed

namespace Reader

open Bracketed

-- The closers of the open groups, innermost first, complete a text.
theorem exists_close_groups (position : Nat) (level : Bracketed) (groups : List OpenGroup) :
    ∃ rest offset items, run ⟨position, level, groups, none⟩ rest =
      .ok ⟨offset, items, [], none⟩ := by
  induction groups generalizing position level with
  | nil => exact ⟨[], position, level, rfl⟩
  | cons inner groups ih =>
    obtain ⟨bracket, start, before⟩ := inner
    obtain ⟨rest, offset, items, h⟩ :=
      ih (position + bracket.closer.utf8Size) (.group bracket level.reverse before)
    exact ⟨bracket.closer :: rest, offset, items, (run_cons_of_ok (step_closer ..) rest).trans h⟩

theorem exists_close (reader : Reader) :
    ∃ rest offset items, reader.run rest = .ok ⟨offset, items, [], none⟩ := by
  obtain ⟨position, level, groups, quote⟩ := reader
  cases quote with
  | none => exact exists_close_groups position level groups
  | some quote =>
    obtain ⟨offset, text⟩ := quote
    obtain ⟨rest, offset', items, h⟩ :=
      exists_close_groups (position + '"'.utf8Size) (.quoted text.reverse level) groups
    exact ⟨'"' :: rest, offset', items, (run_cons_of_ok (step_unquote ..) rest).trans h⟩

-- Whatever can be read can be completed.
theorem viable_of_run {text : Text} {reader : Reader} (h : start.run text = .ok reader) :
    Viable text := by
  obtain ⟨rest, offset, items, hrest⟩ := exists_close reader
  have hread := read_of_run ((run_append_of_ok h rest).trans hrest)
  exact ⟨rest, exists_read_eq_ok_iff.mp ⟨items.reverse, hread⟩⟩

theorem not_viable_of_refused {before : Text} {c : Char} {reader : Reader}
    {malformation : Malformation} (hr : start.run before = .ok reader)
    (hs : reader.step c = .error malformation) : ¬ Viable (before ++ [c]) := by
  rintro ⟨rest, hm⟩
  obtain ⟨level, hread⟩ := exists_read_eq_ok_iff.mpr hm
  have herror : start.run (before ++ [c] ++ rest) = .error malformation := by
    rw [List.append_assoc, run_append_of_ok hr]
    exact run_cons_of_error hs rest
  rw [read_of_run_error herror] at hread
  cases hread

-- A character is refused at the first place where that can be known.
theorem explains_of_refused {before after : Text} {c : Char} {reader : Reader}
    {malformation : Malformation} (hr : start.run before = .ok reader)
    (hs : reader.step c = .error malformation) :
    malformation.position = before.utf8Length ∧ Explains malformation.flaw before c after := by
  have himpossible : Impossible before c := ⟨viable_of_run hr, not_viable_of_refused hr hs⟩
  obtain ⟨hposition, hrefuses⟩ := refuses_of_eq_error hs
  obtain ⟨position, flaw⟩ := malformation
  refine ⟨hposition.trans (follows_of_run hr).position_eq, ?_⟩
  dsimp only at hrefuses ⊢
  cases hrefuses with
  | tooDeep bracket _ => exact ⟨⟨bracket, rfl⟩, himpossible⟩
  | strayCloser bracket => exact ⟨rfl, himpossible⟩
  | @wrongCloser _ _ inner _ bracket _ =>
    obtain ⟨expected, offset, items⟩ := inner
    refine ⟨rfl, himpossible, ?_⟩
    exact viable_of_run ((run_append_of_ok hr _).trans (run_cons_of_ok (step_closer ..) []))

theorem even_count_quote_openText {groups : List OpenGroup} (h : GroupsFollow groups) :
    (openText groups).count '"' % 2 = 0 := by
  induction groups with
  | nil => rfl
  | cons inner groups ih =>
    obtain ⟨-, hl, -, -, hg⟩ := h
    have ho := ih hg
    have hb := even_count_quote_render hl.reverse
    have hc : (inner.bracket.opener == '"') = false := by simp
    simp only [openText, List.count_append, List.count_cons, List.count_nil, hc,
      Bool.false_eq_true, ite_false]
    omega

-- What is still open at the end of a text is reported where it was opened.
theorem explains_of_unfinished {text : Text} {reader : Reader} {malformation : Malformation}
    (hr : start.run text = .ok reader) (hs : reader.finish = .error malformation) :
    ∃ before c after, text = before ++ c :: after ∧ malformation.position = before.utf8Length ∧
      Explains malformation.flaw before c after := by
  have hviable := viable_of_run hr
  obtain ⟨ht, -, hl, hd, hg, hq⟩ := follows_of_run hr
  obtain ⟨position, level, groups, quote⟩ := reader
  have hlevel := even_count_quote_render hl.reverse
  cases quote with
  | some quote =>
    cases hs
    have ho := even_count_quote_openText hg
    refine ⟨_, '"', quote.text.reverse, ht, hq.1, rfl, ?_, by simpa using hq.2, ht ▸ hviable⟩
    rw [List.count_append]
    omega
  | none =>
    cases groups with
    | nil => cases hs
    | cons inner groups =>
      cases hs
      obtain ⟨hposition, hlb, -, -, hgs⟩ := hg
      have ho := even_count_quote_openText hgs
      have hb := even_count_quote_render hlb.reverse
      have htext : text = (openText groups ++ inner.before.reverse.render) ++
          inner.bracket.opener :: level.reverse.render := by
        simpa [openText, quoteText] using ht
      have hc : (inner.bracket.opener == '"') = false := by simp
      refine ⟨_, inner.bracket.opener, _, htext, hposition, rfl, ?_, ?_, ?_, htext ▸ hviable⟩
      · rw [List.count_append]
        omega
      · have hdepth : level.reverse.depth ≤ depthLimit := by
          rw [depth_reverse]
          exact Nat.le_trans (Nat.le_add_right _ _) hd
        exact matched_render hl.reverse hdepth
      · dsimp only at hlevel
        simp only [List.count_append, List.count_cons, hc, Bool.false_eq_true, ite_false]
        omega

end Reader

namespace Bracketed

theorem explains_of_read_eq_error {text : Text} {malformation : Malformation}
    (h : read text = .error malformation) :
    ∃ before c after, text = before ++ c :: after ∧ malformation.position = before.utf8Length ∧
      Explains malformation.flaw before c after := by
  cases hr : Reader.start.run text with
  | ok reader => exact Reader.explains_of_unfinished hr ((read_of_run hr).symm.trans h)
  | error other =>
    have hm : other = malformation := by
      rw [read_of_run_error hr] at h
      exact Except.error.inj h
    subst hm
    obtain ⟨before, c, after, reader, rfl, hrun, hstep⟩ := Reader.exists_of_run_eq_error hr
    obtain ⟨hposition, hexplains⟩ := Reader.explains_of_refused hrun hstep
    exact ⟨before, c, after, rfl, hposition, hexplains⟩

-- Exactly the texts of the grammar are accepted. A refusal points to a
-- character of the text and to the first place where it could be known.
theorem read_accepts_grammar_and_explains (text : Text) :
    ((∃ level, read text = .ok level) ↔ Matched depthLimit text) ∧
      ∀ malformation, read text = .error malformation →
        ∃ before c after, text = before ++ c :: after ∧
          malformation.position = before.utf8Length ∧
          Explains malformation.flaw before c after :=
  ⟨exists_read_eq_ok_iff, fun _ h => explains_of_read_eq_error h⟩

end Bracketed

end Coinage
