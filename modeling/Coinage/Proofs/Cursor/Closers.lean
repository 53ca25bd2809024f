import Coinage.Proofs.Bracketed.Refusal
import Coinage.Proofs.Cursor.Spanning
import Mathlib.Data.List.Forall2

namespace Coinage

namespace Cursor

theorem takeWhile_ne_quote {text : Text} (ht : '"' ∉ text) (rest : Text) :
    (text ++ '"' :: rest).takeWhile (· ≠ '"') = text ∧
      (text ++ '"' :: rest).dropWhile (· ≠ '"') = '"' :: rest := by
  induction text with
  | nil => simp
  | cons c text ih =>
    simp only [List.mem_cons, not_or] at ht
    simpa [Ne.symm ht.1] using ih ht.2

theorem dropWhile_ne_quote {text : Text} (ht : '"' ∉ text) :
    text.dropWhile (· ≠ '"') = [] := by
  induction text with
  | nil => rfl
  | cons c text ih =>
    simp only [List.mem_cons, not_or] at ht
    simpa [Ne.symm ht.1] using ih ht.2

theorem scanQuoted_spanning (before after : Text) {text : Text} (ht : '"' ∉ text) (rest : Text) :
    (spanning before ('"' :: text ++ '"' :: rest) after).scanQuoted =
      .ok (text, spanning (before ++ ('"' :: text ++ ['"'])) rest after) := by
  obtain ⟨htake, hdrop⟩ := takeWhile_ne_quote ht rest
  have hclose := skipWhile_spanning (before ++ ['"']) (text ++ '"' :: rest) after (· ≠ '"')
  rw [htake, hdrop] at hclose
  have htext : (spanning (before ++ ['"']) (text ++ '"' :: rest) after).textUntil
      (spanning (before ++ ['"'] ++ text) ('"' :: rest) after) = .ok text :=
    textUntil_spanning _ _ _ _ (by simp [Nat.add_assoc])
  have hnotEnd : ¬(spanning (before ++ ['"'] ++ text) ('"' :: rest) after).isAtEnd = true := by
    rw [isAtEnd_spanning]
    exact Bool.false_ne_true
  rw [scanQuoted, List.cons_append, bump_spanning, except_ok_bind, hclose, except_ok_bind,
    if_neg hnotEnd, htext, except_ok_bind, bump_spanning, except_ok_bind]
  simp

theorem scanQuoted_unclosed (before after : Text) {text : Text} (ht : '"' ∉ text) :
    (spanning before ('"' :: text) after).scanQuoted =
      (spanning before ('"' :: text) after).malformed .unclosedQuote := by
  have hclose := skipWhile_spanning (before ++ ['"']) text after (· ≠ '"')
  rw [dropWhile_ne_quote ht] at hclose
  rw [scanQuoted, bump_spanning, except_ok_bind, hclose, except_ok_bind, isAtEnd_spanning]
  rfl

end Cursor

-- A scan that passes over quotations does so in one step.
theorem Scan.run_of_quoted {σ : Type} {scan : Scan σ} {state next : σ} {text : Text}
    (ht : '"' ∉ text)
    (hstep : ∀ start after : Cursor, start.scanQuoted = .ok (text, after) →
      scan.step state start '"' = pure (next, after)) (before rest after : Text) :
    scan.run state (.spanning before ('"' :: text ++ '"' :: rest) after) =
      scan.run next (.spanning (before ++ ('"' :: text ++ ['"'])) rest after) := by
  have hscan := Cursor.scanQuoted_spanning before after ht rest
  apply Scan.run_of_step
  exact hstep _ _ hscan

-- The closers of a level that begins at an offset.
def Bracketed.closers (offset : Nat) : Bracketed → Closers
  | nil => []
  | char c rest => rest.closers (offset + c.utf8Size)
  | quoted text rest =>
    rest.closers (offset + '"'.utf8Size + text.utf8Length + '"'.utf8Size)
  | group bracket interior rest =>
    let inside := offset + bracket.opener.utf8Size
    let closer := inside + interior.render.utf8Length
    rest.closers (closer + bracket.closer.utf8Size) ++ (offset, closer) :: interior.closers inside

namespace Closers

open Bracketed Cursor

theorem step_matching (progress : Progress) (cursor : Cursor) (c : Char) :
    matching.step progress cursor c = .ofResult (matchStep progress cursor c) := rfl

section Step

variable (progress : Progress) (before rest after : Text)

theorem run_char {c : Char} (hc : c ∉ marks) :
    matching.run progress (spanning before (c :: rest) after) =
      matching.run progress (spanning (before ++ [c]) rest after) := by
  apply Scan.run_of_step
  simp [step_matching, matchStep, ne_quote_of_notMem_marks hc, ofOpener?_of_notMem_marks hc,
    ofCloser?_of_notMem_marks hc]

theorem run_quoted {text : Text} (ht : '"' ∉ text) :
    matching.run progress (spanning before ('"' :: text ++ '"' :: rest) after) =
      matching.run progress (spanning (before ++ ('"' :: text ++ ['"'])) rest after) := by
  apply Scan.run_of_quoted ht
  intro start after hscan
  rw [step_matching, matchStep, if_pos rfl, hscan, except_ok_bind, Logged.ofResult_ok]

theorem run_opener (bracket : Bracket) (hdepth : progress.pending.length < depthLimit) :
    matching.run progress (spanning before (bracket.opener :: rest) after) =
      matching.run
        ⟨(bracket, spanning before (bracket.opener :: rest) after) :: progress.pending,
          progress.closers⟩
        (spanning (before ++ [bracket.opener]) rest after) := by
  apply Scan.run_of_step
  simp [step_matching, matchStep, hdepth]

theorem run_closer (bracket : Bracket) (opener : Cursor) (pending : List (Bracket × Cursor))
    (closers : Closers) :
    matching.run ⟨(bracket, opener) :: pending, closers⟩
        (spanning before (bracket.closer :: rest) after) =
      matching.run ⟨pending, (opener.offset, before.utf8Length) :: closers⟩
        (spanning (before ++ [bracket.closer]) rest after) := by
  apply Scan.run_of_step
  simp [step_matching, matchStep]

end Step

-- A legible level adds its closers, as long as the groups do not nest too deep.
theorem run_render {level : Bracketed} (hl : level.Legible) (progress : Progress)
    (hdepth : level.depth + progress.pending.length ≤ depthLimit) (before rest after : Text) :
    matching.run progress (spanning before (level.render ++ rest) after) =
      matching.run ⟨progress.pending, level.closers before.utf8Length ++ progress.closers⟩
        (spanning (before ++ level.render) rest after) := by
  induction level generalizing progress before rest with
  | nil => simp [render, Bracketed.closers]
  | char c more ih =>
    rw [render, List.cons_append, run_char _ _ _ _ hl.1, ih hl.2 progress hdepth]
    simp [Bracketed.closers]
  | quoted text more ih =>
    have hrender : (quoted text more).render ++ rest =
        '"' :: text ++ '"' :: (more.render ++ rest) := by
      simp [render]
    rw [hrender, run_quoted _ _ _ _ hl.1, ih hl.2 progress hdepth]
    simp [Bracketed.closers, render, Nat.add_assoc]
  | group bracket interior more ihi ihr =>
    have hrender : (group bracket interior more).render ++ rest =
        bracket.opener :: (interior.render ++ bracket.closer :: (more.render ++ rest)) := by
      simp [render]
    simp only [Bracketed.depth] at hdepth
    rw [hrender, run_opener _ _ _ _ bracket (by omega),
      ihi hl.1 _ (by simp only [List.length_cons]; omega), run_closer,
      ihr hl.2 _ (by simp only; omega)]
    simp [Bracketed.closers, render, Nat.add_assoc]

-- What is noted about an open group.
def Notes (source : Text) (entry : Bracket × Cursor) (group : OpenGroup) : Prop :=
  entry.1 = group.bracket ∧ entry.2.source = source ∧ entry.2.offset = group.position

-- Up to any place in a text, the open groups are those that the reader knows.
theorem exists_run_openText {groups : List OpenGroup} (hg : Reader.GroupsFollow groups)
    (rest : Text) :
    ∃ progress, List.Forall₂ (Notes (Reader.openText groups ++ rest)) progress.pending groups ∧
      matching.run ⟨[], []⟩ (spanning [] (Reader.openText groups ++ rest) []) =
        matching.run progress (spanning (Reader.openText groups) rest []) := by
  induction groups generalizing rest with
  | nil => exact ⟨⟨[], []⟩, .nil, rfl⟩
  | cons inner groups ih =>
    obtain ⟨hposition, hl, hdepth, hopen, hrest⟩ := hg
    obtain ⟨progress, hpending, hrun⟩ := ih hrest
      (inner.before.reverse.render ++ inner.bracket.opener :: rest)
    have hlength := hpending.length_eq
    have htext : Reader.openText (inner :: groups) ++ rest = Reader.openText groups ++
        (inner.before.reverse.render ++ inner.bracket.opener :: rest) := by
      simp [Reader.openText]
    rw [htext, hrun, run_render hl.reverse _ (by rw [depth_reverse]; omega),
      run_opener _ _ _ _ _ (by simp only; omega)]
    refine ⟨_, ?_, rfl⟩
    refine .cons ⟨rfl, ?_, hposition.symm⟩ hpending
    simp

theorem exists_run_level {groups : List OpenGroup} (hg : Reader.GroupsFollow groups)
    {level : Bracketed} (hl : level.Legible) (hdepth : level.depth + groups.length ≤ depthLimit)
    (rest : Text) :
    ∃ progress,
      List.Forall₂ (Notes (Reader.openText groups ++ level.render ++ rest)) progress.pending
        groups ∧
      matching.run ⟨[], []⟩ (spanning [] (Reader.openText groups ++ level.render ++ rest) []) =
        matching.run progress (spanning (Reader.openText groups ++ level.render) rest []) := by
  obtain ⟨progress, hpending, hrun⟩ := exists_run_openText hg (level.render ++ rest)
  have hlength := hpending.length_eq
  refine ⟨⟨progress.pending, level.closers (Reader.openText groups).utf8Length ++
    progress.closers⟩, ?_, ?_⟩
  · rw [List.append_assoc]
    exact hpending
  · rw [List.append_assoc, hrun, run_render hl _ (by omega)]

-- A character that the reader refuses stops the notes for the same reason.
theorem matchStep_of_refuses {reader : Reader} {c : Char} {flaw : Flaw}
    (h : Reader.Refuses reader c flaw) {source : Text} {progress : Progress}
    (hpending : List.Forall₂ (Notes source) progress.pending reader.groups) (cursor : Cursor) :
    matchStep progress cursor c = cursor.malformed flaw := by
  have hlength := hpending.length_eq
  cases h with
  | tooDeep bracket hd =>
    have hfull : ¬progress.pending.length < depthLimit := by
      simp only at hlength
      omega
    simp [matchStep, hfull]
  | strayCloser bracket =>
    cases hp : progress.pending with
    | nil => simp [matchStep, hp]
    | cons entry pending =>
      rw [hp] at hlength
      cases hlength
  | @wrongCloser position level group groups bracket hb =>
    cases hp : progress.pending with
    | nil =>
      rw [hp] at hlength
      cases hlength
    | cons entry pending =>
      rw [hp, List.forall₂_cons] at hpending
      obtain ⟨⟨hbracket, -, -⟩, -⟩ := hpending
      obtain ⟨expected, opener⟩ := entry
      simp only at hbracket
      subst hbracket
      simp [matchStep, hp, hb]

theorem build_eq_finish (text : Text) :
    build text =
      (matching.run ⟨[], []⟩ (spanning [] text [])).result >>= fun last => finish last.1 := by
  rw [build, whole_eq, except_ok_bind]

theorem build_render {level : Bracketed} (hl : level.Legible) (hdepth : level.depth ≤ depthLimit) :
    build level.render = .ok (level.closers 0) := by
  have hrun := run_render hl ⟨[], []⟩ hdepth [] [] []
  rw [List.append_nil] at hrun
  rw [build_eq_finish, hrun, Scan.run_of_none (peek_spanning _ _ _), Logged.result_pure,
    except_ok_bind]
  simp [finish]

theorem build_of_step_error {before after : Text} {c : Char} {reader : Reader}
    {malformation : Malformation} (hr : Reader.start.run before = .ok reader)
    (hs : reader.step c = .error malformation) :
    build (before ++ c :: after) =
      .error (.fault (.malformed (before ++ c :: after) malformation)) := by
  obtain ⟨position, flaw⟩ := malformation
  obtain ⟨hposition, hrefuses⟩ := Reader.refuses_of_eq_error hs
  obtain ⟨ht, hp, hl, hd, hg, -⟩ := Reader.follows_of_run hr
  dsimp only at hposition hrefuses
  have hquote : Reader.quoteText reader.quote = [] := by
    cases hrefuses <;> rfl
  obtain ⟨progress, hpending, hrun⟩ :=
    exists_run_level hg hl.reverse (by rwa [depth_reverse]) (c :: after)
  rw [hquote, List.append_nil] at ht
  rw [← ht] at hpending hrun
  have hstep := congrArg Logged.ofResult
    (matchStep_of_refuses hrefuses hpending (spanning before (c :: after) []))
  rw [build_eq_finish, hrun, Scan.run_of_trap hstep, Logged.result_ofResult, except_error_bind,
    hposition, hp, source_spanning, List.append_nil]
  rfl

theorem build_of_finish_error {text : Text} {reader : Reader} {malformation : Malformation}
    (hr : Reader.start.run text = .ok reader) (hs : reader.finish = .error malformation) :
    build text = .error (.fault (.malformed text malformation)) := by
  obtain ⟨ht, -, hl, hd, hg, hq⟩ := Reader.follows_of_run hr
  obtain ⟨position, level, groups, quote⟩ := reader
  obtain ⟨progress, hpending, hrun⟩ :=
    exists_run_level hg hl.reverse (by rwa [depth_reverse]) (Reader.quoteText quote)
  rw [← ht] at hpending hrun
  rw [build_eq_finish, hrun]
  cases quote with
  | some quote =>
    cases hs
    obtain ⟨hoffset, hquote⟩ := hq
    have hnotMem : '"' ∉ quote.text.reverse := by simpa using hquote
    have hscan := scanQuoted_unclosed (Reader.openText groups ++ level.reverse.render) [] hnotMem
    have hstep : matching.step progress (spanning
        (Reader.openText groups ++ level.reverse.render) ('"' :: quote.text.reverse) []) '"' =
        .ofResult (.error (.fault (.malformed text ⟨quote.position, .unclosedQuote⟩))) := by
      rw [step_matching, matchStep, if_pos rfl, hscan, ht, hoffset]
      simp [malformed, Reader.quoteText]
    rw [Reader.quoteText, Scan.run_of_trap hstep, Logged.result_ofResult, except_error_bind]
  | none =>
    cases groups with
    | nil => cases hs
    | cons inner groups =>
      cases hs
      rw [Reader.quoteText, Scan.run_of_none (peek_spanning _ _ _), Logged.result_pure,
        except_ok_bind]
      cases hp : progress.pending with
      | nil =>
        rw [hp] at hpending
        cases hpending
      | cons entry pending =>
        rw [hp, List.forall₂_cons] at hpending
        obtain ⟨⟨hbracket, hsource, hoffset⟩, -⟩ := hpending
        obtain ⟨bracket, opener⟩ := entry
        dsimp only at hbracket hsource hoffset
        simp only [finish, hp, malformed]
        rw [hsource, hoffset, hbracket]

-- The notes on a text are those that its level calls for. A text that cannot be
-- read is refused for the same reason at the same place.
theorem build_eq (text : Text) :
    build text = ((Bracketed.read text).map (Bracketed.closers 0)).mapError fun malformation =>
      .fault (.malformed text malformation) := by
  cases hread : Bracketed.read text with
  | ok level =>
    obtain ⟨hl, hdepth, rfl⟩ := read_eq_ok_iff.mp hread
    exact build_render hl hdepth
  | error malformation =>
    cases hr : Reader.start.run text with
    | ok reader =>
      rw [read_of_run hr] at hread
      exact build_of_finish_error hr hread
    | error other =>
      rw [read_of_run_error hr] at hread
      cases hread
      obtain ⟨before, c, after, reader, rfl, hrun, hstep⟩ := Reader.exists_of_run_eq_error hr
      exact build_of_step_error hrun hstep

-- A text whose groups are noted is read, and these are its closers.
theorem exists_level_of_build {text : Text} {closers : Closers} (h : build text = .ok closers) :
    ∃ level, Bracketed.read text = .ok level ∧ closers = level.closers 0 := by
  rw [build_eq] at h
  cases hread : Bracketed.read text with
  | error malformation =>
    rw [hread] at h
    cases h
  | ok level =>
    rw [hread] at h
    cases h
    exact ⟨level, rfl, rfl⟩

theorem exists_malformation_of_build {text : Text} {trap : Trap} (h : build text = .error trap) :
    ∃ malformation, Bracketed.read text = .error malformation ∧
      trap = .fault (.malformed text malformation) := by
  rw [build_eq] at h
  cases hread : Bracketed.read text with
  | error malformation =>
    rw [hread] at h
    cases h
    exact ⟨malformation, rfl, rfl⟩
  | ok level =>
    rw [hread] at h
    cases h

theorem exists_build_eq_ok_iff {text : Text} :
    (∃ closers, build text = .ok closers) ↔ Matched depthLimit text := by
  rw [← exists_read_eq_ok_iff]
  constructor
  · rintro ⟨closers, hbuild⟩
    obtain ⟨level, hread, -⟩ := exists_level_of_build hbuild
    exact ⟨level, hread⟩
  · rintro ⟨level, hread⟩
    refine ⟨level.closers 0, ?_⟩
    rw [build_eq, hread]
    rfl

-- The groups are noted of exactly the texts of the grammar. Of any other text a
-- malformation is reported, at the first place where it could be known.
theorem build_accepts_grammar_and_explains (text : Text) :
    ((∃ closers, build text = .ok closers) ↔ Matched depthLimit text) ∧
      ∀ trap, build text = .error trap →
        ∃ malformation before c after, trap = .fault (.malformed text malformation) ∧
          text = before ++ c :: after ∧ malformation.position = before.utf8Length ∧
          Explains malformation.flaw before c after := by
  refine ⟨exists_build_eq_ok_iff, ?_⟩
  intro trap htrap
  obtain ⟨malformation, hread, rfl⟩ := exists_malformation_of_build htrap
  obtain ⟨before, c, after, htext, hposition, hexplains⟩ := explains_of_read_eq_error hread
  exact ⟨malformation, before, c, after, rfl, htext, hposition, hexplains⟩

end Closers

end Coinage
