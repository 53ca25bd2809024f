import Coinage.Cursor.Compile
import Coinage.Proofs.Cursor.Closers
import Coinage.Proofs.Cursor.Lookup
import Coinage.Proofs.Pattern.Breadth
import Coinage.Proofs.Pattern.Segment

namespace Coinage

open Bracketed Cursor

theorem Bracketed.render_eq_nil_iff {level : Bracketed} : level.render = [] ↔ level = nil := by
  cases level <;> simp [render]

namespace Closers

-- What is asked of a level at an offset: its closers are listed, there is room
-- for its depth, and its weights can be summed.
structure Sound (closers : Closers) (room offset : Nat) (level : Bracketed) : Prop where
  legible : level.Legible
  listed : Listed closers offset level
  depth_lt : level.depth < room
  length_lt : level.render.utf8Length < sizeLimit

namespace Sound

variable {closers : Closers} {room offset : Nat} {before : Text} {first second : Bracketed}

theorem left (h : Sound closers room offset (first.append second)) :
    Sound closers room offset first := by
  obtain ⟨hlegible, hlisted, hdepth, hlength⟩ := h
  rw [depth_append] at hdepth
  rw [render_append, Text.utf8Length_append] at hlength
  refine ⟨((legible_append _ _).mp hlegible).1, (listed_append.mp hlisted).1, ?_, ?_⟩
  · omega
  · omega

theorem right (h : Sound closers room before.utf8Length (first.append second)) :
    Sound closers room (before ++ first.render).utf8Length second := by
  obtain ⟨hlegible, hlisted, hdepth, hlength⟩ := h
  rw [depth_append] at hdepth
  rw [render_append, Text.utf8Length_append] at hlength
  rw [Text.utf8Length_append]
  refine ⟨((legible_append _ _).mp hlegible).2, (listed_append.mp hlisted).2, ?_, ?_⟩
  · omega
  · omega

-- Inside a group there is less room.
theorem inside {bracket : Bracket} {interior rest : Bracketed}
    (h : Sound closers (room + 1) before.utf8Length (group bracket interior rest)) :
    Sound closers room (before ++ [bracket.opener]).utf8Length interior := by
  obtain ⟨hlegible, hlisted, hdepth, hlength⟩ := h
  simp only [Bracketed.depth] at hdepth
  simp only [render, Text.utf8Length_append, Text.utf8Length_cons] at hlength
  rw [Text.utf8Length_append]
  refine ⟨hlegible.1, hlisted.2.1, ?_, ?_⟩
  · omega
  · omega

end Sound

-- A cursor over an alternative: a level without slashes and stars that is read
-- as its body.
inductive Spans (closers : Closers) (room : Nat) : Cursor → Body → Prop
  | intro {before after : Text} {level : Bracketed}
      (hsound : Sound closers room before.utf8Length level) (hlevel : level.Unseparated) :
      Spans closers room (spanning before level.render after) (level.onto .nil)

-- Fragments that are the alternatives of a pattern, one by one.
inductive Splits (closers : Closers) (room : Nat) : List Fragment → Pattern → Prop
  | nil : Splits closers room [] .nil
  | cons {fragment : Fragment} {body : Body} {suffix : Option Text} {fragments : List Fragment}
      {rest : Pattern} (hbody : Spans closers room fragment.body body)
      (hweight : fragment.weight = suffix.map fun digits => Pattern.weight (some digits))
      (hrest : Splits closers room fragments rest) :
      Splits closers room (fragment :: fragments) (.cons body suffix rest)

-- What a closer is looked up for.
theorem locate_spanning {closers : Closers} {before : Text} {bracket : Bracket}
    {interior rest : Bracketed}
    (h : Listed closers before.utf8Length (group bracket interior rest)) (tail after : Text) :
    closers.locate (spanning before
        (bracket.opener :: (interior.render ++ bracket.closer :: tail)) after) =
      .ok (spanning (before ++ bracket.opener :: interior.render) (bracket.closer :: tail)
        after) := by
  have hjump := jumpTo_spanning before after (bracket.opener :: interior.render)
    (bracket.closer :: tail) rfl
  rw [Text.utf8Length_cons, ← Nat.add_assoc] at hjump
  simp only [locate, offset_spanning, h.1]
  exact hjump

section Step

variable {closers : Closers} (cuts : Cuts) (before rest after : Text)

theorem step_cutting (cursor : Cursor) (c : Char) :
    closers.cutting.step cuts cursor c = .ofResult (closers.cutStep cuts cursor c) := rfl

theorem cut_slash {fragments : List Fragment}
    (hclose : cuts.close (spanning before ('/' :: rest) after) = .ok fragments) :
    closers.cutting.run cuts (spanning before ('/' :: rest) after) =
      closers.cutting.run ⟨spanning (before ++ ['/']) rest after, fragments⟩
        (spanning (before ++ ['/']) rest after) := by
  apply Scan.run_of_step
  rw [step_cutting, cutStep, if_pos rfl, hclose, except_ok_bind, bump_spanning, except_ok_bind,
    Logged.ofResult_ok]

theorem cut_star (closers : Closers) (done : Text) (fragments : List Fragment) {last : Cursor}
    (hlast : last = spanning (before ++ (done ++ '*' :: rest.takeWhile Char.isDigit))
      (rest.dropWhile Char.isDigit) after) :
    closers.cutting.run ⟨spanning before (done ++ '*' :: rest) after, fragments⟩
        (spanning (before ++ done) ('*' :: rest) after) =
      closers.cutting.run ⟨last, fragments ++ [⟨spanning before done ('*' :: rest ++ after),
        some (Pattern.weight (some (rest.takeWhile Char.isDigit)))⟩]⟩ last := by
  have hdigits := skipWhile_spanning (before ++ done ++ ['*']) rest after Char.isDigit
  have hbody : (spanning before (done ++ '*' :: rest) after).between
      (spanning (before ++ done) ('*' :: rest) after) =
      .ok (spanning before done ('*' :: rest ++ after)) :=
    between_spanning _ _ _ _ rfl (Text.utf8Length_append before done)
  have htext := textUntil_takeWhile (before ++ done ++ ['*']) rest after Char.isDigit
  have hplace : spanning (before ++ done ++ ['*'] ++ rest.takeWhile Char.isDigit)
      (rest.dropWhile Char.isDigit) after = last := by
    rw [hlast]
    simp
  rw [hplace] at hdigits htext
  apply Scan.run_of_step
  rw [step_cutting, cutStep, if_neg (by decide), if_pos rfl, bump_spanning, except_ok_bind,
    hdigits, except_ok_bind, hbody, except_ok_bind, htext, except_ok_bind, Logged.ofResult_ok]

theorem cut_char {c : Char} (hc : c ∉ marks) (hslash : c ≠ '/') (hstar : c ≠ '*') :
    closers.cutting.run cuts (spanning before (c :: rest) after) =
      closers.cutting.run cuts (spanning (before ++ [c]) rest after) := by
  apply Scan.run_of_step
  simp [step_cutting, cutStep, hslash, hstar, ne_quote_of_notMem_marks hc,
    ofOpener?_of_notMem_marks hc, ofCloser?_of_notMem_marks hc]

theorem cut_quoted {text : Text} (ht : '"' ∉ text) :
    closers.cutting.run cuts (spanning before ('"' :: text ++ '"' :: rest) after) =
      closers.cutting.run cuts (spanning (before ++ ('"' :: text ++ ['"'])) rest after) := by
  apply Scan.run_of_quoted ht
  intro start after hscan
  rw [step_cutting, cutStep, if_neg (by decide), if_neg (by decide), if_pos rfl, hscan,
    except_ok_bind, Logged.ofResult_ok]

theorem cut_group {bracket : Bracket} {interior more : Bracketed}
    (h : Listed closers before.utf8Length (group bracket interior more)) :
    closers.cutting.run cuts (spanning before
        (bracket.opener :: (interior.render ++ bracket.closer :: rest)) after) =
      closers.cutting.run cuts
        (spanning (before ++ (group bracket interior nil).render) rest after) := by
  have hclose := locate_spanning h rest after
  have hslash : bracket.opener ≠ '/' := by cases bracket <;> decide
  have hstar : bracket.opener ≠ '*' := by cases bracket <;> decide
  apply Scan.run_of_step
  simp [step_cutting, cutStep, hslash, hstar, hclose, render]

end Step

section Run

variable {closers : Closers} {room : Nat} (before rest after : Text) (fragments : List Fragment)

-- An alternative that ends without a weight is a fragment, unless it is empty.
theorem exists_close {done : Bracketed} (hsound : Sound closers room before.utf8Length done)
    (hdone : done.Unseparated) :
    ∃ ended, Cuts.close ⟨spanning before (done.render ++ rest) after, fragments⟩
        (spanning (before ++ done.render) rest after) = .ok (fragments ++ ended) ∧
      ∀ more tail, Splits closers room more tail →
        Splits closers room (ended ++ more)
          (⟨done.onto .nil, none, tail⟩ : Alternatives).close := by
  by_cases hnil : done = nil
  · subst hnil
    refine ⟨[], ?_, fun more tail h => h⟩
    simp [Cuts.close, render]
  · obtain ⟨c, text, htext⟩ := List.exists_cons_of_ne_nil (mt render_eq_nil_iff.mp hnil)
    have hlt : before.utf8Length < (before ++ done.render).utf8Length := by
      have hpos := Text.utf8Length_cons_ne_zero c text
      rw [Text.utf8Length_append, htext]
      omega
    have hbody : (spanning before (done.render ++ rest) after).between
        (spanning (before ++ done.render) rest after) =
        .ok (spanning before done.render (rest ++ after)) :=
      between_spanning _ _ _ _ rfl (Text.utf8Length_append _ _)
    refine ⟨[⟨spanning before done.render (rest ++ after), none⟩], ?_, ?_⟩
    · simp only [Cuts.close, offset_spanning, if_pos hlt, hbody, except_ok_bind]
    · intro more tail h
      rw [Alternatives.close_of_ne_nil (mt onto_eq_nil_iff.mp hnil)]
      exact .cons (.intro hsound hdone) rfl h

-- Wherever a level stands, the alternatives are cut as they are read, also when
-- a part of the first one has been passed.
def CutsAsRead (closers : Closers) (room : Nat) (level : Bracketed) : Prop :=
  ∀ done : Bracketed, done.Unseparated → ∀ (before after : Text) (fragments : List Fragment),
    Sound closers room before.utf8Length (done.append level) →
    ∃ more, ((closers.cutting.run ⟨spanning before (done.render ++ level.render) after, fragments⟩
          (spanning (before ++ done.render) level.render after)).result >>=
        fun last => last.1.close last.2) = .ok (fragments ++ more) ∧
      Splits closers room more (done.append level).pattern

theorem cutsAsRead_nil : CutsAsRead closers room nil := by
  intro done hdone before after fragments hsound
  obtain ⟨ended, hclose, hsplits⟩ := exists_close before [] after fragments hsound.left hdone
  refine ⟨ended, ?_, ?_⟩
  · rw [render, Scan.run_of_none (peek_spanning _ _ _), Logged.result_pure, except_ok_bind, hclose]
  · rw [append_nil, pattern_of_unseparated hdone]
    simpa using hsplits [] .nil .nil

-- An item that is passed over becomes a part of the alternative.
theorem CutsAsRead.item {item rest : Bracketed} (hrest : CutsAsRead closers room rest)
    (hitem : item.Unseparated)
    (hrun : ∀ cuts before after, Sound closers room before.utf8Length (item.append rest) →
      closers.cutting.run cuts (spanning before (item.append rest).render after) =
        closers.cutting.run cuts (spanning (before ++ item.render) rest.render after)) :
    CutsAsRead closers room (item.append rest) := by
  intro done hdone before after fragments hsound
  have hnext := hrun ⟨spanning before (done.render ++ (item.append rest).render) after, fragments⟩
    (before ++ done.render) after hsound.right
  rw [← append_assoc] at hsound
  obtain ⟨more, hmore, hsplits⟩ := hrest (done.append item)
    (unseparated_append.mpr ⟨hdone, hitem⟩) before after fragments hsound
  refine ⟨more, ?_, ?_⟩
  · rw [hnext, ← hmore]
    simp
  · rwa [← append_assoc]

-- At the beginning of an alternative nothing has been passed.
theorem CutsAsRead.fresh {level : Bracketed} (h : CutsAsRead closers room level)
    (before after : Text) (fragments : List Fragment)
    (hsound : Sound closers room before.utf8Length level) :
    ∃ more, ((closers.cutting.run ⟨spanning before level.render after, fragments⟩
          (spanning before level.render after)).result >>=
        fun last => last.1.close last.2) = .ok (fragments ++ more) ∧
      Splits closers room more level.pattern := by
  have hnil := h nil trivial before after fragments hsound
  rwa [render, List.append_nil] at hnil

theorem CutsAsRead.slash {rest : Bracketed} (hrest : CutsAsRead closers room rest) :
    CutsAsRead closers room (char '/' rest) := by
  intro done hdone before after fragments hsound
  obtain ⟨ended, hclose, hended⟩ :=
    exists_close before ('/' :: rest.render) after fragments hsound.left hdone
  have hslash : Sound closers room (before ++ done.render).utf8Length
      ((char '/' nil).append rest) := hsound.right
  obtain ⟨more, hmore, hsplits⟩ := hrest.fresh _ after (fragments ++ ended) hslash.right
  refine ⟨ended ++ more, ?_, ?_⟩
  · rw [render, cut_slash _ _ _ _ hclose, ← List.append_assoc]
    exact hmore
  · rw [pattern_append_slash hdone]
    exact hended more _ hsplits

theorem CutsAsRead.star {rest : Bracketed}
    (hrest : CutsAsRead closers room (rest.trailing Char.isDigit)) :
    CutsAsRead closers room (char '*' rest) := by
  intro done hdone before after fragments hsound
  have hquote : Char.isDigit '"' = false := rfl
  have hopener : ∀ bracket : Bracket, Char.isDigit bracket.opener = false := by
    intro bracket
    cases bracket <;> rfl
  obtain ⟨htake, hdrop⟩ := takeWhile_render hquote hopener rest
  -- the star and its digits are passed together
  have hpassed : (done.append (chars ('*' :: rest.leading Char.isDigit) nil)).append
      (rest.trailing Char.isDigit) = done.append (char '*' rest) := by
    rw [append_assoc, chars_append, append, chars_cons, chars_leading]
  have hlater := hsound
  rw [← hpassed] at hlater
  let fragment : Fragment := ⟨spanning before done.render ('*' :: rest.render ++ after),
    some (Pattern.weight (some (rest.leading Char.isDigit)))⟩
  obtain ⟨more, hmore, hsplits⟩ := hrest.fresh _ after (fragments ++ [fragment]) hlater.right
  refine ⟨fragment :: more, ?_, ?_⟩
  · have hcut := cut_star before rest.render after closers done.render fragments rfl
    rw [htake, hdrop] at hcut
    rw [render, hcut]
    simpa [render, fragment] using hmore
  · rw [pattern_append_star hdone]
    exact .cons (.intro hsound.left hdone) rfl hsplits

-- What a sound level is cut into are its alternatives.
theorem cutsAsRead (level : Bracketed) : CutsAsRead closers room level := by
  induction level using induction_trailing Char.isDigit with
  | nil => exact cutsAsRead_nil
  | char c rest ih ihdigits =>
    by_cases hslash : c = '/'
    · subst hslash
      exact ih.slash
    by_cases hstar : c = '*'
    · subst hstar
      exact ihdigits.star
    have hitem : (char c nil).Unseparated := ⟨hslash, hstar, trivial⟩
    apply CutsAsRead.item ih hitem
    intro cuts before after hsound
    exact cut_char cuts before _ after hsound.legible.1 hslash hstar
  | quoted text rest ih =>
    have hitem : (quoted text nil).Unseparated := trivial
    apply CutsAsRead.item ih hitem
    intro cuts before after hsound
    exact cut_quoted cuts before _ after hsound.legible.1
  | group bracket interior rest ih =>
    have hitem : (group bracket interior nil).Unseparated := trivial
    apply CutsAsRead.item ih hitem
    intro cuts before after hsound
    exact cut_group cuts before _ after hsound.listed

theorem exists_split {level : Bracketed} (before after : Text)
    (hsound : Sound closers room before.utf8Length level) :
    ∃ fragments, closers.split (spanning before level.render after) = .ok fragments ∧
      Splits closers room fragments level.pattern := by
  obtain ⟨fragments, hrun, hsplits⟩ := (cutsAsRead level).fresh before after [] hsound
  exact ⟨fragments, hrun, hsplits⟩

end Run

end Closers

end Coinage
