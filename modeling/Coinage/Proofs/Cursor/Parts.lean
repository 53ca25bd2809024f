import Coinage.Proofs.Cursor.Split
import Coinage.Proofs.Recipe.Outcome

namespace Coinage

open Bracketed Cursor

theorem continuesText_of_notMem_marks {c : Char} (hc : c ∉ marks) :
    continuesText c = (Shortcut.ofChar? c).isNone := by
  simp [continuesText, startsPart, ne_quote_of_notMem_marks hc, ofOpener?_of_notMem_marks hc,
    ofCloser?_of_notMem_marks hc]

theorem ofChar?_of_continuesText {c : Char} (h : continuesText c = true) :
    Shortcut.ofChar? c = none := by
  simp only [continuesText, startsPart, Bool.not_eq_true', Bool.or_eq_false_iff] at h
  exact Option.isNone_iff_eq_none.mp (Option.isSome_eq_false_iff.mp h.2)

namespace Bracketed

theorem takeWhile_continuesText (level : Bracketed) :
    level.render.takeWhile continuesText = level.leading continuesText ∧
      level.render.dropWhile continuesText = (level.trailing continuesText).render := by
  apply takeWhile_render
  · rfl
  · intro bracket
    cases bracket <;> rfl

-- A run of plain text is not followed by plain text.
theorem onto_trailing_ne_plain {level : Bracketed} (hl : level.Legible) :
    ∀ run rest, (level.trailing continuesText).onto .nil ≠ .plain run rest := by
  induction level with
  | nil =>
    intro run rest h
    cases h
  | quoted text rest =>
    intro run rest h
    cases h
  | group bracket interior rest =>
    intro run rest h
    cases h
  | char c rest ih =>
    have hc := continuesText_of_notMem_marks hl.1
    rw [trailing]
    cases hletter : Shortcut.ofChar? c with
    | none =>
      rw [hletter, Option.isNone_none] at hc
      rw [if_pos hc]
      exact ih hl.2
    | some shortcut =>
      rw [hletter, Option.isNone_some] at hc
      rw [hc, if_neg Bool.false_ne_true, onto, hletter]
      intro run rest h
      cases h

-- The plain text that a level begins with is its first part.
theorem onto_char_of_none {c : Char} {rest : Bracketed} (hl : (char c rest).Legible)
    (hletter : Shortcut.ofChar? c = none) :
    (char c rest).onto .nil =
      .plain (c :: rest.leading continuesText) ((rest.trailing continuesText).onto .nil) := by
  have hrun : ∀ d ∈ c :: rest.leading continuesText, Shortcut.ofChar? d = none := by
    intro d hd
    rcases List.mem_cons.mp hd with rfl | hd
    · exact hletter
    · exact ofChar?_of_continuesText (all_leading rest d hd)
  have honto := onto_chars (List.cons_ne_nil _ _) hrun (onto_trailing_ne_plain hl.2)
  rwa [chars_cons, chars_leading] at honto

end Bracketed

namespace Closers

-- Up to a number of nested groups, a part of a text is compiled as what it is
-- read as, with the same notes.
def CompilesAsRead (closers : Closers) (context : Context) (room : Nat)
    (interior : Bool → Cursor → Logged Trap Recipe) : Prop :=
  ∀ (optional : Bool) (before after : Text) (level : Bracketed),
    Sound closers room before.utf8Length level →
    interior optional (spanning before level.render after) =
      (level.pattern.alternation context optional).mapError .fault

section Parting

variable {closers : Closers} {context : Context} {interior : Bool → Cursor → Logged Trap Recipe}

theorem step_parting : (closers.parting context interior).step =
    closers.partStep context interior := rfl

section Step

variable (parts : List Recipe) (before rest after : Text)

theorem part_quoted {text : Text} (ht : '"' ∉ text) :
    (closers.parting context interior).run parts
        (spanning before ('"' :: text ++ '"' :: rest) after) =
      (closers.parting context interior).run (parts ++ [.literal text])
        (spanning (before ++ ('"' :: text ++ ['"'])) rest after) := by
  apply Scan.run_of_quoted ht
  intro start after hscan
  rw [step_parting, partStep, if_pos rfl, hscan, Logged.ofResult_ok, pure_bind]

theorem part_char {c : Char} {level : Bracketed} (hl : (char c level).Legible)
    (hletter : Shortcut.ofChar? c = none) :
    (closers.parting context interior).run parts (spanning before (char c level).render after) =
      (closers.parting context interior).run
        (parts ++ [.literal (c :: level.leading continuesText)])
        (spanning (before ++ c :: level.leading continuesText)
          (level.trailing continuesText).render after) := by
  have hplain : continuesText c = true := by
    rw [continuesText_of_notMem_marks hl.1, hletter]
    rfl
  have hskip := skipWhile_spanning before (c :: level.render) after continuesText
  have htext := textUntil_takeWhile before (c :: level.render) after continuesText
  obtain ⟨htake, hdrop⟩ := takeWhile_continuesText level
  simp only [List.takeWhile_cons, List.dropWhile_cons, hplain, if_true, htake, hdrop]
    at hskip htext
  apply Scan.run_of_step
  simp [step_parting, partStep, ne_quote_of_notMem_marks hl.1, ofOpener?_of_notMem_marks hl.1,
    ofCloser?_of_notMem_marks hl.1, hletter, hskip, htext]

theorem part_letter {c : Char} (hc : c ∉ marks) {shortcut : Shortcut}
    (hletter : Shortcut.ofChar? c = some shortcut) :
    (closers.parting context interior).run parts (spanning before (c :: rest) after) =
      (Logged.ofResult (context.find shortcut)).mapError .fault >>= fun part =>
        (closers.parting context interior).run (parts ++ [part])
          (spanning (before ++ [c]) rest after) := by
  rw [Scan.run_of_some (peek_spanning _ _ _), step_parting]
  simp only [partStep, if_neg (ne_quote_of_notMem_marks hc), ofOpener?_of_notMem_marks hc,
    ofCloser?_of_notMem_marks hc, hletter, bump_spanning, Logged.ofResult_ok,
    Logged.mapError_ofResult, pure_bind, bind_assoc]

theorem part_group {bracket : Bracket} {level more : Bracketed}
    (h : Listed closers before.utf8Length (group bracket level more)) :
    (closers.parting context interior).run parts (spanning before
        (bracket.opener :: (level.render ++ bracket.closer :: rest)) after) =
      interior bracket.optional (spanning (before ++ [bracket.opener]) level.render
        (bracket.closer :: rest ++ after)) >>= fun part =>
        (closers.parting context interior).run (parts ++ [part])
          (spanning (before ++ (group bracket level nil).render) rest after) := by
  have hclose := locate_spanning h rest after
  have hbetween : (spanning (before ++ [bracket.opener])
        (level.render ++ bracket.closer :: rest) after).between
      (spanning (before ++ bracket.opener :: level.render) (bracket.closer :: rest) after) =
      .ok (spanning (before ++ [bracket.opener]) level.render (bracket.closer :: rest ++ after)) :=
    between_spanning _ _ _ _ rfl (by simp [Nat.add_assoc])
  have hplace : before ++ bracket.opener :: level.render ++ [bracket.closer] =
      before ++ (group bracket level nil).render := by
    simp [render]
  rw [Scan.run_of_some (peek_spanning _ _ _), step_parting]
  simp only [partStep, if_neg bracket.opener_ne_quote, Bracket.ofOpener?_opener, hclose,
    bump_spanning, hbetween, hplace, Logged.ofResult_ok, pure_bind, bind_assoc]

end Step

-- One part, and what the rest of the body leaves.
theorem map_run_of_part {parts : List Recipe} {cursor place : Cursor}
    (first : Journaled Recipe) {more : Journaled (List Recipe)}
    (hfirst : (closers.parting context interior).run parts cursor =
      first.mapError .fault >>= fun part =>
        (closers.parting context interior).run (parts ++ [part]) place)
    (hmore : ∀ known, Prod.fst <$> (closers.parting context interior).run known place =
      ((known ++ ·) <$> more).mapError .fault) :
    Prod.fst <$> (closers.parting context interior).run parts cursor =
      ((parts ++ ·) <$> (first >>= fun part => (part :: ·) <$> more)).mapError .fault := by
  rw [hfirst]
  simp [hmore]

-- The parts that are found from left to right, wherever a level stands, are those
-- of its body.
def PartedAsRead (closers : Closers) (context : Context)
    (interior : Bool → Cursor → Logged Trap Recipe) (room : Nat) (level : Bracketed) : Prop :=
  ∀ (before after : Text) (parts : List Recipe), Sound closers room before.utf8Length level →
    level.Unseparated →
    Prod.fst <$> (closers.parting context interior).run parts
        (spanning before level.render after) =
      ((parts ++ ·) <$> (level.onto .nil).parts context).mapError .fault

section Items

variable {room : Nat} {rest : Bracketed}

theorem partedAsRead_nil : PartedAsRead closers context interior room nil := by
  intro before after parts hsound hlevel
  rw [render, Scan.run_of_none (peek_spanning _ _ _), onto, Body.parts]
  simp

theorem PartedAsRead.quoted (hrest : PartedAsRead closers context interior room rest)
    (text : Text) : PartedAsRead closers context interior room (quoted text rest) := by
  intro before after parts hsound hlevel
  have hlater : Sound closers room before.utf8Length ((Bracketed.quoted text nil).append rest) :=
    hsound
  rw [onto, Body.parts]
  apply map_run_of_part (pure (.literal text))
  · exact part_quoted parts before rest.render after hsound.legible.1
  · intro known
    exact hrest _ after known hlater.right hlevel

theorem PartedAsRead.letter (hrest : PartedAsRead closers context interior room rest) {c : Char}
    {shortcut : Shortcut} (hletter : Shortcut.ofChar? c = some shortcut) :
    PartedAsRead closers context interior room (char c rest) := by
  intro before after parts hsound hlevel
  have hlater : Sound closers room before.utf8Length ((char c nil).append rest) := hsound
  simp only [onto, hletter, Body.parts]
  apply map_run_of_part
  · exact part_letter parts before rest.render after hsound.legible.1 hletter
  · intro known
    exact hrest _ after known hlater.right hlevel.2.2

-- A run of plain text is passed as a whole.
theorem PartedAsRead.run
    (hrest : PartedAsRead closers context interior room (rest.trailing continuesText)) {c : Char}
    (hletter : Shortcut.ofChar? c = none) :
    PartedAsRead closers context interior room (char c rest) := by
  intro before after parts hsound hlevel
  have hrun : Sound closers room before.utf8Length
      ((chars (c :: rest.leading continuesText) nil).append (rest.trailing continuesText)) := by
    rwa [chars_append, append, chars_cons, chars_leading]
  have hlater := hrun.right
  rw [render_chars, render, List.append_nil] at hlater
  have hunseparated := hlevel.2.2.trailing continuesText
  rw [onto_char_of_none hsound.legible hletter, Body.parts]
  apply map_run_of_part (pure (.literal _))
  · exact part_char parts before after hsound.legible hletter
  · intro known
    exact hrest _ after known hlater hunseparated

theorem PartedAsRead.group (hrest : PartedAsRead closers context interior (room + 1) rest)
    (hinterior : CompilesAsRead closers context room interior) (bracket : Bracket)
    (level : Bracketed) :
    PartedAsRead closers context interior (room + 1) (group bracket level rest) := by
  intro before after parts hsound hlevel
  have hlater : Sound closers (room + 1) before.utf8Length
      ((Bracketed.group bracket level nil).append rest) := hsound
  have hgroup := hinterior bracket.optional (before ++ [bracket.opener])
    (bracket.closer :: rest.render ++ after) level hsound.inside
  rw [onto, Body.parts_group]
  apply map_run_of_part
  · rw [← hgroup]
    exact part_group parts before rest.render after hsound.listed
  · intro known
    exact hrest _ after known hlater.right hlevel

theorem partedAsRead (hinterior : CompilesAsRead closers context room interior)
    (level : Bracketed) : PartedAsRead closers context interior (room + 1) level := by
  induction level using induction_trailing continuesText with
  | nil => exact partedAsRead_nil
  | quoted text rest ih => exact ih.quoted text
  | group bracket level rest ih => exact ih.group hinterior bracket level
  | char c rest ih ihtrailing =>
    cases hletter : Shortcut.ofChar? c with
    | some shortcut => exact ih.letter hletter
    | none => exact ihtrailing.run hletter

end Items

theorem compileBody_eq {room : Nat} (hinterior : CompilesAsRead closers context room interior)
    {cursor : Cursor} {body : Body} (h : Spans closers (room + 1) cursor body) :
    closers.compileBody context interior cursor =
      (Recipe.ofParts <$> body.parts context).mapError .fault := by
  cases h with
  | @intro before after level hsound hlevel =>
    have hparts := partedAsRead hinterior level before after [] hsound hlevel
    have hcompile : closers.compileBody context interior (spanning before level.render after) =
        Recipe.ofParts <$> Prod.fst <$> (closers.parting context interior).run []
          (spanning before level.render after) := by
      rw [compileBody]
      simp [← bind_pure_comp]
    rw [hcompile, hparts]
    simp

end Parting

end Closers

end Coinage
