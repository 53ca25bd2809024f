import Coinage.Cursor

namespace Coinage

namespace Cursor

-- Reads the quotation that begins at the cursor: its text, and the place after
-- its closing quote.
def scanQuoted (start : Cursor) : Except Trap (Text × Cursor) := do
  let body ← start.bump
  let close ← body.skipWhile (· ≠ '"')
  if close.isAtEnd then
    start.malformed .unclosedQuote
  else
    let text ← body.textUntil close
    let after ← close.bump
    .ok (text, after)

theorem remaining_scanQuoted {start after : Cursor} {c : Char} {text : Text}
    (hpeek : start.peek = some c) (h : start.scanQuoted = .ok (text, after)) :
    after.remaining < start.remaining := by
  obtain ⟨body, hbody, h⟩ := bind_eq_ok h
  obtain ⟨close, hclose, h⟩ := bind_eq_ok h
  split at h
  · cases h
  · obtain ⟨quoted, -, h⟩ := bind_eq_ok h
    obtain ⟨last, hlast, h⟩ := bind_eq_ok h
    cases h
    have hfirst := remaining_bump hpeek hbody
    have hmiddle := remaining_skipWhile hclose
    have hend := remaining_bump_le hlast
    omega

end Cursor

-- For each group the offset of its opener with that of its closer, the group
-- closed last in front.
abbrev Closers := List (Nat × Nat)

namespace Closers

-- The openers of the groups that are open, innermost first, and the groups that
-- have been closed.
structure Progress where
  pending : List (Bracket × Cursor)
  closers : Closers

def matchStep (progress : Progress) (cursor : Cursor) (c : Char) :
    Except Trap (Progress × Cursor) :=
  if c = '"' then do
    let (_, after) ← cursor.scanQuoted
    .ok (progress, after)
  else
    match Bracket.ofOpener? c, Bracket.ofCloser? c with
    | some bracket, _ =>
      if progress.pending.length < depthLimit then do
        let next ← cursor.bump
        .ok ({ progress with pending := (bracket, cursor) :: progress.pending }, next)
      else
        cursor.malformed .tooDeep
    | none, some bracket =>
      match progress.pending with
      | [] => cursor.malformed (.strayCloser bracket)
      | (expected, opener) :: pending =>
        if expected = bracket then do
          let next ← cursor.bump
          .ok (⟨pending, (opener.offset, cursor.offset) :: progress.closers⟩, next)
        else
          cursor.malformed (.wrongCloser expected bracket)
    | none, none => do
      let next ← cursor.bump
      .ok (progress, next)

theorem remaining_matchStep {progress next : Progress} {cursor after : Cursor} {c : Char}
    (hpeek : cursor.peek = some c) (h : matchStep progress cursor c = .ok (next, after)) :
    after.remaining < cursor.remaining := by
  have hbump : ∀ {state : Progress}, (do
      let place ← cursor.bump
      .ok (state, place) : Except Trap (Progress × Cursor)) = .ok (next, after) →
      after.remaining < cursor.remaining := by
    intro state hstate
    obtain ⟨place, hplace, hstate⟩ := Cursor.bind_eq_ok hstate
    cases hstate
    exact Cursor.remaining_bump hpeek hplace
  unfold matchStep at h
  split at h
  · obtain ⟨⟨text, place⟩, hplace, h⟩ := Cursor.bind_eq_ok h
    cases h
    exact Cursor.remaining_scanQuoted hpeek hplace
  split at h
  · split at h
    · exact hbump h
    · cases h
  · split at h
    · cases h
    · split at h
      · exact hbump h
      · cases h
  · exact hbump h

-- Nothing is noted on the way.
def matching : Scan Progress :=
  ⟨fun progress cursor c => .ofResult (matchStep progress cursor c), remaining_matchStep⟩

-- At the end of a text no group may be open. The innermost one is reported.
def finish (progress : Progress) : Except Trap Closers :=
  match progress.pending with
  | [] => .ok progress.closers
  | (bracket, opener) :: _ => opener.malformed (.unclosedGroup bracket)

-- Goes over a text once and notes which closer belongs to which opener.
def build (text : Text) : Except Trap Closers := do
  let start ← Cursor.whole text
  let (progress, _) ← (matching.run ⟨[], []⟩ start).result
  finish progress

-- From the opener of a group to its closer.
def locate (closers : Closers) (opener : Cursor) : Except Trap Cursor :=
  match closers.lookup opener.offset with
  | some target => opener.jumpTo target
  | none =>
    opener.malformed (.unclosedGroup ((opener.peek.bind Bracket.ofOpener?).getD .square))

theorem remaining_locate {closers : Closers} {opener closer next : Cursor} {c : Char}
    (hpeek : opener.peek = some c) (hclose : closers.locate opener = .ok closer)
    (h : closer.bump = .ok next) : next.remaining < opener.remaining := by
  unfold locate at hclose
  split at hclose
  · exact Cursor.remaining_jumpTo hpeek hclose h
  · cases hclose

end Closers

end Coinage
