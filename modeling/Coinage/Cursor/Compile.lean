import Coinage.Cursor.Closers
import Coinage.Recipe.Compile

namespace Coinage

-- One alternative before it is compiled: the part of the text that it takes and
-- the weight that it states.
structure Fragment where
  body : Cursor
  weight : Option Nat

-- The alternatives found so far, and where the next one starts.
structure Cuts where
  start : Cursor
  fragments : List Fragment

namespace Cuts

-- Ends an alternative without a weight. An empty one is dropped.
def close (cuts : Cuts) (cursor : Cursor) : Except Trap (List Fragment) :=
  if cuts.start.offset < cursor.offset then do
    let body ← cuts.start.between cursor
    .ok (cuts.fragments ++ [⟨body, none⟩])
  else
    .ok cuts.fragments

end Cuts

-- Characters that end a run of plain text.
def startsPart (c : Char) : Bool :=
  c = '"' || (Bracket.ofOpener? c).isSome || (Bracket.ofCloser? c).isSome ||
    (Shortcut.ofChar? c).isSome

def continuesText (c : Char) : Bool :=
  !startsPart c

namespace Closers

variable (closers : Closers)

def cutStep (cuts : Cuts) (cursor : Cursor) (c : Char) : Except Trap (Cuts × Cursor) :=
  if c = '/' then do
    let fragments ← cuts.close cursor
    let next ← cursor.bump
    .ok (⟨next, fragments⟩, next)
  else if c = '*' then do
    let digits ← cursor.bump
    let after ← digits.skipWhile Char.isDigit
    let body ← cuts.start.between cursor
    let text ← digits.textUntil after
    .ok (⟨after, cuts.fragments ++ [⟨body, some (Pattern.weight (some text))⟩]⟩, after)
  else if c = '"' then do
    let (_, after) ← cursor.scanQuoted
    .ok (cuts, after)
  else
    match Bracket.ofOpener? c, Bracket.ofCloser? c with
    | some _, _ => do
      let closer ← closers.locate cursor
      let next ← closer.bump
      .ok (cuts, next)
    | none, some bracket => cursor.malformed (.strayCloser bracket)
    | none, none => do
      let next ← cursor.bump
      .ok (cuts, next)

theorem remaining_cutStep {cuts next : Cuts} {cursor after : Cursor} {c : Char}
    (hpeek : cursor.peek = some c) (h : closers.cutStep cuts cursor c = .ok (next, after)) :
    after.remaining < cursor.remaining := by
  unfold cutStep at h
  split at h
  · obtain ⟨fragments, -, h⟩ := Cursor.bind_eq_ok h
    obtain ⟨place, hplace, h⟩ := Cursor.bind_eq_ok h
    cases h
    exact Cursor.remaining_bump hpeek hplace
  split at h
  · obtain ⟨digits, hdigits, h⟩ := Cursor.bind_eq_ok h
    obtain ⟨place, hplace, h⟩ := Cursor.bind_eq_ok h
    obtain ⟨body, -, h⟩ := Cursor.bind_eq_ok h
    obtain ⟨text, -, h⟩ := Cursor.bind_eq_ok h
    cases h
    have hfirst := Cursor.remaining_bump hpeek hdigits
    exact Nat.lt_of_le_of_lt (Cursor.remaining_skipWhile hplace) hfirst
  split at h
  · obtain ⟨⟨text, place⟩, hplace, h⟩ := Cursor.bind_eq_ok h
    cases h
    exact Cursor.remaining_scanQuoted hpeek hplace
  split at h
  · obtain ⟨closer, hcloser, h⟩ := Cursor.bind_eq_ok h
    obtain ⟨place, hplace, h⟩ := Cursor.bind_eq_ok h
    cases h
    exact remaining_locate hpeek hcloser hplace
  · cases h
  · obtain ⟨place, hplace, h⟩ := Cursor.bind_eq_ok h
    cases h
    exact Cursor.remaining_bump hpeek hplace

def cutting : Scan Cuts :=
  ⟨fun cuts cursor c => .ofResult (closers.cutStep cuts cursor c), closers.remaining_cutStep⟩

-- Splits a part of a text at the slashes and weights of its own level.
def split (cursor : Cursor) : Except Trap (List Fragment) := do
  let (cuts, last) ← (closers.cutting.run ⟨cursor, []⟩ cursor).result
  cuts.close last

section Compile

variable (context : Context) (interior : Bool → Cursor → Logged Trap Recipe)

def partStep (parts : List Recipe) (cursor : Cursor) (c : Char) :
    Logged Trap (List Recipe × Cursor) :=
  if c = '"' then do
    let (text, after) ← .ofResult cursor.scanQuoted
    pure (parts ++ [.literal text], after)
  else
    match Bracket.ofOpener? c, Bracket.ofCloser? c with
    | some bracket, _ => do
      let closer ← .ofResult (closers.locate cursor)
      let first ← .ofResult cursor.bump
      let inside ← .ofResult (first.between closer)
      let part ← interior bracket.optional inside
      let next ← .ofResult closer.bump
      pure (parts ++ [part], next)
    | none, some bracket => .ofResult (cursor.malformed (.strayCloser bracket))
    | none, none =>
      match Shortcut.ofChar? c with
      | some shortcut => do
        let part ← .ofResult ((context.find shortcut).mapError .fault)
        let next ← .ofResult cursor.bump
        pure (parts ++ [part], next)
      | none => do
        let after ← .ofResult (cursor.skipWhile continuesText)
        let text ← .ofResult (cursor.textUntil after)
        pure (parts ++ [.literal text], after)

variable {context interior}

theorem remaining_partStep {parts next : List Recipe} {cursor after : Cursor} {c : Char}
    (hpeek : cursor.peek = some c)
    (h : (closers.partStep context interior parts cursor c).result = .ok (next, after)) :
    after.remaining < cursor.remaining := by
  unfold partStep at h
  split at h
  · obtain ⟨⟨text, place⟩, hplace, h⟩ := Logged.bind_eq_ok h
    cases h
    exact Cursor.remaining_scanQuoted hpeek hplace
  rename_i hquote
  split at h
  · obtain ⟨closer, hcloser, h⟩ := Logged.bind_eq_ok h
    obtain ⟨first, -, h⟩ := Logged.bind_eq_ok h
    obtain ⟨inside, -, h⟩ := Logged.bind_eq_ok h
    obtain ⟨part, -, h⟩ := Logged.bind_eq_ok h
    obtain ⟨place, hplace, h⟩ := Logged.bind_eq_ok h
    cases h
    exact remaining_locate hpeek hcloser hplace
  · cases h
  rename_i hopener hcloser
  split at h
  · obtain ⟨part, -, h⟩ := Logged.bind_eq_ok h
    obtain ⟨place, hplace, h⟩ := Logged.bind_eq_ok h
    cases h
    exact Cursor.remaining_bump hpeek hplace
  · rename_i hletter
    obtain ⟨place, hplace, h⟩ := Logged.bind_eq_ok h
    obtain ⟨text, -, h⟩ := Logged.bind_eq_ok h
    cases h
    have hplain : continuesText c = true := by
      simp [continuesText, startsPart, hquote, hopener, hcloser, hletter]
    exact Cursor.remaining_skipWhile_of_peek hpeek hplain hplace

variable (context interior)

def parting : Scan (List Recipe) :=
  ⟨closers.partStep context interior, closers.remaining_partStep⟩

-- Compiles one alternative.
def compileBody (body : Cursor) : Logged Trap Recipe := do
  let (parts, _) ← (closers.parting context interior).run [] body
  pure (Recipe.ofParts parts)

-- Compiles alternatives with their weights, one after the other.
def weigh : List Fragment → Urn Recipe → Logged Trap (Urn Recipe)
  | [], urn => pure urn
  | fragment :: fragments, urn => do
    let recipe ← closers.compileBody context interior fragment.body
    let weight := Float.ofNat (fragment.weight.getD Pattern.unstatedWeight)
    let urn ← .ofResult ((urn.add weight recipe).mapError .fault)
    weigh fragments urn

def chooseAmong (optional : Bool) (fragments : List Fragment) : Logged Trap Recipe :=
  if fragments.any (·.weight.isSome) then do
    let urn ← closers.weigh context interior fragments .empty
    if optional then
      let emptied := urn.add (Float.ofNat Pattern.unstatedWeight) (.literal [])
      let urn ← .ofResult (emptied.mapError .fault)
      pure (.ofUrn urn)
    else
      pure (.ofUrn urn)
  else do
    let recipes ← fragments.mapM fun fragment =>
      closers.compileBody context interior fragment.body
    pure (.uniform (recipes ++ if optional then [.literal []] else []))

def choose (optional : Bool) (fragments : List Fragment) : Logged Trap Recipe :=
  match fragments, optional with
  | [], _ => pure (.literal [])
  | [fragment], false => closers.compileBody context interior fragment.body
  | fragments, optional => closers.chooseAmong context interior optional fragments

-- Compiles a part of a text and, by calls of itself, the groups in it. There is
-- room for a number of calls that wait for each other. A split is noted before
-- any alternative is compiled.
def alternation : Nat → Bool → Cursor → Logged Trap Recipe
  | 0, _, _ => .ofResult (.error .overflow)
  | room + 1, optional, cursor => do
    let fragments ← .ofResult (closers.split cursor)
    .note (.split fragments.length optional (fragments.any (·.weight.isSome)))
    closers.choose context (alternation room) optional fragments

-- Compiles a text whose groups are known.
def compile (text : Text) : Logged Trap Recipe := do
  let cursor ← .ofResult (Cursor.whole text)
  closers.alternation context (depthLimit + 1) false cursor

end Compile

end Closers

end Coinage
