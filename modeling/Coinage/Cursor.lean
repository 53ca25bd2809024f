import Coinage.Journal

namespace Coinage

namespace Text

-- What is left of a text after some bytes.
def dropBytes : Nat → Text → Text
  | _, [] => []
  | offset, c :: rest => if offset = 0 then c :: rest else dropBytes (offset - c.utf8Size) rest

-- The text that some bytes hold.
def takeBytes : Nat → Text → Text
  | _, [] => []
  | count, c :: rest => if count = 0 then [] else c :: takeBytes (count - c.utf8Size) rest

-- Whether a byte offset is one where a character begins, or the end of the text.
def isBoundary : Nat → Text → Bool
  | offset, [] => offset = 0
  | offset, c :: rest =>
    offset = 0 || (c.utf8Size ≤ offset && isBoundary (offset - c.utf8Size) rest)

theorem le_utf8Length_of_isBoundary {offset : Nat} {text : Text}
    (h : text.isBoundary offset = true) : offset ≤ text.utf8Length := by
  induction text generalizing offset with
  | nil =>
    simp only [isBoundary, decide_eq_true_eq] at h
    omega
  | cons c rest ih =>
    simp only [isBoundary, Bool.or_eq_true, Bool.and_eq_true, decide_eq_true_eq] at h
    change offset ≤ c.utf8Size + Text.utf8Length rest
    rcases h with hzero | ⟨hle, hrest⟩
    · omega
    · have hlater := ih hrest
      omega

-- Before the end of a text something is left.
theorem dropBytes_ne_nil {offset : Nat} {text : Text} (h : text.isBoundary offset = true)
    (hlt : offset < text.utf8Length) : text.dropBytes offset ≠ [] := by
  induction text generalizing offset with
  | nil => exact absurd hlt (Nat.not_lt_zero offset)
  | cons c rest ih =>
    simp only [isBoundary, Bool.or_eq_true, Bool.and_eq_true, decide_eq_true_eq] at h
    change offset < c.utf8Size + Text.utf8Length rest at hlt
    rw [dropBytes]
    split
    · exact List.cons_ne_nil c rest
    · rename_i hne
      obtain ⟨hle, hrest⟩ := h.resolve_left hne
      exact ih hrest (by omega)

end Text

-- Why the work on a text by its byte offsets can come to an end: a fault that is
-- reported, a cursor that does not fit the text, a jump out of the bounds of a
-- cursor, or more nested calls than there is room for.
inductive Trap
  | fault (fault : Fault)
  | badCursor (offset stop : Nat)
  | badJump (offset target stop : Nat)
  | overflow

-- A byte offset in a text and the offset where the part to be looked at ends.
@[ext]
structure Cursor where
  source : Text
  offset : Nat
  stop : Nat
  offset_le_stop : offset ≤ stop
  isBoundary_offset : source.isBoundary offset = true
  isBoundary_stop : source.isBoundary stop = true

namespace Cursor

theorem stop_le_utf8Length (cursor : Cursor) : cursor.stop ≤ cursor.source.utf8Length :=
  Text.le_utf8Length_of_isBoundary cursor.isBoundary_stop

-- The only way to a cursor. Offsets that do not fit the text are trapped.
def make (source : Text) (offset stop : Nat) : Except Trap Cursor :=
  if h : offset ≤ stop ∧ source.isBoundary offset = true ∧ source.isBoundary stop = true then
    .ok ⟨source, offset, stop, h.1, h.2.1, h.2.2⟩
  else
    .error (.badCursor offset stop)

def whole (source : Text) : Except Trap Cursor :=
  make source 0 source.utf8Length

def between (start finish : Cursor) : Except Trap Cursor :=
  make start.source start.offset finish.offset

def remaining (cursor : Cursor) : Nat :=
  cursor.stop - cursor.offset

def isAtEnd (cursor : Cursor) : Bool :=
  cursor.stop ≤ cursor.offset

def text (cursor : Cursor) : Text :=
  (cursor.source.dropBytes cursor.offset).takeBytes cursor.remaining

def peek (cursor : Cursor) : Option Char :=
  cursor.text.head?

def textUntil (start finish : Cursor) : Except Trap Text :=
  (start.between finish).map text

-- Past the next character, if there is one.
def bump (cursor : Cursor) : Except Trap Cursor :=
  match cursor.peek with
  | some c => make cursor.source (cursor.offset + c.utf8Size) cursor.stop
  | none => .ok cursor

def jumpTo (cursor : Cursor) (target : Nat) : Except Trap Cursor :=
  if cursor.offset ≤ target ∧ target ≤ cursor.stop then
    make cursor.source target cursor.stop
  else
    .error (.badJump cursor.offset target cursor.stop)

def malformed {α : Type} (cursor : Cursor) (flaw : Flaw) : Except Trap α :=
  .error (.fault (.malformed cursor.source ⟨cursor.offset, flaw⟩))

theorem bind_eq_ok {α β : Type} {first : Except Trap α} {next : α → Except Trap β} {value : β}
    (h : first >>= next = .ok value) : ∃ middle, first = .ok middle ∧ next middle = .ok value := by
  cases first with
  | error trap => cases h
  | ok middle => exact ⟨middle, rfl, h⟩

theorem offset_lt_stop_iff {cursor : Cursor} :
    cursor.offset < cursor.stop ↔ cursor.peek.isSome = true := by
  have hstop := cursor.stop_le_utf8Length
  rw [peek, text, List.isSome_head?, remaining]
  constructor
  · intro hlt
    have hne := Text.dropBytes_ne_nil cursor.isBoundary_offset (Nat.lt_of_lt_of_le hlt hstop)
    cases hrest : cursor.source.dropBytes cursor.offset with
    | nil => exact absurd hrest hne
    | cons c rest =>
      have hcount : cursor.stop - cursor.offset ≠ 0 := by omega
      rw [Text.takeBytes, if_neg hcount]
      exact List.cons_ne_nil c _
  · intro h
    cases hrest : cursor.source.dropBytes cursor.offset with
    | nil =>
      rw [hrest] at h
      exact absurd rfl h
    | cons c rest =>
      rw [hrest, Text.takeBytes] at h
      split at h
      · exact absurd rfl h
      · omega

theorem offset_lt_stop_of_peek {cursor : Cursor} {c : Char} (h : cursor.peek = some c) :
    cursor.offset < cursor.stop := by
  rw [offset_lt_stop_iff, h]
  rfl

theorem make_eq_ok {source : Text} {offset stop : Nat} {cursor : Cursor}
    (h : make source offset stop = .ok cursor) : cursor.offset = offset ∧ cursor.stop = stop := by
  unfold make at h
  split at h
  · cases h
    exact ⟨rfl, rfl⟩
  · cases h

theorem bump_eq_ok {cursor next : Cursor} {c : Char} (hpeek : cursor.peek = some c)
    (h : cursor.bump = .ok next) : cursor.offset < next.offset ∧ next.stop = cursor.stop := by
  have hsize := Char.utf8Size_pos c
  simp only [bump, hpeek] at h
  obtain ⟨hoffset, hstop⟩ := make_eq_ok h
  omega

theorem remaining_bump {cursor next : Cursor} {c : Char} (hpeek : cursor.peek = some c)
    (h : cursor.bump = .ok next) : next.remaining < cursor.remaining := by
  have hlt := offset_lt_stop_of_peek hpeek
  obtain ⟨hoffset, hstop⟩ := bump_eq_ok hpeek h
  rw [remaining, remaining]
  omega

theorem remaining_bump_le {cursor next : Cursor} (h : cursor.bump = .ok next) :
    next.remaining ≤ cursor.remaining := by
  cases hpeek : cursor.peek with
  | some c => exact Nat.le_of_lt (remaining_bump hpeek h)
  | none =>
    simp only [bump, hpeek] at h
    cases h
    exact Nat.le_refl _

-- Wherever a jump goes, the character after it is not in front of the cursor.
theorem remaining_jumpTo {cursor middle next : Cursor} {target : Nat} {c : Char}
    (hpeek : cursor.peek = some c) (hjump : cursor.jumpTo target = .ok middle)
    (h : middle.bump = .ok next) : next.remaining < cursor.remaining := by
  have hlt := offset_lt_stop_of_peek hpeek
  unfold jumpTo at hjump
  split at hjump
  · rename_i hbounds
    obtain ⟨hoffset, hstop⟩ := make_eq_ok hjump
    cases hp : middle.peek with
    | some d =>
      obtain ⟨hnext, hsame⟩ := bump_eq_ok hp h
      rw [remaining, remaining]
      omega
    | none =>
      have hend : ¬middle.offset < middle.stop := by
        rw [offset_lt_stop_iff, hp]
        exact Bool.false_ne_true
      simp only [bump, hp] at h
      cases h
      rw [remaining, remaining]
      omega
  · cases hjump

-- Past all characters that satisfy a condition.
def skipWhile (condition : Char → Bool) (cursor : Cursor) : Except Trap Cursor :=
  match _hpeek : cursor.peek with
  | none => .ok cursor
  | some c =>
    if condition c then
      match _h : cursor.bump with
      | .error trap => .error trap
      | .ok next => skipWhile condition next
    else
      .ok cursor
termination_by cursor.remaining
decreasing_by exact remaining_bump _hpeek _h

theorem remaining_skipWhile {condition : Char → Bool} {cursor next : Cursor}
    (h : cursor.skipWhile condition = .ok next) : next.remaining ≤ cursor.remaining := by
  fun_induction skipWhile condition cursor with
  | case1 cursor hpeek =>
    cases h
    exact Nat.le_refl _
  | case2 cursor c hpeek hc trap hbump => cases h
  | case3 cursor c hpeek hc middle hbump ih =>
    have hless := remaining_bump hpeek hbump
    exact Nat.le_trans (ih h) (Nat.le_of_lt hless)
  | case4 cursor c hpeek hc =>
    cases h
    exact Nat.le_refl _

theorem remaining_skipWhile_of_peek {condition : Char → Bool} {cursor next : Cursor} {c : Char}
    (hpeek : cursor.peek = some c) (hc : condition c = true)
    (h : cursor.skipWhile condition = .ok next) : next.remaining < cursor.remaining := by
  unfold skipWhile at h
  split at h
  · rename_i hnone
    rw [hpeek] at hnone
    cases hnone
  · rename_i d hsome
    rw [hpeek] at hsome
    cases hsome
    rw [if_pos hc] at h
    split at h
    · cases h
    · rename_i middle hbump
      exact Nat.lt_of_le_of_lt (remaining_skipWhile h) (remaining_bump hpeek hbump)

end Cursor

-- A way to go through a part of a text: what is done at each character, which
-- must move on.
structure Scan (σ : Type) where
  step : σ → Cursor → Char → Logged Trap (σ × Cursor)
  advances : ∀ {state next : σ} {cursor after : Cursor} {c : Char}, cursor.peek = some c →
    (step state cursor c).result = .ok (next, after) → after.remaining < cursor.remaining

-- Goes on to the end of the part.
def Scan.run {σ : Type} (scan : Scan σ) (state : σ) (cursor : Cursor) :
    Logged Trap (σ × Cursor) :=
  match _hpeek : cursor.peek with
  | none => pure (state, cursor)
  | some c =>
    let passed := scan.step state cursor c
    match _h : passed.result with
    | .error trap => ⟨passed.events, .error trap⟩
    | .ok (next, after) =>
      let others := scan.run next after
      ⟨passed.events ++ others.events, others.result⟩
termination_by cursor.remaining
decreasing_by exact scan.advances _hpeek _h

end Coinage
