import Coinage.Cursor.Closers
import Coinage.Proofs.Bracketed.Grammar
import Coinage.Proofs.Journal

namespace Coinage

namespace Text

theorem utf8Length_cons_ne_zero (c : Char) (text : Text) : Text.utf8Length (c :: text) ≠ 0 := by
  have hsize := Char.utf8Size_pos c
  rw [utf8Length_cons]
  omega

theorem isBoundary_append (first second : Text) :
    Text.isBoundary first.utf8Length (first ++ second) = true := by
  induction first with
  | nil => cases second <;> rfl
  | cons c first ih => simp [isBoundary, ih]

theorem dropBytes_append (first second : Text) :
    Text.dropBytes first.utf8Length (first ++ second) = second := by
  induction first with
  | nil => cases second <;> rfl
  | cons c first ih =>
    rw [List.cons_append, dropBytes, if_neg (utf8Length_cons_ne_zero c first), utf8Length_cons,
      Nat.add_sub_cancel_left, ih]

theorem takeBytes_append (first second : Text) :
    Text.takeBytes first.utf8Length (first ++ second) = first := by
  induction first with
  | nil => cases second <;> rfl
  | cons c first ih =>
    rw [List.cons_append, takeBytes, if_neg (utf8Length_cons_ne_zero c first), utf8Length_cons,
      Nat.add_sub_cancel_left, ih]

end Text

namespace Cursor

-- The cursor at the beginning of a part of a text, between what stands before
-- the part and what stands after it.
def spanning (before part after : Text) : Cursor where
  source := before ++ (part ++ after)
  offset := before.utf8Length
  stop := before.utf8Length + part.utf8Length
  offset_le_stop := Nat.le_add_right _ _
  isBoundary_offset := Text.isBoundary_append before (part ++ after)
  isBoundary_stop := by
    rw [← List.append_assoc, ← Text.utf8Length_append]
    exact Text.isBoundary_append (before ++ part) after

theorem make_eq_spanning {source before part after : Text} {offset stop : Nat}
    (hsource : source = before ++ (part ++ after)) (hoffset : offset = before.utf8Length)
    (hstop : stop = before.utf8Length + part.utf8Length) :
    make source offset stop = .ok (spanning before part after) := by
  subst hsource hoffset hstop
  exact dif_pos ⟨(spanning before part after).offset_le_stop,
    (spanning before part after).isBoundary_offset, (spanning before part after).isBoundary_stop⟩

theorem whole_eq (source : Text) : whole source = .ok (spanning [] source []) :=
  make_eq_spanning (List.append_nil source).symm rfl (Nat.zero_add _).symm

section SkipWhile

variable {condition : Char → Bool} {cursor : Cursor} {c : Char}

theorem skipWhile_of_none (h : cursor.peek = none) : cursor.skipWhile condition = .ok cursor := by
  unfold skipWhile
  split
  · rfl
  · rename_i hsome
    rw [h] at hsome
    cases hsome

theorem skipWhile_of_false (h : cursor.peek = some c) (hc : ¬condition c = true) :
    cursor.skipWhile condition = .ok cursor := by
  unfold skipWhile
  split
  · rfl
  · rename_i hsome
    rw [h] at hsome
    cases hsome
    exact if_neg hc

theorem skipWhile_of_true (h : cursor.peek = some c) (hc : condition c = true) :
    cursor.skipWhile condition = cursor.bump >>= skipWhile condition := by
  rw [skipWhile]
  split
  · rename_i hnone
    rw [h] at hnone
    cases hnone
  · rename_i hsome
    rw [h] at hsome
    cases hsome
    rw [if_pos hc]
    split <;> rename_i hbump <;> rw [hbump] <;> rfl

end SkipWhile

section Moves

variable (before part after : Text)

@[simp] theorem source_spanning :
    (spanning before part after).source = before ++ (part ++ after) := rfl

@[simp] theorem offset_spanning : (spanning before part after).offset = before.utf8Length := rfl

@[simp] theorem text_spanning : (spanning before part after).text = part := by
  have hremaining : (spanning before part after).remaining = part.utf8Length :=
    Nat.add_sub_cancel_left _ _
  rw [text, hremaining, source_spanning, offset_spanning, Text.dropBytes_append,
    Text.takeBytes_append]

@[simp] theorem peek_spanning : (spanning before part after).peek = part.head? := by
  rw [peek, text_spanning]

@[simp] theorem isAtEnd_spanning : (spanning before part after).isAtEnd = part.isEmpty := by
  cases part with
  | nil => simp [isAtEnd, spanning]
  | cons c rest =>
    have hne := Text.utf8Length_cons_ne_zero c rest
    apply decide_eq_false
    simp only [spanning]
    omega

@[simp] theorem bump_spanning (c : Char) (rest : Text) :
    (spanning before (c :: rest) after).bump = .ok (spanning (before ++ [c]) rest after) := by
  rw [bump, peek_spanning]
  apply make_eq_spanning
  · simp
  · simp
  · simp [spanning, Nat.add_assoc]

-- A jump over some text.
theorem jumpTo_spanning (first second : Text) {target : Nat}
    (htarget : target = before.utf8Length + first.utf8Length) :
    (spanning before (first ++ second) after).jumpTo target =
      .ok (spanning (before ++ first) second after) := by
  have hbounds : (spanning before (first ++ second) after).offset ≤ target ∧
      target ≤ (spanning before (first ++ second) after).stop := by
    simp only [spanning, Text.utf8Length_append]
    omega
  rw [jumpTo, if_pos hbounds]
  apply make_eq_spanning
  · simp
  · simp [htarget]
  · simp [spanning, Nat.add_assoc]

theorem between_spanning (first second : Text) {start finish : Cursor}
    (hstart : start = spanning before (first ++ second) after)
    (hfinish : finish.offset = before.utf8Length + first.utf8Length) :
    start.between finish = .ok (spanning before first (second ++ after)) := by
  subst hstart
  apply make_eq_spanning
  · simp
  · rfl
  · exact hfinish

theorem textUntil_spanning (first second : Text) {finish : Cursor}
    (hfinish : finish.offset = before.utf8Length + first.utf8Length) :
    (spanning before (first ++ second) after).textUntil finish = .ok first := by
  rw [textUntil, between_spanning before after first second rfl hfinish]
  exact congrArg Except.ok (text_spanning _ _ _)

theorem skipWhile_spanning (condition : Char → Bool) :
    (spanning before part after).skipWhile condition =
      .ok (spanning (before ++ part.takeWhile condition) (part.dropWhile condition) after) := by
  induction part generalizing before with
  | nil =>
    rw [skipWhile_of_none (peek_spanning _ _ _)]
    simp
  | cons c rest ih =>
    by_cases hc : condition c = true
    · rw [skipWhile_of_true (peek_spanning _ _ _) hc, bump_spanning, except_ok_bind, ih]
      simp [hc]
    · rw [skipWhile_of_false (peek_spanning _ _ _) hc]
      simp [hc]

theorem textUntil_takeWhile (condition : Char → Bool) :
    (spanning before part after).textUntil
        (spanning (before ++ part.takeWhile condition) (part.dropWhile condition) after) =
      .ok (part.takeWhile condition) := by
  have hfinish : (spanning (before ++ part.takeWhile condition) (part.dropWhile condition)
      after).offset = before.utf8Length + Text.utf8Length (part.takeWhile condition) :=
    Text.utf8Length_append _ _
  have h := textUntil_spanning before after _ (part.dropWhile condition) hfinish
  rwa [List.takeWhile_append_dropWhile] at h

end Moves

end Cursor

namespace Scan

variable {σ : Type} {scan : Scan σ} {state : σ} {cursor : Cursor}

theorem run_of_none (h : cursor.peek = none) : scan.run state cursor = pure (state, cursor) := by
  unfold run
  split
  · rfl
  · rename_i hsome
    rw [h] at hsome
    cases hsome

theorem run_of_some {c : Char} (h : cursor.peek = some c) :
    scan.run state cursor =
      scan.step state cursor c >>= fun next => scan.run next.1 next.2 := by
  rw [run]
  split
  · rename_i hnone
    rw [h] at hnone
    cases hnone
  · rename_i hsome
    rw [h] at hsome
    cases hsome
    dsimp only
    split
    · rename_i hstep
      rw [Logged.bind_of_error hstep]
    · rename_i hstep
      rw [Logged.bind_of_ok hstep]

theorem run_of_step {before rest after : Text} {c : Char} {next : σ} {place : Cursor}
    (hstep : scan.step state (.spanning before (c :: rest) after) c = pure (next, place)) :
    scan.run state (.spanning before (c :: rest) after) = scan.run next place := by
  rw [run_of_some (Cursor.peek_spanning _ _ _), hstep, pure_bind]

theorem run_of_trap {before rest after : Text} {c : Char} {trap : Trap}
    (hstep : scan.step state (.spanning before (c :: rest) after) c = .ofResult (.error trap)) :
    scan.run state (.spanning before (c :: rest) after) = .ofResult (.error trap) := by
  rw [run_of_some (Cursor.peek_spanning _ _ _), hstep, Logged.ofResult_error_bind]

end Scan

end Coinage
