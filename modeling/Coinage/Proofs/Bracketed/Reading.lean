import Coinage.Proofs.Bracketed.Grammar

namespace Coinage

namespace Bracketed

theorem render_reverseOnto (level tail : Bracketed) :
    (level.reverseOnto tail).render = level.reverse.render ++ tail.render := by
  unfold reverse
  induction level generalizing tail with
  | nil => rfl
  | char c rest ih =>
    simp only [reverseOnto]
    rw [ih (char c tail), ih (char c nil)]
    simp [render]
  | quoted text rest ih =>
    simp only [reverseOnto]
    rw [ih (quoted text tail), ih (quoted text nil)]
    simp [render]
  | group bracket interior rest _ ih =>
    simp only [reverseOnto]
    rw [ih (group bracket interior tail), ih (group bracket interior nil)]
    simp [render]

@[simp] theorem render_reverse_char (c : Char) (level : Bracketed) :
    (char c level).reverse.render = level.reverse.render ++ [c] :=
  render_reverseOnto level (char c nil)

@[simp] theorem render_reverse_quoted (text : Text) (level : Bracketed) :
    (quoted text level).reverse.render = level.reverse.render ++ ('"' :: text ++ ['"']) :=
  render_reverseOnto level (quoted text nil)

@[simp] theorem render_reverse_group (bracket : Bracket) (interior level : Bracketed) :
    (group bracket interior level).reverse.render =
      level.reverse.render ++ (bracket.opener :: interior.render ++ [bracket.closer]) :=
  render_reverseOnto level (group bracket interior nil)

theorem reverse_reverseOnto (level tail : Bracketed) :
    (level.reverseOnto tail).reverse = tail.reverseOnto level := by
  induction level generalizing tail with
  | nil => rfl
  | char c rest ih => exact ih (char c tail)
  | quoted text rest ih => exact ih (quoted text tail)
  | group bracket interior rest _ ih => exact ih (group bracket interior tail)

@[simp] theorem reverse_reverse (level : Bracketed) : level.reverse.reverse = level :=
  reverse_reverseOnto level nil

theorem legible_reverseOnto (level tail : Bracketed) :
    (level.reverseOnto tail).Legible ↔ level.Legible ∧ tail.Legible := by
  induction level generalizing tail with
  | nil => simp [reverseOnto, Legible]
  | char c rest ih =>
    rw [reverseOnto, ih, Legible, Legible, and_left_comm, and_assoc]
  | quoted text rest ih =>
    rw [reverseOnto, ih, Legible, Legible, and_left_comm, and_assoc]
  | group bracket interior rest _ ih =>
    rw [reverseOnto, ih, Legible, Legible, and_left_comm, and_assoc]

theorem Legible.reverse {level : Bracketed} (h : level.Legible) : level.reverse.Legible :=
  (legible_reverseOnto level nil).mpr ⟨h, trivial⟩

theorem depth_reverseOnto (level tail : Bracketed) :
    (level.reverseOnto tail).depth = max level.depth tail.depth := by
  induction level generalizing tail with
  | nil => simp [reverseOnto, depth]
  | char c rest ih => exact ih (char c tail)
  | quoted text rest ih => exact ih (quoted text tail)
  | group bracket interior rest _ ih =>
    rw [reverseOnto, ih]
    simp only [depth]
    omega

@[simp] theorem depth_reverse (level : Bracketed) : level.reverse.depth = level.depth := by
  rw [reverse, depth_reverseOnto]
  simp [depth]

end Bracketed

namespace Reader

open Bracketed

-- Reads more of a text.
def run (reader : Reader) (text : Text) : Except Malformation Reader :=
  text.foldlM step reader

@[simp] theorem run_nil (reader : Reader) : reader.run [] = .ok reader := rfl

theorem run_cons_of_ok {reader next : Reader} {c : Char} (h : reader.step c = .ok next)
    (text : Text) : reader.run (c :: text) = next.run text := by
  simp only [run, List.foldlM_cons, h]
  rfl

theorem run_cons_of_error {reader : Reader} {c : Char} {malformation : Malformation}
    (h : reader.step c = .error malformation) (text : Text) :
    reader.run (c :: text) = .error malformation := by
  simp only [run, List.foldlM_cons, h]
  rfl

theorem run_append_of_ok {reader next : Reader} {first : Text} (h : reader.run first = .ok next)
    (second : Text) : reader.run (first ++ second) = next.run second := by
  simp only [run] at h ⊢
  rw [List.foldlM_append, h]
  rfl

-- The text before a character that is refused has been read.
theorem exists_of_run_eq_error {reader : Reader} {text : Text} {malformation : Malformation}
    (h : reader.run text = .error malformation) :
    ∃ before c after next, text = before ++ c :: after ∧ reader.run before = .ok next ∧
      next.step c = .error malformation := by
  induction text generalizing reader with
  | nil => cases h
  | cons c text ih =>
    cases hs : reader.step c with
    | error other =>
      rw [run_cons_of_error hs] at h
      cases h
      exact ⟨[], c, text, reader, rfl, rfl, hs⟩
    | ok middle =>
      rw [run_cons_of_ok hs] at h
      obtain ⟨before, d, after, next, rfl, hrun, hstep⟩ := ih h
      exact ⟨c :: before, d, after, next, rfl, (run_cons_of_ok hs before).trans hrun, hstep⟩

section Step

variable (position : Nat) (level : Bracketed) (groups : List OpenGroup)

theorem step_char {c : Char} (hc : c ∉ marks) :
    step ⟨position, level, groups, none⟩ c =
      .ok ⟨position + c.utf8Size, .char c level, groups, none⟩ := by
  simp [step, readOpen, ne_quote_of_notMem_marks hc, ofOpener?_of_notMem_marks hc,
    ofCloser?_of_notMem_marks hc, Except.map, advance]

theorem step_quote :
    step ⟨position, level, groups, none⟩ '"' =
      .ok ⟨position + '"'.utf8Size, level, groups, some ⟨position, []⟩⟩ := by
  simp [step, readOpen, Except.map, advance, openQuote]

theorem step_opener (bracket : Bracket) (hd : groups.length < depthLimit) :
    step ⟨position, level, groups, none⟩ bracket.opener =
      .ok ⟨position + bracket.opener.utf8Size, .nil, ⟨bracket, position, level⟩ :: groups, none⟩ := by
  simp [step, readOpen, Except.map, advance, openGroup, hd]

theorem step_closer (bracket : Bracket) (offset : Nat) (before : Bracketed) :
    step ⟨position, level, ⟨bracket, offset, before⟩ :: groups, none⟩ bracket.closer =
      .ok ⟨position + bracket.closer.utf8Size, .group bracket level.reverse before, groups,
        none⟩ := by
  simp [step, readOpen, Except.map, advance, closeGroup]

theorem step_quoted (offset : Nat) (text : Text) {c : Char} (hc : c ≠ '"') :
    step ⟨position, level, groups, some ⟨offset, text⟩⟩ c =
      .ok ⟨position + c.utf8Size, level, groups, some ⟨offset, c :: text⟩⟩ := by
  simp [step, readQuoted, hc, advance]

theorem step_unquote (offset : Nat) (text : Text) :
    step ⟨position, level, groups, some ⟨offset, text⟩⟩ '"' =
      .ok ⟨position + '"'.utf8Size, .quoted text.reverse level, groups, none⟩ := by
  simp [step, readQuoted, advance]

end Step

theorem run_quoted (position : Nat) (level : Bracketed) (groups : List OpenGroup) (offset : Nat)
    (before : Text) {text : Text} (ht : '"' ∉ text) :
    run ⟨position, level, groups, some ⟨offset, before⟩⟩ text =
      .ok ⟨position + text.utf8Length, level, groups, some ⟨offset, text.reverse ++ before⟩⟩ := by
  induction text generalizing position before with
  | nil => rfl
  | cons c text ih =>
    simp only [List.mem_cons, not_or] at ht
    rw [run_cons_of_ok (step_quoted _ _ _ _ _ (Ne.symm ht.1)), ih _ _ ht.2]
    simp [Nat.add_assoc]

-- A legible level is read back, whatever stands around it, as long as the
-- groups do not nest too deep.
theorem run_render (position : Nat) (before : Bracketed) (groups : List OpenGroup)
    {level : Bracketed} (hl : level.Legible) (hd : level.depth + groups.length ≤ depthLimit) :
    run ⟨position, before, groups, none⟩ level.render =
      .ok ⟨position + level.render.utf8Length, level.reverseOnto before, groups, none⟩ := by
  induction level generalizing position before groups with
  | nil => rfl
  | char c rest ih =>
    rw [render, run_cons_of_ok (step_char _ _ _ hl.1), ih _ _ _ hl.2 hd]
    simp [reverseOnto, Nat.add_assoc]
  | quoted text rest ih =>
    rw [render, List.cons_append, run_cons_of_ok (step_quote _ _ _),
      run_append_of_ok (run_quoted _ _ _ _ _ hl.1), run_cons_of_ok (step_unquote _ _ _ _ _),
      ih _ _ _ hl.2 hd]
    simp [reverseOnto, Nat.add_assoc]
  | group bracket interior rest ihi ihr =>
    simp only [Bracketed.depth] at hd
    have hinner : interior.depth + (⟨bracket, position, before⟩ :: groups).length ≤ depthLimit := by
      simp only [List.length_cons]
      omega
    -- the closer puts the interior behind what stood before the opener
    rw [render, List.cons_append, run_cons_of_ok (step_opener _ _ _ bracket (by omega)),
      run_append_of_ok (ihi _ _ _ hl.1 hinner), run_cons_of_ok (step_closer _ _ _ _ _ _),
      ihr _ _ _ hl.2 (by omega)]
    have hr : (interior.reverseOnto nil).reverse = interior := interior.reverse_reverse
    simp [reverseOnto, Nat.add_assoc, hr]

end Reader

end Coinage
