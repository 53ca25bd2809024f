import Coinage.Bracketed.Reader

namespace Coinage

namespace Text

@[simp] theorem utf8Length_nil : Text.utf8Length [] = 0 := rfl

@[simp] theorem utf8Length_cons (c : Char) (text : Text) :
    Text.utf8Length (c :: text) = c.utf8Size + text.utf8Length := rfl

@[simp] theorem utf8Length_append (first second : Text) :
    Text.utf8Length (first ++ second) = first.utf8Length + second.utf8Length := by
  induction first with
  | nil => simp
  | cons c first ih =>
    simp only [List.cons_append, utf8Length_cons, ih, Nat.add_assoc]

-- A character takes at least one byte.
theorem length_le_utf8Length (text : Text) : text.length ≤ text.utf8Length := by
  induction text with
  | nil => exact Nat.le_refl 0
  | cons c text ih =>
    have hc := Char.utf8Size_pos c
    simp only [List.length_cons, utf8Length_cons]
    omega

end Text

namespace Bracket

@[simp] theorem ofOpener?_opener (bracket : Bracket) : ofOpener? bracket.opener = some bracket := by
  cases bracket <;> rfl

@[simp] theorem ofOpener?_closer (bracket : Bracket) : ofOpener? bracket.closer = none := by
  cases bracket <;> rfl

@[simp] theorem ofCloser?_closer (bracket : Bracket) : ofCloser? bracket.closer = some bracket := by
  cases bracket <;> rfl

theorem eq_opener_of_ofOpener? {c : Char} {bracket : Bracket} (h : ofOpener? c = some bracket) :
    c = bracket.opener := by
  unfold ofOpener? at h
  split at h
  · rename_i hc
    cases h
    exact hc
  · split at h
    · rename_i hc
      cases h
      exact hc
    · cases h

theorem eq_closer_of_ofCloser? {c : Char} {bracket : Bracket} (h : ofCloser? c = some bracket) :
    c = bracket.closer := by
  unfold ofCloser? at h
  split at h
  · rename_i hc
    cases h
    exact hc
  · split at h
    · rename_i hc
      cases h
      exact hc
    · cases h

@[simp] theorem opener_ne_quote (bracket : Bracket) : bracket.opener ≠ '"' := by
  cases bracket <;> decide

@[simp] theorem closer_ne_quote (bracket : Bracket) : bracket.closer ≠ '"' := by
  cases bracket <;> decide

end Bracket

namespace Bracketed

-- The characters that open or close a quotation or a group.
def marks : List Char := ['"', '[', ']', '(', ')']

theorem opener_mem_marks (bracket : Bracket) : bracket.opener ∈ marks := by
  cases bracket <;> decide

theorem closer_mem_marks (bracket : Bracket) : bracket.closer ∈ marks := by
  cases bracket <;> decide

theorem ne_quote_of_notMem_marks {c : Char} (h : c ∉ marks) : c ≠ '"' := by
  rintro rfl
  exact h (by decide)

theorem ofOpener?_of_notMem_marks {c : Char} (h : c ∉ marks) : Bracket.ofOpener? c = none := by
  cases ho : Bracket.ofOpener? c with
  | none => rfl
  | some bracket =>
    rw [Bracket.eq_opener_of_ofOpener? ho] at h
    exact absurd (opener_mem_marks bracket) h

theorem ofCloser?_of_notMem_marks {c : Char} (h : c ∉ marks) : Bracket.ofCloser? c = none := by
  cases ho : Bracket.ofCloser? c with
  | none => rfl
  | some bracket =>
    rw [Bracket.eq_closer_of_ofCloser? ho] at h
    exact absurd (closer_mem_marks bracket) h

-- A character is a mark unless it is no quote, no opener and no closer.
theorem notMem_marks {c : Char} (hq : c ≠ '"') (ho : Bracket.ofOpener? c = none)
    (hc : Bracket.ofCloser? c = none) : c ∉ marks := by
  intro hm
  simp only [marks, List.mem_cons, List.not_mem_nil, or_false] at hm
  rcases hm with rfl | rfl | rfl | rfl | rfl
  · exact hq rfl
  · exact absurd ho (by decide)
  · exact absurd hc (by decide)
  · exact absurd ho (by decide)
  · exact absurd hc (by decide)

-- The texts whose quotations and groups match, with groups nested at most
-- `depth` levels deep.
inductive Matched : Nat → Text → Prop
  | nil {depth : Nat} : Matched depth []
  | char {depth : Nat} {c : Char} {rest : Text} (hc : c ∉ marks) (hrest : Matched depth rest) :
      Matched depth (c :: rest)
  | quoted {depth : Nat} {text rest : Text} (htext : '"' ∉ text) (hrest : Matched depth rest) :
      Matched depth ('"' :: text ++ '"' :: rest)
  | group {depth : Nat} {interior rest : Text} (bracket : Bracket)
      (hinterior : Matched depth interior) (hrest : Matched (depth + 1) rest) :
      Matched (depth + 1) (bracket.opener :: interior ++ bracket.closer :: rest)

-- No mark stands as a plain character, and no quotation holds a quote. So the
-- rendered text can be read in one way only.
def Legible : Bracketed → Prop
  | nil => True
  | char c rest => c ∉ marks ∧ rest.Legible
  | quoted text rest => '"' ∉ text ∧ rest.Legible
  | group _ interior rest => interior.Legible ∧ rest.Legible

theorem matched_render {level : Bracketed} (hl : level.Legible) {depth : Nat}
    (hd : level.depth ≤ depth) : Matched depth level.render := by
  induction level generalizing depth with
  | nil => exact .nil
  | char c rest ih => exact .char hl.1 (ih hl.2 hd)
  | quoted text rest ih => exact .quoted hl.1 (ih hl.2 hd)
  | group bracket interior rest ihi ihr =>
    simp only [Bracketed.depth] at hd
    obtain ⟨depth, rfl⟩ : ∃ lower, depth = lower + 1 := ⟨depth - 1, by omega⟩
    exact .group bracket (ihi hl.1 (by omega)) (ihr hl.2 (by omega))

-- A derivation in the grammar is a level.
theorem Matched.exists_level {depth : Nat} {text : Text} (h : Matched depth text) :
    ∃ level : Bracketed, level.Legible ∧ level.depth ≤ depth ∧ level.render = text := by
  induction h with
  | nil => exact ⟨.nil, trivial, Nat.zero_le _, rfl⟩
  | @char depth c rest hc hrest ih =>
    obtain ⟨level, hl, hd, rfl⟩ := ih
    exact ⟨.char c level, ⟨hc, hl⟩, hd, rfl⟩
  | @quoted depth text rest htext hrest ih =>
    obtain ⟨level, hl, hd, rfl⟩ := ih
    exact ⟨.quoted text level, ⟨htext, hl⟩, hd, rfl⟩
  | @group depth interior rest bracket hinterior hrest ihi ihr =>
    obtain ⟨inner, hli, hdi, rfl⟩ := ihi
    obtain ⟨level, hl, hd, rfl⟩ := ihr
    exact ⟨.group bracket inner level, ⟨hli, hl⟩, by simp only [Bracketed.depth]; omega, rfl⟩

theorem matched_iff {depth : Nat} {text : Text} :
    Matched depth text ↔
      ∃ level : Bracketed, level.Legible ∧ level.depth ≤ depth ∧ level.render = text := by
  constructor
  · exact Matched.exists_level
  · rintro ⟨level, hl, hd, rfl⟩
    exact matched_render hl hd

-- Every quotation of a legible level is closed.
theorem even_count_quote_render {level : Bracketed} (hl : level.Legible) :
    level.render.count '"' % 2 = 0 := by
  induction level with
  | nil => rfl
  | char c rest ih =>
    have hc : (c == '"') = false := by simpa using ne_quote_of_notMem_marks hl.1
    simpa [render, List.count_cons, hc] using ih hl.2
  | quoted text rest ih =>
    have ht : text.count '"' = 0 := List.count_eq_zero_of_not_mem hl.1
    have hr := ih hl.2
    simp only [render, List.count_append, List.count_cons, ht, beq_self_eq_true, ite_true]
    omega
  | group bracket interior rest ihi ihr =>
    have hi := ihi hl.1
    have hr := ihr hl.2
    have ho : (bracket.opener == '"') = false := by simp
    have hc : (bracket.closer == '"') = false := by simp
    simp only [render, List.count_append, List.count_cons, ho, hc]
    simp only [Bool.false_eq_true, ite_false]
    omega

end Bracketed

end Coinage
