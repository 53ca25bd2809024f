import Coinage.Proofs.Bracketed.Append

namespace Coinage

namespace Bracketed

-- A place on a level or in one of its groups, at any depth. What follows it on
-- the innermost level is left open.
inductive Place
  | here (left : Bracketed)
  | inside (left : Bracketed) (bracket : Bracket) (place : Place) (right : Bracketed)

namespace Place

def fill (tail : Bracketed) : Place → Bracketed
  | here left => left.append tail
  | inside left bracket place right => left.append (.group bracket (place.fill tail) right)

-- The text up to the place.
def before : Place → Text
  | here left => left.render
  | inside left bracket place _ => left.render ++ bracket.opener :: place.before

-- The text that follows the innermost level.
def closing : Place → Text
  | here _ => []
  | inside _ bracket place right => place.closing ++ bracket.closer :: right.render

theorem render_fill (place : Place) (tail : Bracketed) :
    (place.fill tail).render = place.before ++ (tail.render ++ place.closing) := by
  induction place with
  | here left => simp [fill, before, closing]
  | inside left bracket place right ih => simp [fill, before, closing, render, ih]

theorem Legible.of_fill {place : Place} {tail : Bracketed} (h : (place.fill tail).Legible) :
    tail.Legible := by
  induction place with
  | here left => exact ((legible_append left tail).mp h).2
  | inside left bracket place right ih => exact ih ((legible_append left _).mp h).2.1

-- The same place with more in front of it.
def behind (first : Bracketed) : Place → Place
  | here left => here (first.append left)
  | inside left bracket place right => inside (first.append left) bracket place right

theorem fill_behind (first tail : Bracketed) (place : Place) :
    (place.behind first).fill tail = first.append (place.fill tail) := by
  cases place <;> exact append_assoc _ _ _

theorem before_behind (first : Bracketed) (place : Place) :
    (place.behind first).before = first.render ++ place.before := by
  cases place <;> simp [behind, before]

theorem depth_le_depth_fill (place : Place) (tail : Bracketed) :
    tail.depth ≤ (place.fill tail).depth := by
  induction place with
  | here left =>
    rw [fill, depth_append]
    exact Nat.le_max_right _ _
  | inside left bracket place right ih =>
    rw [fill, depth_append, depth]
    omega

-- A place lies outside quotations.
theorem even_count_quote_before {place : Place} {tail : Bracketed}
    (h : (place.fill tail).Legible) : place.before.count '"' % 2 = 0 := by
  induction place with
  | here left => exact even_count_quote_render ((legible_append left tail).mp h).1
  | inside left bracket place right ih =>
    obtain ⟨hleft, hinterior, -⟩ := (legible_append left _).mp h
    have hcount := even_count_quote_render hleft
    have hplace := ih hinterior
    rw [before, List.count_append, List.count_cons_of_ne bracket.opener_ne_quote]
    omega

end Place

-- The texts that can follow a level: nothing, or the closer of its group.
inductive Ends : Text → Prop
  | nil : Ends []
  | closer (bracket : Bracket) (rest : Text) : Ends (bracket.closer :: rest)

theorem Place.ends_closing (place : Place) : Ends place.closing := by
  induction place with
  | here left => exact .nil
  | inside left bracket place right ih =>
    rw [closing]
    generalize place.closing = text at ih
    cases ih with
    | nil => exact .closer bracket right.render
    | closer other rest => exact .closer other (rest ++ bracket.closer :: right.render)

section Tail

variable {tail : Bracketed} {closing rest : Text}

theorem eq_nil_of_render_append (h : tail.render ++ closing = []) : tail = nil := by
  cases tail with
  | nil => rfl
  | char c more => cases h
  | quoted text more => cases h
  | group bracket interior more => cases h

theorem eq_nil_of_closer (hl : tail.Legible) {bracket : Bracket}
    (h : tail.render ++ closing = bracket.closer :: rest) : tail = nil := by
  cases tail with
  | nil => rfl
  | char c more => exact absurd ((List.cons.inj h).1 ▸ closer_mem_marks bracket) hl.1
  | quoted text more => exact absurd (List.cons.inj h).1.symm bracket.closer_ne_quote
  | group other interior more =>
    have hnone := Bracket.ofOpener?_closer bracket
    rw [← (List.cons.inj h).1, Bracket.ofOpener?_opener] at hnone
    cases hnone

-- A character that is no mark belongs to the level.
theorem exists_char_of_render (hends : Ends closing) {c : Char} (hc : c ∉ marks)
    (h : tail.render ++ closing = c :: rest) :
    ∃ more, tail = char c more ∧ more.render ++ closing = rest := by
  cases tail with
  | nil =>
    cases hends with
    | nil => cases h
    | closer bracket _ => exact absurd ((List.cons.inj h).1 ▸ closer_mem_marks bracket) hc
  | char d more =>
    obtain ⟨rfl, hrest⟩ := List.cons.inj h
    exact ⟨more, rfl, hrest⟩
  | quoted text more => exact absurd (List.cons.inj h).1.symm (ne_quote_of_notMem_marks hc)
  | group bracket interior more =>
    exact absurd ((List.cons.inj h).1 ▸ opener_mem_marks bracket) hc

theorem exists_group_of_render (hl : tail.Legible) (hends : Ends closing) {bracket : Bracket}
    (h : tail.render ++ closing = bracket.opener :: rest) :
    ∃ interior more, tail = group bracket interior more ∧
      interior.render ++ bracket.closer :: (more.render ++ closing) = rest := by
  cases tail with
  | nil =>
    cases hends with
    | nil => cases h
    | closer other _ =>
      have hnone := Bracket.ofOpener?_closer other
      rw [(List.cons.inj h).1, Bracket.ofOpener?_opener] at hnone
      cases hnone
  | char c more => exact absurd ((List.cons.inj h).1 ▸ opener_mem_marks bracket) hl.1
  | quoted text more => exact absurd (List.cons.inj h).1.symm bracket.opener_ne_quote
  | group other interior more =>
    obtain ⟨hopener, hrest⟩ := List.cons.inj h
    have hbracket := congrArg Bracket.ofOpener? hopener
    rw [Bracket.ofOpener?_opener, Bracket.ofOpener?_opener] at hbracket
    cases hbracket
    exact ⟨interior, more, rfl, by simpa using hrest⟩

end Tail

section Split

variable {before after : Text}

-- A quotation that ends beyond a place leaves an odd number of quotes before it.
theorem exists_of_quoted_split {text rest : Text} (ht : '"' ∉ text)
    (h : '"' :: text ++ '"' :: rest = '"' :: before ++ after)
    (hquotes : ('"' :: before).count '"' % 2 = 0) :
    ∃ more, before = text ++ '"' :: more ∧ rest = more ++ after ∧ more.count '"' % 2 = 0 := by
  have hcount : text.count '"' = 0 := List.count_eq_zero_of_not_mem ht
  rcases List.append_eq_append_iff.mp (List.cons.inj h).2 with
    ⟨more, hbefore, hrest⟩ | ⟨more, htext, -⟩
  · cases more with
    | nil =>
      rw [hbefore, List.append_nil, List.count_cons_self, hcount] at hquotes
      omega
    | cons c more =>
      obtain ⟨rfl, hmore⟩ := List.cons.inj hrest
      refine ⟨more, hbefore, hmore, ?_⟩
      rw [hbefore, List.count_cons_self, List.count_append, List.count_cons_self, hcount] at hquotes
      omega
  · rw [htext, List.count_append] at hcount
    rw [List.count_cons_self] at hquotes
    omega

-- A place in a group is in its interior or behind its closer.
theorem split_of_group_split {bracket : Bracket} {interior rest : Text}
    (h : bracket.opener :: interior ++ bracket.closer :: rest = bracket.opener :: before ++ after) :
    (∃ more, interior = before ++ more) ∨
      ∃ more, before = interior ++ bracket.closer :: more ∧ rest = more ++ after := by
  rcases List.append_eq_append_iff.mp (List.cons.inj h).2 with
    ⟨more, hbefore, hrest⟩ | ⟨more, hinterior, -⟩
  · cases more with
    | nil => exact .inl ⟨[], by rw [hbefore, List.append_nil, List.append_nil]⟩
    | cons c more =>
      obtain ⟨rfl, hmore⟩ := List.cons.inj hrest
      exact .inr ⟨more, hbefore, hmore⟩
  · exact .inl ⟨more, hinterior⟩

-- Every point of a text that lies outside quotations is a place on its level.
theorem exists_place {level : Bracketed} (hl : level.Legible)
    (hsplit : level.render = before ++ after) (hquotes : before.count '"' % 2 = 0) :
    ∃ (place : Place) (tail : Bracketed), place.fill tail = level ∧ place.before = before := by
  induction level generalizing before after with
  | nil =>
    obtain ⟨rfl, -⟩ := List.append_eq_nil_iff.mp hsplit.symm
    exact ⟨.here nil, nil, rfl, rfl⟩
  | char c rest ih =>
    cases before with
    | nil => exact ⟨.here nil, char c rest, rfl, rfl⟩
    | cons d before =>
      obtain ⟨rfl, hrest⟩ := List.cons.inj hsplit
      rw [List.count_cons_of_ne (ne_quote_of_notMem_marks hl.1)] at hquotes
      obtain ⟨place, tail, hfill, hbefore⟩ := ih hl.2 hrest hquotes
      refine ⟨place.behind (char c nil), tail, ?_, ?_⟩
      · rw [Place.fill_behind, hfill]
        rfl
      · rw [Place.before_behind, hbefore]
        rfl
  | quoted text rest ih =>
    cases before with
    | nil => exact ⟨.here nil, quoted text rest, rfl, rfl⟩
    | cons d before =>
      obtain rfl : '"' = d := (List.cons.inj hsplit).1
      obtain ⟨more, rfl, hrest, hmore⟩ := exists_of_quoted_split hl.1 hsplit hquotes
      obtain ⟨place, tail, hfill, hbefore⟩ := ih hl.2 hrest hmore
      refine ⟨place.behind (quoted text nil), tail, ?_, ?_⟩
      · rw [Place.fill_behind, hfill]
        rfl
      · rw [Place.before_behind, hbefore]
        simp [render]
  | group bracket interior rest ihi ihr =>
    cases before with
    | nil => exact ⟨.here nil, group bracket interior rest, rfl, rfl⟩
    | cons d before =>
      obtain rfl : bracket.opener = d := (List.cons.inj hsplit).1
      rw [List.count_cons_of_ne bracket.opener_ne_quote] at hquotes
      rcases split_of_group_split hsplit with ⟨more, hinterior⟩ | ⟨more, rfl, hrest⟩
      · obtain ⟨place, tail, hfill, hbefore⟩ := ihi hl.1 hinterior hquotes
        refine ⟨.inside nil bracket place rest, tail, ?_, ?_⟩
        · rw [Place.fill, hfill]
          rfl
        · rw [Place.before, hbefore]
          rfl
      · have hcount := even_count_quote_render hl.1
        rw [List.count_append, List.count_cons_of_ne bracket.closer_ne_quote] at hquotes
        obtain ⟨place, tail, hfill, hbefore⟩ := ihr hl.2 hrest (by omega)
        refine ⟨place.behind (group bracket interior nil), tail, ?_, ?_⟩
        · rw [Place.fill_behind, hfill]
          rfl
        · rw [Place.before_behind, hbefore]
          simp [render]

end Split

end Bracketed

end Coinage
