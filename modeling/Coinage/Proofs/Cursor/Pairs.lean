import Coinage.Proofs.Bracketed.Place
import Coinage.Proofs.Cursor.Compile
import Coinage.Proofs.Pattern.Expansion

namespace Coinage

namespace Bracketed

theorem Listed.of_fill {closers : Closers} {place : Place} {tail : Bracketed} {offset : Nat}
    (h : Listed closers offset (place.fill tail)) :
    Listed closers (offset + place.before.utf8Length) tail := by
  induction place generalizing offset with
  | here left => exact (listed_append.mp h).2
  | inside left bracket place right ih =>
    have hinside := ih (listed_append.mp h).2.2.1
    rw [Place.before, Text.utf8Length_append, Text.utf8Length_cons, ← Nat.add_assoc,
      ← Nat.add_assoc]
    exact hinside

section Lookup

variable {level interior rest : Bracketed} {bracket : Bracket} {offset key target : Nat}

-- A closer that is noted for a level with a group in front belongs to the group, to
-- its interior or to the rest.
theorem lookup_closers_group
    (h : ((group bracket interior rest).closers offset).lookup key = some target) :
    (key = offset ∧ target = offset + bracket.opener.utf8Size + interior.render.utf8Length) ∨
      (interior.closers (offset + bracket.opener.utf8Size)).lookup key = some target ∨
      (rest.closers (offset + bracket.opener.utf8Size + interior.render.utf8Length +
        bracket.closer.utf8Size)).lookup key = some target := by
  rw [closers, List.lookup_append, Option.or_eq_some_iff, List.lookup_cons] at h
  rcases h with hrest | ⟨-, h⟩
  · exact .inr (.inr hrest)
  · by_cases hkey : key = offset
    · subst hkey
      rw [beq_self_eq_true] at h
      exact .inl ⟨rfl, (Option.some.inj h).symm⟩
    · rw [beq_false_of_ne hkey] at h
      exact .inr (.inl h)

theorem exists_place_of_lookup (h : (level.closers offset).lookup key = some target) :
    ∃ (place : Place) (bracket : Bracket) (interior rest : Bracketed),
      place.fill (group bracket interior rest) = level ∧
        key = offset + place.before.utf8Length ∧
        target = key + bracket.opener.utf8Size + interior.render.utf8Length := by
  induction level generalizing offset with
  | nil => cases h
  | char c more ih =>
    obtain ⟨place, bracket, interior, rest, rfl, hkey, htarget⟩ := ih h
    refine ⟨place.behind (char c nil), bracket, interior, rest, Place.fill_behind _ _ _, ?_, htarget⟩
    rw [hkey, Place.before_behind]
    simp [render, Nat.add_assoc]
  | quoted text more ih =>
    obtain ⟨place, bracket, interior, rest, rfl, hkey, htarget⟩ := ih h
    refine ⟨place.behind (quoted text nil), bracket, interior, rest, Place.fill_behind _ _ _, ?_,
      htarget⟩
    rw [hkey, Place.before_behind]
    simp [render, Nat.add_assoc]
  | group outer inside more ihi ihr =>
    rcases lookup_closers_group h with ⟨rfl, htarget⟩ | hinside | hmore
    · exact ⟨.here nil, outer, inside, more, rfl, rfl, htarget⟩
    · obtain ⟨place, bracket, interior, rest, rfl, hkey, htarget⟩ := ihi hinside
      refine ⟨.inside nil outer place more, bracket, interior, rest, rfl, ?_, htarget⟩
      rw [hkey, Place.before]
      simp [render, Nat.add_assoc]
    · obtain ⟨place, bracket, interior, rest, rfl, hkey, htarget⟩ := ihr hmore
      refine ⟨place.behind (group outer inside nil), bracket, interior, rest,
        Place.fill_behind _ _ _, ?_, htarget⟩
      rw [hkey, Place.before_behind]
      simp [render, Nat.add_assoc]

-- The closers of a level are those of its groups, at whatever depth.
theorem lookup_closers_iff :
    (level.closers offset).lookup key = some target ↔
      ∃ (place : Place) (bracket : Bracket) (interior rest : Bracketed),
        place.fill (group bracket interior rest) = level ∧
          key = offset + place.before.utf8Length ∧
          target = key + bracket.opener.utf8Size + interior.render.utf8Length := by
  constructor
  · exact exists_place_of_lookup
  · rintro ⟨place, bracket, interior, rest, rfl, rfl, rfl⟩
    have hlisted := listed_closers (place.fill (group bracket interior rest)) offset
    exact hlisted.of_fill.1

-- A level that begins elsewhere has the same closers, moved.
theorem lookup_closers_add (shift : Nat) :
    (level.closers (shift + offset)).lookup (shift + key) = some (shift + target) ↔
      (level.closers offset).lookup key = some target := by
  simp only [lookup_closers_iff, Nat.add_assoc, Nat.add_left_cancel_iff]

theorem bounds_of_lookup (h : (level.closers offset).lookup key = some target) :
    offset ≤ key ∧ key < target ∧ target < offset + level.render.utf8Length := by
  obtain ⟨place, bracket, interior, rest, rfl, rfl, rfl⟩ := exists_place_of_lookup h
  have hopener := Char.utf8Size_pos bracket.opener
  have hcloser := Char.utf8Size_pos bracket.closer
  rw [Place.render_fill]
  simp only [render, Text.utf8Length_append, Text.utf8Length_cons]
  omega

-- Of two groups, one ends before the other begins, or one lies inside the other.
theorem nested_or_disjoint {first firstEnd second secondEnd : Nat}
    (hfirst : (level.closers offset).lookup first = some firstEnd)
    (hsecond : (level.closers offset).lookup second = some secondEnd) :
    first = second ∨ firstEnd < second ∨ secondEnd < first ∨
      (first < second ∧ secondEnd < firstEnd) ∨ (second < first ∧ firstEnd < secondEnd) := by
  induction level generalizing offset with
  | nil => cases hfirst
  | char c rest ih => exact ih hfirst hsecond
  | quoted text rest ih => exact ih hfirst hsecond
  | group bracket interior rest ihi ihr =>
    have hopener := Char.utf8Size_pos bracket.opener
    have hcloser := Char.utf8Size_pos bracket.closer
    rcases lookup_closers_group hfirst with ⟨rfl, rfl⟩ | hf | hf
    · rcases lookup_closers_group hsecond with ⟨rfl, rfl⟩ | hs | hs
      · exact .inl rfl
      · have hbounds := bounds_of_lookup hs
        omega
      · have hbounds := bounds_of_lookup hs
        omega
    · have hf' := bounds_of_lookup hf
      rcases lookup_closers_group hsecond with ⟨rfl, rfl⟩ | hs | hs
      · omega
      · exact ihi hf hs
      · have hbounds := bounds_of_lookup hs
        omega
    · have hf' := bounds_of_lookup hf
      rcases lookup_closers_group hsecond with ⟨rfl, rfl⟩ | hs | hs
      · omega
      · have hbounds := bounds_of_lookup hs
        omega
      · exact ihr hf hs

theorem closers_append (first second : Bracketed) (offset : Nat) :
    (first.append second).closers offset =
      second.closers (offset + first.render.utf8Length) ++ first.closers offset := by
  induction first generalizing offset with
  | nil => simp [append, closers, render]
  | char c rest ih => simp [append, closers, render, ih, Nat.add_assoc]
  | quoted text rest ih => simp [append, closers, render, ih, Nat.add_assoc]
  | group bracket interior rest _ ih => simp [append, closers, render, ih, Nat.add_assoc]

-- In the range of a group no other closers are noted than those of its interior.
theorem lookup_closers_append_group {left right : Bracketed} {start : Nat}
    (hstart : start = offset + left.render.utf8Length + bracket.opener.utf8Size)
    (hlow : start ≤ key) (hhigh : key < start + interior.render.utf8Length) :
    ((left.append (group bracket interior right)).closers offset).lookup key =
      (interior.closers start).lookup key := by
  subst hstart
  have hopener := Char.utf8Size_pos bracket.opener
  have hne : (key == offset + left.render.utf8Length) = false := beq_false_of_ne (by omega)
  have hleft : (left.closers offset).lookup key = none :=
    lookup_closers_eq_none (.inr (by omega))
  rw [closers_append, List.lookup_append, hleft, Option.or_none, closers, List.lookup_append,
    lookup_closers_eq_none (.inl (by omega)), Option.none_or, List.lookup_cons, hne]

theorem lookup_closers_fill {place : Place} {start : Nat}
    (hstart : start = offset + place.before.utf8Length + bracket.opener.utf8Size)
    (hlow : start ≤ key) (hhigh : key < start + interior.render.utf8Length) :
    ((place.fill (group bracket interior rest)).closers offset).lookup key =
      (interior.closers start).lookup key := by
  induction place generalizing offset with
  | here left => exact lookup_closers_append_group hstart hlow hhigh
  | inside left outer place right ih =>
    rw [Place.before, Text.utf8Length_append, Text.utf8Length_cons] at hstart
    have hplace : start = offset + left.render.utf8Length + outer.opener.utf8Size +
        place.before.utf8Length + bracket.opener.utf8Size := by omega
    rw [← ih hplace, Place.fill]
    apply lookup_closers_append_group rfl
    · omega
    · rw [Place.render_fill]
      simp only [render, Text.utf8Length_append, Text.utf8Length_cons]
      omega

end Lookup

end Bracketed

namespace Closers

-- What it means that a table pairs the brackets of a text.
structure Pairs (text : Text) (closers : Closers) : Prop where
  -- The table knows the openers outside quotations and nothing else.
  keys : ∀ key, (closers.lookup key).isSome ↔ ∃ before bracket after,
    text = before ++ Bracket.opener bracket :: after ∧ before.count '"' % 2 = 0 ∧
      key = before.utf8Length
  -- Each is led to a closer of its kind further on, also outside quotations. What stands
  -- between is matched, nests less deep, and has a table of its own, which says the same.
  groups : ∀ key target, closers.lookup key = some target → key < target ∧
    ∃ (before interior after : Text) (bracket : Bracket) (inner : Closers),
      text = before ++ bracket.opener :: (interior ++ bracket.closer :: after) ∧
      key = before.utf8Length ∧ before.count '"' % 2 = 0 ∧
      target = Text.utf8Length (before ++ bracket.opener :: interior) ∧
      (before ++ bracket.opener :: interior).count '"' % 2 = 0 ∧
      interior.nesting + 1 ≤ text.nesting ∧
      build interior = .ok inner ∧
      ∀ offset closer, inner.lookup offset = some closer ↔
        offset < interior.utf8Length ∧
          closers.lookup (Text.utf8Length (before ++ [bracket.opener]) + offset) =
            some (Text.utf8Length (before ++ [bracket.opener]) + closer)
  -- No two groups cross.
  laminar : ∀ first firstEnd second secondEnd, closers.lookup first = some firstEnd →
    closers.lookup second = some secondEnd →
      first = second ∨ firstEnd < second ∨ secondEnd < first ∨
        (first < second ∧ secondEnd < firstEnd) ∨ (second < first ∧ firstEnd < secondEnd)

open Bracketed

section Level

variable {level : Bracketed}

theorem isSome_lookup_closers_iff (hl : level.Legible) (key : Nat) :
    ((level.closers 0).lookup key).isSome ↔ ∃ before bracket after,
      level.render = before ++ Bracket.opener bracket :: after ∧ before.count '"' % 2 = 0 ∧
        key = before.utf8Length := by
  constructor
  · intro h
    obtain ⟨target, htarget⟩ := Option.isSome_iff_exists.mp h
    obtain ⟨place, bracket, interior, rest, rfl, hkey, -⟩ := lookup_closers_iff.mp htarget
    refine ⟨place.before, bracket, _, place.render_fill _, place.even_count_quote_before hl, ?_⟩
    rw [hkey, Nat.zero_add]
  · rintro ⟨before, bracket, after, htext, hquotes, rfl⟩
    obtain ⟨place, tail, rfl, rfl⟩ := exists_place hl htext hquotes
    rw [Place.render_fill, List.append_cancel_left_eq] at htext
    obtain ⟨interior, rest, rfl, -⟩ :=
      exists_group_of_render (Place.Legible.of_fill hl) place.ends_closing htext
    have hlookup : ((place.fill (group bracket interior rest)).closers 0).lookup
        place.before.utf8Length =
          some (place.before.utf8Length + bracket.opener.utf8Size + interior.render.utf8Length) :=
      lookup_closers_iff.mpr ⟨place, bracket, interior, rest, rfl, (Nat.zero_add _).symm, rfl⟩
    rw [hlookup]
    rfl

-- The table of an interior is the part of the whole table that lies in it.
theorem lookup_interior_iff {place : Place} {bracket : Bracket} {interior rest : Bracketed}
    {start : Nat} (hstart : start = place.before.utf8Length + bracket.opener.utf8Size)
    (offset closer : Nat) :
    (interior.closers 0).lookup offset = some closer ↔
      offset < interior.render.utf8Length ∧
        ((place.fill (group bracket interior rest)).closers 0).lookup (start + offset) =
          some (start + closer) := by
  have hsame : offset < interior.render.utf8Length →
      ((place.fill (group bracket interior rest)).closers 0).lookup (start + offset) =
        (interior.closers start).lookup (start + offset) := by
    intro hoffset
    apply lookup_closers_fill
    · rw [hstart, Nat.zero_add]
    · omega
    · omega
  constructor
  · intro h
    have hbounds := bounds_of_lookup h
    have hoffset : offset < interior.render.utf8Length := by omega
    exact ⟨hoffset, (hsame hoffset).trans ((lookup_closers_add start).mpr h)⟩
  · rintro ⟨hoffset, h⟩
    exact (lookup_closers_add start).mp ((hsame hoffset).symm.trans h)

end Level

-- The closers that are noted for a text pair its brackets.
theorem pairs_of_build {text : Text} {closers : Closers} (h : build text = .ok closers) :
    closers.Pairs text := by
  obtain ⟨level, hread, rfl⟩ := exists_level_of_build h
  obtain ⟨hl, hdepth, rfl⟩ := read_eq_ok_iff.mp hread
  refine ⟨isSome_lookup_closers_iff hl, ?_, fun _ _ _ _ => nested_or_disjoint⟩
  intro key target hlookup
  obtain ⟨-, hlt, -⟩ := bounds_of_lookup hlookup
  obtain ⟨place, bracket, interior, rest, rfl, rfl, rfl⟩ := lookup_closers_iff.mp hlookup
  have hquotes := place.even_count_quote_before hl
  obtain ⟨hinterior, -⟩ := Place.Legible.of_fill hl
  have hinside := even_count_quote_render hinterior
  have hnested : interior.depth + 1 ≤ (place.fill (group bracket interior rest)).depth :=
    (Nat.le_max_left _ _).trans (place.depth_le_depth_fill (group bracket interior rest))
  have hbuild : build interior.render = .ok (interior.closers 0) :=
    build_render hinterior (by omega)
  refine ⟨hlt, place.before, interior.render, rest.render ++ place.closing, bracket, _, ?_, ?_,
    hquotes, ?_, ?_, ?_, hbuild, lookup_interior_iff ?_⟩
  · rw [Place.render_fill]
    simp [render]
  · exact Nat.zero_add _
  · simp [Nat.add_assoc]
  · rw [List.count_append, List.count_cons_of_ne bracket.opener_ne_quote]
    omega
  · rw [nesting_render hinterior, nesting_render hl]
    exact hnested
  · simp

theorem pairs_of_build_nested :
    build "[(\"]\"é)ö]b(c)".toList = .ok [(12, 14), (0, 10), (1, 7)] ∧
      Pairs "[(\"]\"é)ö]b(c)".toList [(12, 14), (0, 10), (1, 7)] := by
  have hbuild : build "[(\"]\"é)ö]b(c)".toList = .ok [(12, 14), (0, 10), (1, 7)] := by
    rw [build_eq]
    rfl
  exact ⟨hbuild, pairs_of_build hbuild⟩

end Closers

end Coinage
