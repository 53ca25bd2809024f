import Coinage.Proofs.Recipe.Proper

namespace Coinage

open Bracketed

namespace Text

-- The characters of the rest of a text that stand outside quotations.
def unquotedFrom (quoted : Bool) : Text → Text
  | [] => []
  | c :: rest =>
    if c = '"' then
      unquotedFrom (!quoted) rest
    else
      (if quoted then [] else [c]) ++ unquotedFrom quoted rest

def unquoted (text : Text) : Text :=
  unquotedFrom false text

theorem unquotedFrom_quoted {text : Text} (ht : '"' ∉ text) (rest : Text) :
    unquotedFrom true (text ++ '"' :: rest) = unquotedFrom false rest := by
  induction text with
  | nil => simp [unquotedFrom]
  | cons c text ih =>
    simp only [List.mem_cons, not_or] at ht
    simp [unquotedFrom, Ne.symm ht.1, ih ht.2]

end Text

namespace Bracketed

def unquoted : Bracketed → Text
  | nil => []
  | char c rest => c :: rest.unquoted
  | quoted _ rest => rest.unquoted
  | group bracket interior rest =>
    bracket.opener :: interior.unquoted ++ bracket.closer :: rest.unquoted

theorem unquotedFrom_render {level : Bracketed} (hl : level.Legible) (rest : Text) :
    Text.unquotedFrom false (level.render ++ rest) =
      level.unquoted ++ Text.unquotedFrom false rest := by
  induction level generalizing rest with
  | nil => rfl
  | char c more ih =>
    simp [render, unquoted, Text.unquotedFrom, ne_quote_of_notMem_marks hl.1, ih hl.2]
  | quoted text more ih =>
    have hq := Text.unquotedFrom_quoted hl.1 (more.render ++ rest)
    simp [render, unquoted, Text.unquotedFrom, hq, ih hl.2]
  | group bracket interior more ihi ihr =>
    have hi := ihi hl.1 (bracket.closer :: (more.render ++ rest))
    simp [render, unquoted, Text.unquotedFrom, hi, ihr hl.2]

theorem unquoted_render {level : Bracketed} (hl : level.Legible) :
    level.render.unquoted = level.unquoted := by
  have h := unquotedFrom_render hl []
  simpa [Text.unquoted, Text.unquotedFrom] using h

end Bracketed

-- Whether a character outside quotations can bring in a choice: it opens an optional
-- group, separates alternatives, states a weight or refers to a subpattern.
def OffersChoice (c : Char) : Prop :=
  c = '(' ∨ c = '/' ∨ c = '*' ∨ (Shortcut.ofChar? c).isSome

instance : DecidablePred OffersChoice :=
  fun _ => inferInstanceAs (Decidable (_ ∨ _))

namespace Recipe

-- A recipe that is no choice.
def Fixed : Recipe → Prop
  | uniform _ => False
  | weighted _ _ => False
  | _ => True

theorem everywhere_fixed_ofParts {parts : List Recipe} (h : EverywhereIn Fixed parts) :
    (ofParts parts).Everywhere Fixed :=
  everywhere_ofParts_of h trivial fun _ => trivial

section Sample

variable {σ : Type} [Source σ]

mutual

-- Without a choice the source is not called.
theorem appendTo_of_fixed (buffer : Array Char) (source : σ) :
    (recipe : Recipe) → recipe.Everywhere Fixed → (recipe.appendTo buffer source).2 = source
  | literal _, _ => rfl
  | sequence parts, h => appendAll_of_fixed buffer source parts h.2
  | uniform _, h => h.1.elim
  | weighted _ _, h => h.1.elim

theorem appendAll_of_fixed (buffer : Array Char) (source : σ) :
    (parts : List Recipe) → EverywhereIn Fixed parts → (appendAll buffer source parts).2 = source
  | [], _ => rfl
  | part :: parts, h => by
    have hpart := appendTo_of_fixed buffer source part h.1
    rw [appendAll, appendAll_of_fixed _ _ parts h.2, hpart]

end

end Sample

end Recipe

namespace Bracketed

variable {find : Shortcut → Recipe}

-- A level without any such character has at most one alternative, without a weight and
-- without a choice in it.
structure Unbranched (find : Shortcut → Recipe) (right : Alternatives) : Prop where
  suffix : right.suffix = none
  rest : right.rest = .nil
  fixed : Recipe.EverywhereIn Recipe.Fixed (right.body.trees find)

theorem Unbranched.everywhere_fixed {right : Alternatives} (h : Unbranched find right) :
    (Recipe.choice false right.close.suffixes (right.close.trees find)).Everywhere Recipe.Fixed := by
  obtain ⟨body, suffix, rest⟩ := right
  obtain ⟨rfl, rfl, hfixed⟩ := h
  cases body with
  | nil => trivial
  | plain _ _ | quoted _ _ | letter _ _ | group _ _ _ =>
    exact Recipe.everywhere_fixed_ofParts hfixed

theorem Unbranched.char {right : Alternatives} (h : Unbranched find right) {c : Char}
    (hc : ¬OffersChoice c) : Unbranched find (right.char c) := by
  obtain ⟨hround, hslash, hstar, hletter⟩ := by simpa [OffersChoice] using hc
  rw [Alternatives.char, if_neg hslash, if_neg hstar, hletter]
  refine ⟨h.suffix, h.rest, ?_⟩
  have hfixed := h.fixed
  cases hbody : right.body with
  | plain run rest =>
    rw [hbody] at hfixed
    exact ⟨trivial, hfixed.2⟩
  | nil | quoted _ _ | letter _ _ | group _ _ _ =>
    rw [hbody] at hfixed
    exact ⟨trivial, hfixed⟩

theorem unbranched_alternatives {level : Bracketed} (h : ∀ c ∈ level.unquoted, ¬OffersChoice c) :
    Unbranched find level.alternatives := by
  induction level with
  | nil => exact ⟨rfl, rfl, trivial⟩
  | char c rest ih =>
    obtain ⟨hc, hrest⟩ := List.forall_mem_cons.mp h
    exact (ih hrest).char hc
  | quoted text rest ih =>
    have hrest := ih h
    exact ⟨hrest.suffix, hrest.rest, trivial, hrest.fixed⟩
  | group bracket interior rest ihi ihr =>
    simp only [unquoted, List.cons_append, List.forall_mem_cons, List.forall_mem_append] at h
    obtain ⟨hopener, hinterior, -, hrest⟩ := h
    have hrest := ihr hrest
    have hinside := (ihi hinterior).everywhere_fixed
    cases bracket with
    | square => exact ⟨hrest.suffix, hrest.rest, hinside, hrest.fixed⟩
    | round => exact absurd (.inl rfl) hopener

end Bracketed

-- A text without any character that offers a choice is compiled to none.
theorem Recipe.everywhere_fixed_compile {context : Context} {text : Text}
    (hsize : text.utf8Length < sizeLimit) (htext : ∀ c ∈ text.unquoted, ¬OffersChoice c)
    {recipe : Recipe} (h : (compile context text).result = .ok recipe) :
    recipe.Everywhere Fixed := by
  obtain ⟨level, hlevel, -⟩ := compile_eq_ok h
  have hread : Pattern.read text = .ok level.pattern :=
    Pattern.read_eq_ok_iff.mpr ⟨level, hlevel, rfl⟩
  obtain ⟨hl, -, rfl⟩ := read_eq_ok_iff.mp hlevel
  rw [unquoted_render hl] at htext
  rw [result_compile_of_ok hread hsize] at h
  rw [Context.eq_of_resolve_eq_ok h]
  exact (unbranched_alternatives htext).everywhere_fixed

end Coinage
