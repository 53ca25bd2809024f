import Coinage.Proofs.Bracketed.Reading

namespace Coinage

namespace Reader

open Bracketed

-- All that a step can do when it succeeds.
inductive Step : Reader → Char → Reader → Prop
  | char {position level groups c} (hc : c ∉ marks) :
      Step ⟨position, level, groups, none⟩ c
        ⟨position + c.utf8Size, .char c level, groups, none⟩
  | quote {position level groups} :
      Step ⟨position, level, groups, none⟩ '"'
        ⟨position + '"'.utf8Size, level, groups, some ⟨position, []⟩⟩
  | opener {position level groups} (bracket : Bracket) (hd : groups.length < depthLimit) :
      Step ⟨position, level, groups, none⟩ bracket.opener
        ⟨position + bracket.opener.utf8Size, .nil, ⟨bracket, position, level⟩ :: groups, none⟩
  | closer {position level offset before groups} (bracket : Bracket) :
      Step ⟨position, level, ⟨bracket, offset, before⟩ :: groups, none⟩ bracket.closer
        ⟨position + bracket.closer.utf8Size, .group bracket level.reverse before, groups, none⟩
  | quoted {position level groups offset text c} (hc : c ≠ '"') :
      Step ⟨position, level, groups, some ⟨offset, text⟩⟩ c
        ⟨position + c.utf8Size, level, groups, some ⟨offset, c :: text⟩⟩
  | unquote {position level groups offset text} :
      Step ⟨position, level, groups, some ⟨offset, text⟩⟩ '"'
        ⟨position + '"'.utf8Size, .quoted text.reverse level, groups, none⟩

-- All the reasons for which a step can fail.
inductive Refuses : Reader → Char → Flaw → Prop
  | tooDeep {position level groups} (bracket : Bracket) (hd : depthLimit ≤ groups.length) :
      Refuses ⟨position, level, groups, none⟩ bracket.opener .tooDeep
  | strayCloser {position level} (bracket : Bracket) :
      Refuses ⟨position, level, [], none⟩ bracket.closer (.strayCloser bracket)
  | wrongCloser {position level group groups} (bracket : Bracket) (hb : group.bracket ≠ bracket) :
      Refuses ⟨position, level, group :: groups, none⟩ bracket.closer
        (.wrongCloser group.bracket bracket)

-- A step either succeeds in one of the first ways or fails for one of the
-- second reasons, and then reports the offset it has reached.
theorem step_spec (reader : Reader) (c : Char) :
    (∃ next, reader.step c = .ok next ∧ Step reader c next) ∨
      ∃ flaw, reader.step c = .error ⟨reader.position, flaw⟩ ∧ Refuses reader c flaw := by
  obtain ⟨position, level, groups, quote⟩ := reader
  cases quote with
  | some quote =>
    left
    by_cases hc : c = '"'
    · subst hc
      exact ⟨_, step_unquote _ _ _ _ _, .unquote⟩
    · exact ⟨_, step_quoted _ _ _ _ _ hc, .quoted hc⟩
  | none =>
    by_cases hq : c = '"'
    · subst hq
      exact .inl ⟨_, step_quote _ _ _, .quote⟩
    cases ho : Bracket.ofOpener? c with
    | some bracket =>
      rw [Bracket.eq_opener_of_ofOpener? ho]
      by_cases hd : groups.length < depthLimit
      · exact .inl ⟨_, step_opener _ _ _ bracket hd, .opener bracket hd⟩
      · refine .inr ⟨.tooDeep, ?_, .tooDeep bracket (by omega)⟩
        simp [step, readOpen, openGroup, hd, Except.map]
    | none =>
      cases hc : Bracket.ofCloser? c with
      | none =>
        have hm := notMem_marks hq ho hc
        exact .inl ⟨_, step_char _ _ _ hm, .char hm⟩
      | some bracket =>
        rw [Bracket.eq_closer_of_ofCloser? hc]
        cases groups with
        | nil =>
          refine .inr ⟨_, ?_, .strayCloser bracket⟩
          simp [step, readOpen, closeGroup, Except.map]
        | cons group groups =>
          by_cases hb : group.bracket = bracket
          · subst hb
            exact .inl ⟨_, step_closer _ _ _ _ _ _, .closer _⟩
          · refine .inr ⟨_, ?_, .wrongCloser bracket hb⟩
            simp [step, readOpen, closeGroup, hb, Except.map]

theorem step_of_eq_ok {reader next : Reader} {c : Char} (h : reader.step c = .ok next) :
    Step reader c next := by
  rcases step_spec reader c with ⟨other, hs, hstep⟩ | ⟨flaw, hs, _⟩
  · rw [h] at hs
    cases hs
    exact hstep
  · rw [h] at hs
    cases hs

theorem refuses_of_eq_error {reader : Reader} {c : Char} {malformation : Malformation}
    (h : reader.step c = .error malformation) :
    malformation.position = reader.position ∧ Refuses reader c malformation.flaw := by
  rcases step_spec reader c with ⟨next, hs, _⟩ | ⟨flaw, hs, hrefuses⟩
  · rw [h] at hs
    cases hs
  · rw [h] at hs
    cases hs
    exact ⟨rfl, hrefuses⟩

-- The text up to the opener of the innermost open group.
def openText : List OpenGroup → Text
  | [] => []
  | inner :: groups => openText groups ++ inner.before.reverse.render ++ [inner.bracket.opener]

-- The text of the open quotation.
def quoteText : Option OpenQuote → Text
  | none => []
  | some quote => '"' :: quote.text.reverse

-- The open groups hold what stood before their openers, and the offsets of
-- these.
def GroupsFollow : List OpenGroup → Prop
  | [] => True
  | inner :: groups =>
    inner.position = (openText groups ++ inner.before.reverse.render).utf8Length ∧
      inner.before.Legible ∧ inner.before.depth + groups.length ≤ depthLimit ∧
      groups.length < depthLimit ∧ GroupsFollow groups

def QuoteFollows (before : Text) : Option OpenQuote → Prop
  | none => True
  | some quote => quote.position = before.utf8Length ∧ '"' ∉ quote.text

-- The reader knows what there is to know about the text that it has read.
structure Follows (reader : Reader) (text : Text) : Prop where
  text_eq : text =
    openText reader.groups ++ reader.level.reverse.render ++ quoteText reader.quote
  position_eq : reader.position = text.utf8Length
  legible : reader.level.Legible
  depth_le : reader.level.depth + reader.groups.length ≤ depthLimit
  groups : GroupsFollow reader.groups
  quote : QuoteFollows (openText reader.groups ++ reader.level.reverse.render) reader.quote

theorem start_follows : Follows start [] where
  text_eq := rfl
  position_eq := rfl
  legible := trivial
  depth_le := Nat.zero_le _
  groups := trivial
  quote := trivial

theorem Step.position_eq {reader next : Reader} {c : Char} (h : Step reader c next) :
    next.position = reader.position + c.utf8Size := by
  cases h <;> rfl

theorem Step.follows {reader next : Reader} {c : Char} (h : Step reader c next) {text : Text}
    (hf : Follows reader text) : Follows next (text ++ [c]) := by
  have hposition : next.position = Text.utf8Length (text ++ [c]) := by
    rw [h.position_eq, hf.position_eq]
    simp
  obtain ⟨rfl, hp, hl, hd, hg, hq⟩ := hf
  cases h with
  | char hc => exact ⟨by simp [quoteText], hposition, ⟨hc, hl⟩, hd, hg, trivial⟩
  | quote =>
    have hoffset : QuoteFollows _ (some ⟨_, []⟩) := ⟨hp, by simp⟩
    exact ⟨by simp [quoteText], hposition, hl, hd, hg, by simpa [quoteText] using hoffset⟩
  | opener bracket hopen =>
    refine ⟨?_, hposition, trivial, ?_, ⟨?_, hl, hd, hopen, hg⟩, trivial⟩
    · simp [openText, quoteText, reverse, reverseOnto, Bracketed.render]
    · simp only [Bracketed.depth, List.length_cons]
      omega
    · simpa [quoteText] using hp
  | closer bracket =>
    obtain ⟨-, hlb, hdb, -, hgs⟩ := hg
    refine ⟨by simp [openText, quoteText], hposition, ⟨hl.reverse, hlb⟩, ?_, hgs, trivial⟩
    simp only [Bracketed.depth, depth_reverse, List.length_cons] at hd hdb ⊢
    omega
  | quoted hc =>
    refine ⟨by simp [quoteText], hposition, hl, hd, hg, hq.1, ?_⟩
    simpa [Ne.symm hc] using hq.2
  | unquote =>
    exact ⟨by simp [quoteText], hposition, ⟨by simpa using hq.2, hl⟩, hd, hg, trivial⟩

theorem follows_run {text : Text} {reader next : Reader} (h : reader.run text = .ok next)
    {before : Text} (hf : Follows reader before) : Follows next (before ++ text) := by
  induction text generalizing reader before with
  | nil =>
    cases h
    simpa using hf
  | cons c text ih =>
    cases hs : reader.step c with
    | error malformation =>
      rw [run_cons_of_error hs] at h
      cases h
    | ok middle =>
      rw [run_cons_of_ok hs] at h
      simpa using ih h ((step_of_eq_ok hs).follows hf)

-- Every reader that is reached follows its text.
theorem follows_of_run {text : Text} {reader : Reader} (h : start.run text = .ok reader) :
    Follows reader text :=
  follows_run h start_follows

end Reader

namespace Bracketed

theorem read_of_run {text : Text} {reader : Reader} (h : Reader.start.run text = .ok reader) :
    read text = reader.finish := by
  simp only [Reader.run] at h
  simp only [read, h]
  rfl

theorem read_of_run_error {text : Text} {malformation : Malformation}
    (h : Reader.start.run text = .error malformation) : read text = .error malformation := by
  simp only [Reader.run] at h
  simp only [read, h]
  rfl

theorem read_render {level : Bracketed} (hl : level.Legible) (hd : level.depth ≤ depthLimit) :
    read level.render = .ok level := by
  have h := Reader.run_render 0 .nil [] hl (by simpa using hd)
  rw [read_of_run h]
  exact congrArg Except.ok level.reverse_reverse

-- Reading gives the one legible level that renders as the text, as long as the
-- groups do not nest too deep.
theorem read_eq_ok_iff {text : Text} {level : Bracketed} :
    read text = .ok level ↔
      level.Legible ∧ level.depth ≤ depthLimit ∧ level.render = text := by
  constructor
  · intro h
    cases hr : Reader.start.run text with
    | error malformation =>
      rw [read_of_run_error hr] at h
      cases h
    | ok reader =>
      rw [read_of_run hr] at h
      obtain ⟨ht, -, hl, hd, -, -⟩ := Reader.follows_of_run hr
      obtain ⟨position, items, groups, quote⟩ := reader
      cases quote with
      | some quote => cases h
      | none =>
        cases groups with
        | cons group groups => cases h
        | nil =>
          cases h
          refine ⟨hl.reverse, by simpa using hd, ?_⟩
          simpa [Reader.openText, Reader.quoteText] using ht.symm
  · rintro ⟨hl, hd, rfl⟩
    exact read_render hl hd

theorem exists_read_eq_ok_iff {text : Text} :
    (∃ level, read text = .ok level) ↔ Matched depthLimit text := by
  rw [matched_iff]
  constructor
  · rintro ⟨level, h⟩
    exact ⟨level, read_eq_ok_iff.mp h⟩
  · rintro ⟨level, h⟩
    exact ⟨level, read_eq_ok_iff.mpr h⟩

end Bracketed

end Coinage
