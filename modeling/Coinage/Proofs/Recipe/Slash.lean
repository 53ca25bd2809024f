import Coinage.Proofs.Pattern.Slash
import Coinage.Proofs.Recipe.Outcome

namespace Coinage

open Bracketed

namespace Recipe

-- A slash that has nothing to part changes neither what a text is compiled to nor
-- what is noted on the way, whatever the text may refer to.
theorem compile_slash (context : Context) {before after : Text}
    (h : (before ++ after).WellFormed) (hquotes : before.count '"' % 2 = 0)
    (hidle : Text.Idle before after) :
    (before ++ '/' :: after).WellFormed ∧
      compile context (before ++ '/' :: after) = compile context (before ++ after) := by
  obtain ⟨level, hread⟩ := h
  obtain ⟨hlegible, hdepth, hsplit⟩ := Bracketed.read_eq_ok_iff.mp hread
  obtain ⟨other, hother, hsame, hrender, hpattern⟩ := exists_slashed hlegible hsplit hquotes hidle
  have hslashed : Bracketed.read (before ++ '/' :: after) = .ok other :=
    Bracketed.read_eq_ok_iff.mpr ⟨hother, hsame ▸ hdepth, hrender⟩
  have hbare : Pattern.read (before ++ after) = .ok level.pattern :=
    Pattern.read_eq_ok_iff.mpr ⟨level, hread, rfl⟩
  have hparted : Pattern.read (before ++ '/' :: after) = .ok level.pattern :=
    Pattern.read_eq_ok_iff.mpr ⟨other, hslashed, hpattern⟩
  exact ⟨⟨other, hslashed⟩, by rw [compile, hparted, compile, hbare]⟩

-- Behind a weight in a group, between a quoted slash and a letter.
theorem compile_slash_behind_weight :
    Text.WellFormed "(a\"/\"*12[B])".toList ∧ "(a\"/\"*12".toList.count '"' % 2 = 0 ∧
      Text.Idle "(a\"/\"*12".toList "[B])".toList ∧
      compile ⟨.empty, .main⟩ "(a\"/\"*12/[B])".toList =
        compile ⟨.empty, .main⟩ "(a\"/\"*12[B])".toList := by
  have h : Text.WellFormed ("(a\"/\"*12".toList ++ "[B])".toList) := ⟨_, rfl⟩
  have hdigits : ∀ c ∈ "12".toList, c.isDigit = true := List.all_eq_true.mp rfl
  have hcomplete : ∀ c ∈ "[B])".toList.head?, c.isDigit = false := by
    rintro _ ⟨⟩
    rfl
  have hweight : "(a\"/\"".toList ++ '*' :: "12".toList = "(a\"/\"*12".toList := by decide
  have hidle : Text.Idle "(a\"/\"*12".toList "[B])".toList := by
    rw [← hweight]
    exact .behindWeight hdigits hcomplete
  exact ⟨h, by decide, hidle, (compile_slash ⟨.empty, .main⟩ h (by decide) hidle).2⟩

example : Pattern.read "(/a//b/)".toList = Pattern.read "(a/b)".toList := rfl

end Recipe

end Coinage
