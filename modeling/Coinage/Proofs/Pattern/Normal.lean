import Coinage.Proofs.Pattern.Canonical
import Coinage.Proofs.Pattern.Letters

namespace Coinage

namespace Body

theorem Canonical.prepend {c : Char} (hc : IsPlain c) {body : Body} (h : body.Canonical) :
    (body.prepend c).Canonical := by
  have hsingle : ∀ d ∈ [c], IsPlain d := List.forall_mem_singleton.mpr hc
  cases body with
  | plain run rest =>
    obtain ⟨-, hrun, hrest⟩ := h
    exact ⟨List.cons_ne_nil c run, List.forall_mem_cons.mpr ⟨hc, hrun⟩, hrest⟩
  | nil | quoted text rest | letter shortcut rest | group bracket interior rest =>
    exact ⟨List.cons_ne_nil c [], hsingle, nofun, h⟩

theorem Canonical.dropDigits {body : Body} (h : body.Canonical) : body.dropDigits.Canonical := by
  cases body with
  | plain run rest =>
    obtain ⟨-, hrun, hmaximal, hrest⟩ := h
    simp only [Body.dropDigits]
    cases hd : run.dropWhile Char.isDigit with
    | nil => exact hrest
    | cons c more =>
      refine ⟨List.cons_ne_nil c more, fun d hm => hrun d ?_, hmaximal, hrest⟩
      rw [← hd] at hm
      exact (List.dropWhile_suffix Char.isDigit).subset hm
  | nil | quoted text rest | letter shortcut rest | group bracket interior rest => exact h

theorem isDigit_of_mem_leadingDigits {body : Body} : ∀ c ∈ body.leadingDigits, c.isDigit := by
  cases body with
  | plain run rest => exact List.all_eq_true.mp List.all_takeWhile
  | nil | quoted text rest | letter shortcut rest | group bracket interior rest => nofun

end Body

namespace Alternatives

structure Canonical (right : Alternatives) : Prop where
  body : right.body.Canonical
  suffix : ∀ digits, right.suffix = some digits → ∀ c ∈ digits, c.isDigit
  rest : right.rest.Canonical

theorem canonical_empty : empty.Canonical :=
  ⟨trivial, nofun, trivial⟩

theorem Canonical.close {right : Alternatives} (h : right.Canonical) : right.close.Canonical := by
  obtain ⟨body, suffix, rest⟩ := right
  obtain ⟨hbody, hsuffix, hrest⟩ := h
  cases suffix with
  | some digits =>
    cases body <;> exact ⟨nofun, hsuffix, hbody, hrest⟩
  | none =>
    cases body with
    | nil => exact hrest
    | plain _ _ | quoted _ _ | letter _ _ | group _ _ _ =>
      exact ⟨fun _ => nofun, hsuffix, hbody, hrest⟩

theorem Canonical.char {c : Char} (hc : c ∉ Bracketed.marks) {right : Alternatives}
    (h : right.Canonical) : (right.char c).Canonical := by
  unfold Alternatives.char
  by_cases hslash : c = '/'
  · rw [if_pos hslash]
    exact ⟨trivial, nofun, h.close⟩
  by_cases hstar : c = '*'
  · rw [if_neg hslash, if_pos hstar]
    refine ⟨trivial, ?_, Canonical.close ⟨h.body.dropDigits, h.suffix, h.rest⟩⟩
    rintro digits ⟨⟩
    exact Body.isDigit_of_mem_leadingDigits
  rw [if_neg hslash, if_neg hstar]
  cases ho : Shortcut.ofChar? c with
  | none => exact ⟨h.body.prepend ⟨hc, hslash, hstar, ho⟩, h.suffix, h.rest⟩
  | some shortcut => exact ⟨h.body, h.suffix, h.rest⟩

end Alternatives

namespace Bracketed

theorem canonical_alternatives {level : Bracketed} (h : level.Legible) :
    level.alternatives.Canonical := by
  induction level with
  | nil => exact Alternatives.canonical_empty
  | char c rest ih => exact (ih h.2).char h.1
  | quoted text rest ih => exact ⟨⟨h.1, (ih h.2).body⟩, (ih h.2).suffix, (ih h.2).rest⟩
  | group bracket interior rest ihi ihr =>
    exact ⟨⟨(ihi h.1).close, (ihr h.2).body⟩, (ihr h.2).suffix, (ihr h.2).rest⟩

-- What is read is in normal form.
theorem canonical_pattern {level : Bracketed} (h : level.Legible) : level.pattern.Canonical :=
  (canonical_alternatives h).close

end Bracketed

theorem Pattern.canonical_of_read {text : Text} {pattern : Pattern}
    (h : Pattern.read text = .ok pattern) : pattern.Canonical := by
  obtain ⟨level, hread, rfl⟩ := Pattern.read_eq_ok_iff.mp h
  exact Bracketed.canonical_pattern (Bracketed.read_eq_ok_iff.mp hread).1

end Coinage
