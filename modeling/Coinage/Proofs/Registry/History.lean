import Coinage.Proofs.Registry.Compile

namespace Coinage

namespace Registry

theorem run_define_of_letter {c : Char} (h : (Shortcut.ofChar? c).isSome) (text : Text)
    (registry : Registry) :
    (define c text).run registry = (.ok (), (registry.remove c).put c text) := by
  obtain ⟨shortcut, hs⟩ := Option.isSome_iff_exists.mp h
  simp only [define, hs]
  rfl

-- Nothing is removed before the letter is known to be one.
theorem run_define_of_none {c : Char} (h : Shortcut.ofChar? c = none) (text : Text)
    (registry : Registry) :
    (define c text).run registry = (.error (.invalidShortcut c), registry) := by
  simp only [define, h]
  rfl

theorem extend_of_letter {c : Char} (h : (Shortcut.ofChar? c).isSome) (text : Text)
    (registry : Registry) : registry.extend c text = .ok ((registry.remove c).put c text) := by
  rw [extend, run_define_of_letter h]

theorem extend_of_none {c : Char} (h : Shortcut.ofChar? c = none) (text : Text)
    (registry : Registry) : registry.extend c text = .error (.invalidShortcut c) := by
  rw [extend, run_define_of_none h]

theorem get?_primitive_put (registry : Registry) (c d : Char) (text : Text) :
    ((registry.remove c).put c text).primitive.get? d =
      if d = c then (some text).filter Lexicon.isPrimitive else registry.primitive.get? d := by
  unfold put
  split <;> rename_i h <;> by_cases hd : d = c <;>
    simp [remove, hd, Option.filter, Lexicon.isPrimitive, h]

theorem get?_complex_put (registry : Registry) (c d : Char) (text : Text) :
    ((registry.remove c).put c text).complex.get? d =
      if d = c then (some text).filter (!Lexicon.isPrimitive ·) else registry.complex.get? d := by
  unfold put
  split <;> rename_i h <;> by_cases hd : d = c <;>
    simp [remove, hd, Option.filter, Lexicon.isPrimitive, h]

def Registered (registry : Registry) (c : Char) : Prop :=
  c ∈ registry.primitive.keys ∨ c ∈ registry.complex.keys

end Registry

-- A call that named a subpattern, and whether it succeeded.
structure Attempt where
  letter : Char
  text : Text
  accepted : Bool

-- The text that a letter was given last.
def lastText (attempts : List Attempt) (c : Char) : Option Text :=
  (attempts.find? fun attempt => attempt.accepted && attempt.letter == c).map Attempt.text

-- A registry, and the calls that led to it since it was empty. The latest one
-- comes first.
structure Draft where
  registry : Registry
  attempts : List Attempt

namespace Draft

def start : Draft :=
  ⟨.empty, []⟩

def define (draft : Draft) (c : Char) (text : Text) : Draft :=
  let (result, registry) := (Registry.define c text).run draft.registry
  ⟨registry, ⟨c, text, result.isOk⟩ :: draft.attempts⟩

-- The extended registry takes the place of the old one if there is one.
def extend (draft : Draft) (c : Char) (text : Text) : Draft :=
  match draft.registry.extend c text with
  | .ok registry => ⟨registry, ⟨c, text, true⟩ :: draft.attempts⟩
  | .error _ => ⟨draft.registry, ⟨c, text, false⟩ :: draft.attempts⟩

end Draft

inductive Call
  | define (c : Char) (text : Text)
  | extend (c : Char) (text : Text)
  | save (slot : Nat)
  | load (slot : Nat)

-- The registry at hand, and clones that were put aside.
structure Workshop where
  current : Draft
  saved : List (Nat × Draft)

namespace Workshop

def start : Workshop :=
  ⟨.start, []⟩

def step (workshop : Workshop) : Call → Workshop
  | .define c text => { workshop with current := workshop.current.define c text }
  | .extend c text => { workshop with current := workshop.current.extend c text }
  | .save slot => { workshop with saved := (slot, workshop.current) :: workshop.saved }
  | .load slot => { workshop with current := (workshop.saved.lookup slot).getD workshop.current }

def run (calls : List Call) : Workshop :=
  calls.foldl step start

def drafts (workshop : Workshop) : List Draft :=
  workshop.current :: workshop.saved.map Prod.snd

end Workshop

namespace Draft

-- The tables hold the last texts, each where its kind belongs, and the calls that
-- succeeded are those that named a letter.
structure Faithful (draft : Draft) : Prop where
  accepted : ∀ attempt ∈ draft.attempts,
    attempt.accepted = (Shortcut.ofChar? attempt.letter).isSome
  primitive : ∀ c,
    draft.registry.primitive.get? c = (lastText draft.attempts c).filter Lexicon.isPrimitive
  complex : ∀ c,
    draft.registry.complex.get? c = (lastText draft.attempts c).filter (!Lexicon.isPrimitive ·)

theorem faithful_start : start.Faithful :=
  ⟨List.forall_mem_nil _, fun _ => rfl, fun _ => rfl⟩

theorem lastText_cons_of_accepted (c d : Char) (text : Text) (attempts : List Attempt) :
    lastText (⟨c, text, true⟩ :: attempts) d = if d = c then some text else lastText attempts d := by
  by_cases hd : d = c
  · simp [lastText, hd]
  · simp [lastText, hd, Ne.symm hd]

theorem lastText_cons_of_refused (c d : Char) (text : Text) (attempts : List Attempt) :
    lastText (⟨c, text, false⟩ :: attempts) d = lastText attempts d := by
  simp [lastText]

theorem define_of_letter {c : Char} (h : (Shortcut.ofChar? c).isSome) (draft : Draft)
    (text : Text) :
    draft.define c text =
      ⟨(draft.registry.remove c).put c text, ⟨c, text, true⟩ :: draft.attempts⟩ := by
  rw [define, Registry.run_define_of_letter h]
  rfl

theorem define_of_none {c : Char} (h : Shortcut.ofChar? c = none) (draft : Draft) (text : Text) :
    draft.define c text = ⟨draft.registry, ⟨c, text, false⟩ :: draft.attempts⟩ := by
  rw [define, Registry.run_define_of_none h]
  rfl

theorem extend_eq_define (draft : Draft) (c : Char) (text : Text) :
    draft.extend c text = draft.define c text := by
  cases h : Shortcut.ofChar? c with
  | none => rw [extend, Registry.extend_of_none h, define_of_none h]
  | some shortcut =>
    have hletter : (Shortcut.ofChar? c).isSome := Option.isSome_iff_exists.mpr ⟨shortcut, h⟩
    rw [extend, Registry.extend_of_letter hletter, define_of_letter hletter]

variable {draft : Draft}

-- One call keeps a draft faithful, whether it succeeds or not.
theorem Faithful.define (h : draft.Faithful) (c : Char) (text : Text) :
    (draft.define c text).Faithful := by
  by_cases hletter : (Shortcut.ofChar? c).isSome
  · rw [define_of_letter hletter]
    refine ⟨List.forall_mem_cons.mpr ⟨hletter.symm, h.accepted⟩, fun d => ?_, fun d => ?_⟩
    · rw [Registry.get?_primitive_put, lastText_cons_of_accepted, h.primitive]
      by_cases hd : d = c
      · rw [if_pos hd, if_pos hd]
      · rw [if_neg hd, if_neg hd]
    · rw [Registry.get?_complex_put, lastText_cons_of_accepted, h.complex]
      by_cases hd : d = c
      · rw [if_pos hd, if_pos hd]
      · rw [if_neg hd, if_neg hd]
  · have hnone := Option.not_isSome_iff_eq_none.mp hletter
    rw [define_of_none hnone]
    refine ⟨List.forall_mem_cons.mpr ⟨by simp [hnone], h.accepted⟩, fun d => ?_, fun d => ?_⟩
    · rw [lastText_cons_of_refused, h.primitive]
    · rw [lastText_cons_of_refused, h.complex]

end Draft

namespace Workshop

variable {workshop : Workshop}

theorem faithful_step (h : ∀ draft ∈ workshop.drafts, draft.Faithful) (call : Call) :
    ∀ draft ∈ (workshop.step call).drafts, draft.Faithful := by
  obtain ⟨hcurrent, hsaved⟩ := List.forall_mem_cons.mp h
  cases call with
  | define c text => exact List.forall_mem_cons.mpr ⟨hcurrent.define c text, hsaved⟩
  | extend c text =>
    rw [step, Draft.extend_eq_define]
    exact List.forall_mem_cons.mpr ⟨hcurrent.define c text, hsaved⟩
  | save slot =>
    exact List.forall_mem_cons.mpr ⟨hcurrent, List.forall_mem_cons.mpr ⟨hcurrent, hsaved⟩⟩
  | load slot =>
    refine List.forall_mem_cons.mpr ⟨?_, hsaved⟩
    cases hslot : workshop.saved.lookup slot with
    | none =>
      rw [step, hslot]
      exact hcurrent
    | some draft =>
      rw [step, hslot]
      obtain ⟨before, after, hsplit, -⟩ := List.lookup_eq_some_iff.mp hslot
      refine hsaved draft (List.mem_map.mpr ⟨(slot, draft), ?_, rfl⟩)
      rw [hsplit]
      exact List.mem_append_right before List.mem_cons_self

theorem faithful_foldl (calls : List Call) (h : ∀ draft ∈ workshop.drafts, draft.Faithful) :
    ∀ draft ∈ (calls.foldl step workshop).drafts, draft.Faithful := by
  induction calls generalizing workshop with
  | nil => exact h
  | cons call calls ih => exact ih (faithful_step h call)

theorem faithful_run (calls : List Call) : ∀ draft ∈ (run calls).drafts, draft.Faithful :=
  faithful_foldl calls (List.forall_mem_singleton.mpr Draft.faithful_start)

end Workshop

namespace Draft

variable {draft other : Draft}

theorem Faithful.primitive_iff (h : draft.Faithful) (c : Char) (text : Text) :
    draft.registry.primitive.get? c = some text ↔
      lastText draft.attempts c = some text ∧ text.mentionsShortcut = false := by
  rw [h.primitive, Option.filter_eq_some_iff, Lexicon.isPrimitive, Bool.not_eq_true']

theorem Faithful.complex_iff (h : draft.Faithful) (c : Char) (text : Text) :
    draft.registry.complex.get? c = some text ↔
      lastText draft.attempts c = some text ∧ text.mentionsShortcut = true := by
  rw [h.complex, Option.filter_eq_some_iff, Lexicon.isPrimitive, Bool.not_not]

theorem Faithful.registered_iff (h : draft.Faithful) (c : Char) :
    draft.registry.Registered c ↔ ∃ text, lastText draft.attempts c = some text := by
  simp only [Registry.Registered, Table.mem_keys, h.primitive_iff, h.complex_iff]
  constructor
  · rintro (⟨text, ht, -⟩ | ⟨text, ht, -⟩) <;> exact ⟨text, ht⟩
  · rintro ⟨text, ht⟩
    cases hm : text.mentionsShortcut with
    | false => exact .inl ⟨text, ht, hm⟩
    | true => exact .inr ⟨text, ht, hm⟩

theorem exists_lastText_iff {attempts : List Attempt} {c : Char} :
    (∃ text, lastText attempts c = some text) ↔
      ∃ attempt ∈ attempts, attempt.accepted = true ∧ attempt.letter = c := by
  rw [← Option.isSome_iff_exists, lastText, Option.isSome_map, List.find?_isSome]
  simp only [Bool.and_eq_true, beq_iff_eq]

theorem Faithful.registered_iff_accepted (h : draft.Faithful) {c : Char} :
    draft.registry.Registered c ↔
      ∃ attempt ∈ draft.attempts, attempt.accepted = true ∧ attempt.letter = c :=
  (h.registered_iff c).trans exists_lastText_iff

-- Only what names a subpattern was accepted.
theorem Faithful.isSome_of_registered (h : draft.Faithful) {c : Char}
    (hc : draft.registry.Registered c) : (Shortcut.ofChar? c).isSome := by
  obtain ⟨attempt, ha, haccepted, rfl⟩ := h.registered_iff_accepted.mp hc
  rw [← h.accepted attempt ha, haccepted]

-- The last text is of one kind.
theorem Faithful.notMem_keys_complex (h : draft.Faithful) {c : Char}
    (hc : c ∈ draft.registry.primitive.keys) : c ∉ draft.registry.complex.keys := by
  intro hcomplex
  obtain ⟨text, ht⟩ := Table.mem_keys.mp hc
  obtain ⟨other, ho⟩ := Table.mem_keys.mp hcomplex
  obtain ⟨hlast, hnone⟩ := (h.primitive_iff c text).mp ht
  obtain ⟨hlast', hsome⟩ := (h.complex_iff c other).mp ho
  rw [hlast] at hlast'
  cases hlast'
  rw [hnone] at hsome
  cases hsome

-- The last texts decide.
theorem Faithful.eq_of_lastText_eq (h : draft.Faithful) (hother : other.Faithful)
    (hlast : ∀ c, lastText draft.attempts c = lastText other.attempts c) :
    draft.registry = other.registry := by
  apply Registry.ext
  · exact Table.ext_get? fun c => by rw [h.primitive, hother.primitive, hlast]
  · exact Table.ext_get? fun c => by rw [h.complex, hother.complex, hlast]

-- The last texts as a lexicon.
def lexicon (draft : Draft) : Lexicon where
  texts.get? shortcut := lastText draft.attempts shortcut.toChar

theorem Faithful.compile_eq (h : draft.Faithful) (main : Text) :
    draft.registry.compile main = draft.lexicon.compile main :=
  Registry.compile_eq (fun shortcut => h.primitive shortcut.toChar)
    (fun shortcut => h.complex shortcut.toChar) main

end Draft

-- Whatever calls were made, a registry holds the text that each letter was given
-- last, where its kind belongs, and nothing else. It is changed by no call that
-- fails, and how it came about makes no difference.
theorem Workshop.run_history (calls : List Call) (draft : Draft)
    (h : draft ∈ (run calls).drafts) :
    (∀ c ∈ draft.registry.primitive.keys, c ∉ draft.registry.complex.keys) ∧
      (∀ c, draft.registry.Registered c → (Shortcut.ofChar? c).isSome) ∧
      (∀ c, draft.registry.Registered c ↔
        ∃ attempt ∈ draft.attempts, attempt.accepted = true ∧ attempt.letter = c) ∧
      (∀ c text, draft.registry.primitive.get? c = some text ↔
        lastText draft.attempts c = some text ∧ text.mentionsShortcut = false) ∧
      (∀ c text, draft.registry.complex.get? c = some text ↔
        lastText draft.attempts c = some text ∧ text.mentionsShortcut = true) ∧
      (∀ c text, (Shortcut.ofChar? c).isSome → ∃ next,
        (Registry.define c text).run draft.registry = (.ok (), next) ∧
          draft.registry.extend c text = .ok next) ∧
      (∀ c text, Shortcut.ofChar? c = none →
        (Registry.define c text).run draft.registry =
            (.error (.invalidShortcut c), draft.registry) ∧
          draft.registry.extend c text = .error (.invalidShortcut c)) ∧
      (∀ main, draft.registry.compile main = draft.lexicon.compile main) ∧
      ∀ others, ∀ other ∈ (run others).drafts,
        (∀ c, lastText draft.attempts c = lastText other.attempts c) →
          draft.registry = other.registry ∧
            ∀ main, draft.registry.compile main = other.registry.compile main := by
  have hdraft := faithful_run calls draft h
  refine ⟨fun _ => hdraft.notMem_keys_complex, fun _ => hdraft.isSome_of_registered,
    fun _ => hdraft.registered_iff_accepted, hdraft.primitive_iff, hdraft.complex_iff, ?_, ?_,
    hdraft.compile_eq, ?_⟩
  · intro c text hletter
    exact ⟨_, Registry.run_define_of_letter hletter text _, Registry.extend_of_letter hletter text _⟩
  · intro c text hnone
    exact ⟨Registry.run_define_of_none hnone text _, Registry.extend_of_none hnone text _⟩
  · intro others other ho hlast
    have hsame := hdraft.eq_of_lastText_eq (faithful_run others other ho) hlast
    exact ⟨hsame, fun main => by rw [hsame]⟩

-- A letter that is refused, one that becomes complex, and a clone that is put aside
-- and taken up again.
def detour : List Call :=
  [.define 'A' "y".toList, .save 1, .define 'A' "z".toList, .extend 'a' "q".toList, .load 1,
    .extend 'A' "B".toList, .define 'B' "x".toList]

def direct : List Call :=
  [.define 'B' "x".toList, .define 'A' "B".toList]

theorem Workshop.run_history_detour :
    (run detour).current.registry = (run direct).current.registry ∧
      ∀ main, (run detour).current.registry.compile main =
        (run direct).current.registry.compile main := by
  have hdetour : (run detour).current.attempts =
      [⟨'B', "x".toList, true⟩, ⟨'A', "B".toList, true⟩, ⟨'A', "y".toList, true⟩] := rfl
  have hdirect : (run direct).current.attempts =
      [⟨'A', "B".toList, true⟩, ⟨'B', "x".toList, true⟩] := rfl
  obtain ⟨-, -, -, -, -, -, -, -, hsame⟩ :=
    run_history detour (run detour).current List.mem_cons_self
  refine hsame direct (run direct).current List.mem_cons_self fun c => ?_
  rw [hdetour, hdirect]
  simp only [Draft.lastText_cons_of_accepted]
  by_cases hB : c = 'B'
  · rw [if_pos hB, if_neg (by rw [hB]; decide), if_pos hB]
  · rw [if_neg hB, if_neg hB]
    by_cases hA : c = 'A'
    · rw [if_pos hA, if_pos hA]
    · rw [if_neg hA, if_neg hA, if_neg hA]

end Coinage
