import Coinage.Document
import Coinage.Proofs.Registry.History

namespace Coinage

namespace Registry

-- What names no subpattern is refused.
def refuses (c : Char) : Bool :=
  (Shortcut.ofChar? c).isNone

theorem defineAll_cons (definition : Char × Text) (definitions : List (Char × Text)) :
    defineAll (definition :: definitions) =
      (define definition.1 definition.2 >>= fun _ => defineAll definitions) := rfl

theorem run_defineAll_cons_of_letter {definition : Char × Text}
    (h : (Shortcut.ofChar? definition.1).isSome) (definitions : List (Char × Text))
    (registry : Registry) :
    (defineAll (definition :: definitions)).run registry =
      (defineAll definitions).run
        ((registry.remove definition.1).put definition.1 definition.2) := by
  rw [defineAll_cons, run_bind_of_ok (run_define_of_letter h _ registry)]

theorem run_defineAll_cons_of_none {definition : Char × Text}
    (h : Shortcut.ofChar? definition.1 = none) (definitions : List (Char × Text))
    (registry : Registry) :
    (defineAll (definition :: definitions)).run registry =
      (.error (.invalidShortcut definition.1), registry) := by
  rw [defineAll_cons, run_bind_of_error (run_define_of_none h _ registry)]

-- The first character that is refused ends the definitions.
theorem exists_run_defineAll {definitions : List (Char × Text)} {c : Char}
    (h : (definitions.map Prod.fst).find? refuses = some c) (registry : Registry) :
    ∃ next, (defineAll definitions).run registry = (.error (.invalidShortcut c), next) := by
  induction definitions generalizing registry with
  | nil => cases h
  | cons definition definitions ih =>
    rw [List.map_cons, List.find?_cons, refuses] at h
    cases hc : Shortcut.ofChar? definition.1 with
    | none =>
      rw [hc] at h
      cases h
      exact ⟨registry, run_defineAll_cons_of_none hc definitions registry⟩
    | some shortcut =>
      have hletter : (Shortcut.ofChar? definition.1).isSome := Option.isSome_iff_exists.mpr ⟨_, hc⟩
      rw [hc] at h
      rw [run_defineAll_cons_of_letter hletter]
      exact ih h _

theorem ofDefinitions_of_refused {definitions : List (Char × Text)} {c : Char}
    (h : (definitions.map Prod.fst).find? refuses = some c) :
    ofDefinitions definitions = .error (.invalidShortcut c) := by
  obtain ⟨next, hrun⟩ := exists_run_defineAll h empty
  rw [ofDefinitions, hrun]

end Registry

namespace Draft

def defineAll (draft : Draft) (definitions : List (Char × Text)) : Draft :=
  definitions.foldl (fun draft definition => draft.define definition.1 definition.2) draft

theorem run_defineAll {definitions : List (Char × Text)}
    (h : ∀ definition ∈ definitions, (Shortcut.ofChar? definition.1).isSome) (draft : Draft) :
    (Registry.defineAll definitions).run draft.registry =
      (.ok (), (draft.defineAll definitions).registry) := by
  induction definitions generalizing draft with
  | nil => rfl
  | cons definition definitions ih =>
    obtain ⟨hhead, htail⟩ := List.forall_mem_cons.mp h
    have hrest := ih htail (draft.define definition.1 definition.2)
    rw [Registry.run_defineAll_cons_of_letter hhead, defineAll, List.foldl_cons]
    rw [define_of_letter hhead] at hrest ⊢
    exact hrest

theorem Faithful.defineAll {draft : Draft} (h : draft.Faithful)
    (definitions : List (Char × Text)) : (draft.defineAll definitions).Faithful := by
  induction definitions generalizing draft with
  | nil => exact h
  | cons definition definitions ih => exact ih (h.define definition.1 definition.2)

-- A table keeps the text that each letter was given last.
theorem lastText_defineAll {definitions : List (Char × Text)}
    (h : ∀ definition ∈ definitions, (Shortcut.ofChar? definition.1).isSome) {draft : Draft}
    {table : Table Text} (hsame : ∀ c, lastText draft.attempts c = table.get? c) (c : Char) :
    lastText (draft.defineAll definitions).attempts c =
      (definitions.foldl (fun table entry => table.insert entry.1 entry.2) table).get? c := by
  induction definitions generalizing draft table with
  | nil => exact hsame c
  | cons definition definitions ih =>
    obtain ⟨hhead, htail⟩ := List.forall_mem_cons.mp h
    refine ih htail fun d => ?_
    change lastText (draft.define definition.1 definition.2).attempts d =
      (table.insert definition.1 definition.2).get? d
    rw [define_of_letter hhead, lastText_cons_of_accepted, Table.get?_insert, hsame]

theorem lastText_start_defineAll {definitions : List (Char × Text)}
    (h : ∀ definition ∈ definitions, (Shortcut.ofChar? definition.1).isSome) (c : Char) :
    lastText (start.defineAll definitions).attempts c = (Table.ofList definitions).get? c :=
  lastText_defineAll h (fun _ => rfl) c

end Draft

namespace Registry

variable {definitions : List (Char × Text)}

theorem ofDefinitions_of_letters
    (h : ∀ definition ∈ definitions, (Shortcut.ofChar? definition.1).isSome) :
    ofDefinitions definitions = .ok (Draft.start.defineAll definitions).registry := by
  have hrun : (defineAll definitions).run empty = _ := Draft.run_defineAll h Draft.start
  rw [ofDefinitions, hrun]

-- Letters may be defined again and in any order: what counts is the table of their
-- last texts.
theorem ofDefinitions_entries
    (h : ∀ definition ∈ definitions, (Shortcut.ofChar? definition.1).isSome)
    (hentries : ∀ entry ∈ (Table.ofList definitions).entries, (Shortcut.ofChar? entry.1).isSome) :
    ofDefinitions (Table.ofList definitions).entries = ofDefinitions definitions := by
  have hlast : ∀ c, lastText (Draft.start.defineAll (Table.ofList definitions).entries).attempts c =
      lastText (Draft.start.defineAll definitions).attempts c := by
    intro c
    rw [Draft.lastText_start_defineAll hentries, Draft.lastText_start_defineAll h,
      Table.ofList_entries]
  have hstart := Draft.faithful_start
  rw [ofDefinitions_of_letters h, ofDefinitions_of_letters hentries,
    (hstart.defineAll _).eq_of_lastText_eq (hstart.defineAll _) hlast]

end Registry

namespace Document

theorem ofDefinitions_eq (main : Text) (definitions : List (Char × Text)) :
    ofDefinitions main definitions = ⟨main, Table.ofList definitions⟩ := by
  have hfold : ∀ table : Table Text,
      definitions.foldl (fun document definition => document.define definition.1 definition.2)
          (⟨main, table⟩ : Document) =
        ⟨main, definitions.foldl (fun table entry => table.insert entry.1 entry.2) table⟩ := by
    induction definitions with
    | nil => exact fun _ => rfl
    | cons definition definitions ih =>
      exact fun table => ih (table.insert definition.1 definition.2)
  exact hfold .empty

section Agreement

variable {definitions : List (Char × Text)}

theorem registry_ofDefinitions (main : Text)
    (h : ∀ definition ∈ definitions, (Shortcut.ofChar? definition.1).isSome) :
    (ofDefinitions main definitions).registry = Registry.ofDefinitions definitions := by
  rw [ofDefinitions_eq]
  refine Registry.ofDefinitions_entries h fun entry he => ?_
  obtain ⟨definition, hd, hc⟩ := List.mem_map.mp
    (Table.mem_keys_ofList.mp (List.mem_map_of_mem he))
  rw [← hc]
  exact h definition hd

-- The table of a document is in order, so the smallest character is met first.
theorem exists_registry_refused (main : Text)
    (h : ∃ definition ∈ definitions, Shortcut.ofChar? definition.1 = none) :
    ∃ smallest, (smallest ∈ definitions.map Prod.fst ∧ Shortcut.ofChar? smallest = none ∧
        ∀ c ∈ definitions.map Prod.fst, Shortcut.ofChar? c = none → smallest ≤ c) ∧
      (ofDefinitions main definitions).registry = .error (.invalidShortcut smallest) := by
  obtain ⟨definition, hd, hnone⟩ := h
  have hmem : definition.1 ∈ (Table.ofList definitions).keys :=
    Table.mem_keys_ofList.mpr (List.mem_map_of_mem hd)
  have hsome : ((Table.ofList definitions).keys.find? Registry.refuses).isSome :=
    List.find?_isSome.mpr ⟨_, hmem, Option.isNone_iff_eq_none.mpr hnone⟩
  obtain ⟨smallest, hfind⟩ := Option.isSome_iff_exists.mp hsome
  refine ⟨smallest, ⟨?_, ?_, fun c hc hrefused => ?_⟩, ?_⟩
  · exact Table.mem_keys_ofList.mp (List.mem_of_find?_eq_some hfind)
  · have hrefused : Registry.refuses smallest = true := List.find?_some hfind
    exact Option.isNone_iff_eq_none.mp hrefused
  · exact Table.le_of_find?_keys hfind (Table.mem_keys_ofList.mpr hc)
      (Option.isNone_iff_eq_none.mpr hrefused)
  · rw [ofDefinitions_eq]
    exact Registry.ofDefinitions_of_refused hfind

-- A document is compiled as its definitions one after the other are, if all of them
-- name subpatterns. Otherwise nothing is compiled: a document reports the smallest
-- character that names none, and the definitions themselves the first one.
theorem compile_ofDefinitions (main : Text) (definitions : List (Char × Text)) :
    ((∀ definition ∈ definitions, (Shortcut.ofChar? definition.1).isSome) →
      (ofDefinitions main definitions).compile = Registry.compileWith definitions main) ∧
    ((∃ definition ∈ definitions, Shortcut.ofChar? definition.1 = none) →
      ∃ smallest first,
        (smallest ∈ definitions.map Prod.fst ∧ Shortcut.ofChar? smallest = none ∧
          ∀ c ∈ definitions.map Prod.fst, Shortcut.ofChar? c = none → smallest ≤ c) ∧
        (definitions.map Prod.fst).find? (fun c => (Shortcut.ofChar? c).isNone) = some first ∧
        (ofDefinitions main definitions).compile = .ofResult (.error (.invalidShortcut smallest)) ∧
        Registry.compileWith definitions main =
          .ofResult (.error (.invalidShortcut first))) := by
  constructor
  · intro h
    rw [compile, registry_ofDefinitions main h, Registry.compileWith, ofDefinitions_eq]
  · intro h
    obtain ⟨smallest, hsmallest, hregistry⟩ := exists_registry_refused main h
    obtain ⟨definition, hd, hnone⟩ := h
    have hsome : ((definitions.map Prod.fst).find? Registry.refuses).isSome :=
      List.find?_isSome.mpr ⟨_, List.mem_map_of_mem hd, Option.isNone_iff_eq_none.mpr hnone⟩
    obtain ⟨first, hfirst⟩ := Option.isSome_iff_exists.mp hsome
    refine ⟨smallest, first, hsmallest, hfirst, ?_, ?_⟩
    · rw [compile, hregistry]
      rfl
    · rw [Registry.compileWith, Registry.ofDefinitions_of_refused hfirst]
      rfl

-- A letter that changes its kind, and characters that are no letters in an order of
-- their own.
theorem compile_ofDefinitions_mixed :
    (ofDefinitions "AB".toList
        [('B', "A".toList), ('A', "x".toList), ('B', "y".toList)]).compile =
      Registry.compileWith [('B', "A".toList), ('A', "x".toList), ('B', "y".toList)]
        "AB".toList ∧
    (ofDefinitions "[".toList
        [('A', "[".toList), ('z', "x".toList), ('a', "y".toList)]).compile =
      .ofResult (.error (.invalidShortcut 'a')) ∧
    Registry.compileWith [('A', "[".toList), ('z', "x".toList), ('a', "y".toList)] "[".toList =
      .ofResult (.error (.invalidShortcut 'z')) := by
  have hsame := (compile_ofDefinitions "AB".toList
    [('B', "A".toList), ('A', "x".toList), ('B', "y".toList)]).1 (by decide)
  obtain ⟨smallest, first, ⟨hmem, hnone, hleast⟩, hfirst, hdocument, hregistry⟩ :=
    (compile_ofDefinitions "[".toList
      [('A', "[".toList), ('z', "x".toList), ('a', "y".toList)]).2 (by decide)
  have hle : smallest ≤ 'a' := hleast 'a' (by decide) (by decide)
  simp only [List.map_cons, List.map_nil, List.mem_cons, List.not_mem_nil, or_false] at hmem
  obtain rfl : smallest = 'a' := by
    rcases hmem with rfl | rfl | rfl
    · cases hnone
    · exact absurd hle (by decide)
    · rfl
  cases hfirst
  exact ⟨hsame, hdocument, hregistry⟩

end Agreement

end Document

end Coinage
