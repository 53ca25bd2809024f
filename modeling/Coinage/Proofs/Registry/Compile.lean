import Coinage.Proofs.Lexicon.Rounds
import Coinage.Proofs.Pattern.Canonical
import Coinage.Proofs.Table
import Coinage.Registry

namespace Coinage

namespace Registry

theorem mem_named {table : Table Text} {shortcut : Shortcut} {text : Text} :
    (shortcut, text) ∈ named table ↔ table.get? shortcut.toChar = some text := by
  simp only [named, List.mem_filterMap, Option.map_eq_some_iff, Prod.mk.injEq,
    Shortcut.ofChar?_eq_some_iff]
  constructor
  · rintro ⟨⟨c, value⟩, he, shortcut, hc, rfl, rfl⟩
    exact hc ▸ Table.mem_entries.mp he
  · intro h
    exact ⟨(shortcut.toChar, text), Table.mem_entries.mpr h, shortcut, rfl, rfl, rfl⟩

theorem ascending_named (table : Table Text) :
    (named table).Pairwise fun first second => first.1.toChar < second.1.toChar := by
  refine List.Pairwise.filterMap _ ?_ table.ascending
  intro first second hlt entry he other ho
  obtain ⟨shortcut, hs, rfl⟩ := Option.map_eq_some_iff.mp he
  obtain ⟨shortcut', hs', rfl⟩ := Option.map_eq_some_iff.mp ho
  rwa [Shortcut.toChar_of_ofChar? hs, Shortcut.toChar_of_ofChar? hs']

theorem named_eq_entries {table : Table Text} {map : ShortcutMap Text}
    (h : ∀ shortcut, table.get? shortcut.toChar = map.get? shortcut) :
    named table = map.entries := by
  refine eq_of_mem_iff (ascending_named table) map.ascending_entries fun ⟨shortcut, text⟩ => ?_
  rw [mem_named, ShortcutMap.mem_entries, h]

-- Two tables are compiled as one lexicon is whose texts they hold apart.
theorem compile_eq {registry : Registry} {lexicon : Lexicon}
    (hprimitive : ∀ shortcut,
      registry.primitive.get? shortcut.toChar = lexicon.primitives.get? shortcut)
    (hcomplex : ∀ shortcut,
      registry.complex.get? shortcut.toChar = lexicon.complexes.get? shortcut) (main : Text) :
    registry.compile main = lexicon.compile main := by
  rw [compile, Lexicon.compile, named_eq_entries hprimitive, named_eq_entries hcomplex]

end Registry

end Coinage
