import Coinage.Document.Reader
import Coinage.Document.Writer
import Coinage.Proofs.Journal
import Coinage.Proofs.Json.RoundTrip
import Coinage.Proofs.Table

namespace Coinage.Document

open Json (quote)

theorem readEntry_entry (table : Table Text) (entry : Char × Text) (rest : Text) :
    readEntry table [entry.1] (':' :: quote entry.2 ++ rest) =
      .ok (table.insert entry.1 entry.2, rest) := by
  rw [List.cons_append, readEntry, Json.readColon_cons, except_ok_bind, Json.readString_quote,
    except_ok_bind]

-- The entries are read in order, and reading them in order makes the table again.
theorem readTable_entries (table : Table Text) (rest : Text) :
    readTable ('\x7b' :: ([','].intercalate (table.entries.map writeEntry) ++ '\x7d' :: rest)) =
      .ok (table, rest) := by
  have hread : entry.readAll true Table.empty
      ([','].intercalate (table.entries.map writeEntry) ++ '\x7d' :: rest) =
        .ok (Table.ofList table.entries, rest) :=
    Json.Member.readAll_intercalate readEntry_entry table.entries Table.empty rest
  rw [Table.ofList_entries] at hread
  rw [readTable, Json.skipBlanks_cons (by decide)]
  exact hread

theorem field_read : field.read = readField := rfl

theorem field_read_main (main rest : Text) :
    field.read ⟨none, none⟩ "main".toList (':' :: (quote main ++ rest)) =
      .ok (⟨some main, none⟩, rest) := by
  rw [field_read, readField, if_pos rfl, Json.readColon_cons, except_ok_bind, Json.readString_quote,
    except_ok_bind]

theorem field_read_subpatterns (main : Text) (table : Table Text) (rest : Text) :
    field.read ⟨some main, none⟩ "subpatterns".toList
        (':' :: '\x7b' :: ([','].intercalate (table.entries.map writeEntry) ++ '\x7d' :: rest)) =
      .ok (⟨some main, some table⟩, rest) := by
  rw [field_read, readField, if_neg (by decide), if_pos rfl, Json.readColon_cons, except_ok_bind,
    readTable_entries, except_ok_bind]

-- What is written after the opening brace.
def members (document : Document) : Text :=
  quote "main".toList ++ ':' :: (quote document.main ++
    ',' :: (quote "subpatterns".toList ++ ':' :: '\x7b' ::
      ([','].intercalate (document.subpatterns.entries.map writeEntry) ++ ['\x7d', '\x7d'])))

theorem write_eq (document : Document) : document.write = '\x7b' :: document.members := by
  simp only [write, members, List.cons_append, List.append_assoc]

theorem readObject_members (document : Document) :
    readObject document.members = .ok (document, []) := by
  rw [readObject, members,
    Json.Member.readAll_of_read (Json.nextKey_quote _ _) (field_read_main _ _),
    Json.Member.readAll_of_read (Json.nextKey_comma _ _) (field_read_subpatterns _ _ _),
    Json.Member.readAll_end, except_ok_bind]
  rfl

-- What is written is read again. The registry and what is compiled are then the same,
-- be it a recipe or a fault.
theorem read_write (document : Document) :
    read document.write = .ok document ∧
      (read document.write).map registry = .ok document.registry ∧
      (read document.write).map compile = .ok document.compile := by
  have hread : read document.write = .ok document := by
    rw [write_eq, read, Json.skipBlanks_cons (by decide)]
    simp only
    rw [readObject_members, except_ok_bind]
    rfl
  rw [hread]
  exact ⟨rfl, rfl, rfl⟩

-- Subpatterns are written in the order of their names.
example : write (.ofDefinitions "S/é".toList [('V', "a/\"i\"\n".toList), ('C', "p".toList)]) =
    "\x7b\"main\":\"S/é\",\"subpatterns\":\x7b\"C\":\"p\",\"V\":\"a/\\\"i\\\"\\n\"\x7d\x7d".toList := by
  rfl

end Coinage.Document
