import Coinage.Document
import Coinage.Json.Quoted

namespace Coinage.Document

def writeEntry (entry : Char × Text) : Text :=
  Json.quote [entry.1] ++ ':' :: Json.quote entry.2

def write (document : Document) : Text :=
  '\x7b' :: Json.quote "main".toList ++ ':' :: Json.quote document.main ++
    ',' :: Json.quote "subpatterns".toList ++ ':' :: '\x7b' ::
    [','].intercalate (document.subpatterns.entries.map writeEntry) ++ ['\x7d', '\x7d']

end Coinage.Document
