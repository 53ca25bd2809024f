import Coinage.Main
import Coinage.Proofs.Recipe.Meaning
import Coinage.Proofs.Lexicon.Display
import Coinage.Proofs.Recipe.SpellOut
import Coinage.Proofs.Registry.Renaming
import Coinage.Proofs.Registry.Classification
import Coinage.Proofs.Lexicon.Expansion
import Coinage.Proofs.Lexicon.Height
import Coinage.Proofs.Lexicon.Language
import Coinage.Proofs.Lexicon.Unused
import Coinage.Proofs.Document.Agreement
import Coinage.Proofs.Document.RoundTrip
import Coinage.Proofs.Recipe.Content
import Coinage.Proofs.Recipe.Slash
import Coinage.Proofs.Urn.Draws
import Coinage.Proofs.Double.Sum
import Coinage.Proofs.Scale.Readback
import Coinage.Proofs.Urn.Entries
import Coinage.Proofs.Urn.Repeated
import Coinage.Proofs.Scale.Intervals
import Coinage.Proofs.Urn.Intervals
import Coinage.Proofs.Source.Frequency
import Coinage.Proofs.Scale.Frequency
import Coinage.Proofs.Lexicon.Frequency
import Coinage.Proofs.Cursor.Pairs
import Coinage.Proofs.Lexicon.Normal
import Coinage.Proofs.CommandLine
import Coinage.Proofs.Lexicon.Log
import Coinage.Proofs.Lexicon.Order
import Coinage.Proofs.Registry.Guarantees
