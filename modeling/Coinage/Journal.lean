import Coinage.Fault
import Coinage.Recipe

namespace Coinage

-- What is noted while patterns are compiled.
inductive Event
  | split (alternatives : Nat) (optional weighted : Bool)
  | subpattern (primitive : Bool) (shortcut : Shortcut) (pattern : Text) (recipe : Recipe)
  | main (pattern : Text) (recipe : Recipe)

inductive Level
  | trace
  | debug
deriving DecidableEq

def Level.text : Level → Text
  | trace => "TRACE".toList
  | debug => "DEBUG".toList

namespace Event

def level : Event → Level
  | split .. => .trace
  | subpattern .. => .debug
  | main .. => .debug

def message : Event → Text
  | split .. => "split pattern".toList
  | subpattern true .. => "compiled primitive subpattern".toList
  | subpattern false .. => "compiled complex subpattern".toList
  | main .. => "compiled main pattern".toList

def truthText : Bool → Text
  | true => "true".toList
  | false => "false".toList

def fields : Event → List (Text × Text)
  | split alternatives optional weighted =>
    [("fragments".toList, Text.ofNat alternatives),
      ("optional".toList, truthText optional),
      ("weighted".toList, truthText weighted)]
  | subpattern _ shortcut pattern recipe =>
    [("shortcut".toList, [shortcut.toChar]),
      ("pattern".toList, pattern),
      ("token".toList, recipe.display)]
  | main pattern recipe =>
    [("pattern".toList, pattern), ("token".toList, recipe.display)]

end Event

-- A computation that may fail. What it noted before that is kept.
structure Logged (ε α : Type) where
  events : List Event
  result : Except ε α

namespace Logged

variable {ε δ α β : Type}

def map (change : α → β) (logged : Logged ε α) : Logged ε β :=
  ⟨logged.events, logged.result.map change⟩

-- A failure ends the computation. Otherwise the second step adds its notes.
def bind (first : Logged ε α) (next : α → Logged ε β) : Logged ε β :=
  match first.result with
  | .error failure => ⟨first.events, .error failure⟩
  | .ok value =>
    let second := next value
    ⟨first.events ++ second.events, second.result⟩

instance : Monad (Logged ε) where
  pure value := ⟨[], .ok value⟩
  bind := bind
  map := map

def note (event : Event) : Logged ε Unit :=
  ⟨[event], .ok ()⟩

def ofResult (result : Except ε α) : Logged ε α :=
  ⟨[], result⟩

def mapError (change : ε → δ) (logged : Logged ε α) : Logged δ α :=
  ⟨logged.events, logged.result.mapError change⟩

theorem bind_eq_ok {first : Logged ε α} {next : α → Logged ε β} {value : β}
    (h : (first >>= next).result = .ok value) :
    ∃ middle, first.result = .ok middle ∧ (next middle).result = .ok value := by
  change (first.bind next).result = _ at h
  unfold bind at h
  cases hfirst : first.result with
  | error failure =>
    rw [hfirst] at h
    cases h
  | ok middle =>
    rw [hfirst] at h
    exact ⟨middle, rfl, h⟩

end Logged

-- Work that can only end with a fault.
abbrev Journaled : Type → Type := Logged Fault

end Coinage
