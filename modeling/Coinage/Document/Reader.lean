import Coinage.Document
import Coinage.Json.Object

namespace Coinage.Document

open Json (Failure Member bind_eq_ok)

-- A subpattern. Its key is a single character, and the last one under a key
-- counts.
def readEntry (table : Table Text) (key text : Text) : Except Failure (Table Text × Text) :=
  match key with
  | [c] => do
    let text ← Json.readColon text
    let (pattern, rest) ← Json.readString text
    .ok (table.insert c pattern, rest)
  | _ => .error .wrongShape

theorem length_readEntry {table next : Table Text} {key text rest : Text}
    (h : readEntry table key text = .ok (next, rest)) : rest.length ≤ text.length := by
  unfold readEntry at h
  split at h
  · obtain ⟨after, hcolon, h⟩ := bind_eq_ok h
    obtain ⟨⟨_, _⟩, hstring, h⟩ := bind_eq_ok h
    have := Json.length_readColon hcolon
    have := Json.length_readString hstring
    obtain ⟨-, rfl⟩ := Prod.mk.inj (Except.ok.inj h)
    omega
  · cases h

def entry : Member (Table Text) :=
  ⟨readEntry, length_readEntry⟩

def readTable (text : Text) : Except Failure (Table Text × Text) :=
  match Json.skipBlanks text with
  | '\x7b' :: rest => entry.readAll true .empty rest
  | text => .error (Json.misfit text)

theorem length_readTable {text rest : Text} {table : Table Text}
    (h : readTable text = .ok (table, rest)) : rest.length < text.length := by
  have hblanks := Json.length_skipBlanks text
  unfold readTable at h
  split at h
  · rename_i heq
    have := Member.length_readAll h
    simp only [heq, List.length_cons] at hblanks
    omega
  · cases h

structure Fields where
  main : Option Text
  subpatterns : Option (Table Text)

-- A member of a document. A known one stands at most once, an unknown one is
-- skipped.
def readField (fields : Fields) (key text : Text) : Except Failure (Fields × Text) :=
  if key = "main".toList then
    match fields.main with
    | some _ => .error .wrongShape
    | none => do
      let text ← Json.readColon text
      let (main, rest) ← Json.readString text
      .ok ({ fields with main := some main }, rest)
  else if key = "subpatterns".toList then
    match fields.subpatterns with
    | some _ => .error .wrongShape
    | none => do
      let text ← Json.readColon text
      let (table, rest) ← readTable text
      .ok ({ fields with subpatterns := some table }, rest)
  else do
    let text ← Json.readColon text
    let rest ← Json.skipValue [] text
    .ok (fields, rest)

theorem length_readField {fields next : Fields} {key text rest : Text}
    (h : readField fields key text = .ok (next, rest)) : rest.length ≤ text.length := by
  unfold readField at h
  split at h
  · split at h
    · cases h
    · obtain ⟨_, hcolon, h⟩ := bind_eq_ok h
      obtain ⟨⟨_, _⟩, hstring, h⟩ := bind_eq_ok h
      have := Json.length_readColon hcolon
      have := Json.length_readString hstring
      obtain ⟨-, rfl⟩ := Prod.mk.inj (Except.ok.inj h)
      omega
  split at h
  · split at h
    · cases h
    · obtain ⟨_, hcolon, h⟩ := bind_eq_ok h
      obtain ⟨⟨_, _⟩, htable, h⟩ := bind_eq_ok h
      have := Json.length_readColon hcolon
      have := length_readTable htable
      obtain ⟨-, rfl⟩ := Prod.mk.inj (Except.ok.inj h)
      omega
  · obtain ⟨_, hcolon, h⟩ := bind_eq_ok h
    obtain ⟨_, hskip, h⟩ := bind_eq_ok h
    have := Json.length_readColon hcolon
    have := Json.length_skipValue hskip
    obtain ⟨-, rfl⟩ := Prod.mk.inj (Except.ok.inj h)
    omega

def field : Member Fields :=
  ⟨readField, length_readField⟩

-- A document as a JSON object whose opening brace has been read. Only the main
-- pattern is required.
def readObject (text : Text) : Except Failure (Document × Text) := do
  let (fields, rest) ← field.readAll true ⟨none, none⟩ text
  match fields.main with
  | some main => .ok (⟨main, fields.subpatterns.getD .empty⟩, rest)
  | none => .error .wrongShape

-- The end of an array that has all its elements.
def readArrayEnd (document : Document) (text : Text) : Except Failure (Document × Text) :=
  match Json.skipBlanks text with
  | [] => .error .truncated
  | ']' :: rest => .ok (document, rest)
  | _ => .error .illFormed

-- A document as a JSON array whose opening bracket has been read. The
-- subpatterns may be left out.
def readArray (text : Text) : Except Failure (Document × Text) :=
  match Json.skipBlanks text with
  | [] => .error .truncated
  | ']' :: _ => .error .wrongShape
  | text => do
    let (main, rest) ← Json.readString text
    match Json.skipBlanks rest with
    | ',' :: rest =>
      match Json.skipBlanks rest with
      | [] => .error .truncated
      | ']' :: _ => .error .illFormed
      | text =>
        let (table, rest) ← readTable text
        readArrayEnd ⟨main, table⟩ rest
    | _ => readArrayEnd ⟨main, .empty⟩ rest

def read (text : Text) : Except Failure Document := do
  let (document, rest) ←
    match Json.skipBlanks text with
    | '\x7b' :: rest => readObject rest
    | '[' :: rest => readArray rest
    | text => .error (Json.misfit text)
  if (Json.skipBlanks rest).isEmpty then .ok document else .error .illFormed

end Coinage.Document
