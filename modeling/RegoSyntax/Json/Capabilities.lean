/-
# RegoSyntax.Json.Capabilities — capabilities documents.

The document by which tools tell what an engine supports is a JSON object with many members, of
which two matter here.  Either may be missing, each may occur once, all others are skipped.  The
same data can be given by position, as a list of the two.
-/
import RegoSyntax.Json.Reader
import RegoSyntax.Options

namespace RegoSyntax.Capabilities

open JsonText (Reader ReadError)

/-- The members that have been read so far. -/
structure Partial where
  futureKeywords : Option (List String) := none
  features : Option (List String) := none

/-- Capabilities from the members of a document; a missing list is empty. -/
def Partial.complete (d : Partial) : Capabilities :=
  { futureKeywords := d.futureKeywords.getD [], features := d.features.getD [] }

/-- The place where a repeated member is noticed: behind its key, and behind the end of the
document if that follows at once. -/
def duplicatePlace (p : JsonText.Cursor) : JsonText.Cursor :=
  let p := p.skipBlanks
  if p.peek == some '}' then p.advance else p

/-- One member behind its key: a list of strings, if the key is one of the two. -/
def readMember (d : Partial) (key : String) : Reader Partial := fun p => do
  let duplicate := ((duplicatePlace p).here (.duplicateField key) : ReadError)
  if key == "future_keywords" then
    if d.futureKeywords.isSome then .error duplicate
    else
      let ((), p) ← JsonText.colon p
      let (words, p) ← JsonText.listOf JsonText.string p
      .ok ({ d with futureKeywords := some words }, p)
  else if key == "features" then
    if d.features.isSome then .error duplicate
    else
      let ((), p) ← JsonText.colon p
      let (words, p) ← JsonText.listOf JsonText.string p
      .ok ({ d with features := some words }, p)
  else
    let ((), p) ← JsonText.colon p
    let ((), p) ← JsonText.skipValue p
    .ok (d, p)

/-- The members of a document, up to its closing brace. -/
def readMembers : (fuel : Nat) → (first : Bool) → Partial → Reader Partial
  | 0, _, _, p => .error (p.here .endInObject)
  | fuel + 1, first, d, p => do
    let (more, p) ← JsonText.nextKey first p
    if more then
      let (key, p) ← JsonText.string p
      let (d, p) ← readMember d key p
      readMembers fuel false d p
    else .ok (d, p)

/-- A document given by position. -/
def readList : Reader Partial := fun p => do
  let (more, p) ← JsonText.nextElement true p
  if !more then
    let ((), p) ← JsonText.endList p
    .ok ({}, p)
  else
    let (words, p) ← JsonText.listOf JsonText.string p
    let (more, p) ← JsonText.nextElement false p
    if !more then
      let ((), p) ← JsonText.endList p
      .ok ({ futureKeywords := some words }, p)
    else
      let (features, p) ← JsonText.listOf JsonText.string p
      let ((), p) ← JsonText.endList p
      .ok ({ futureKeywords := some words, features := some features }, p)

/-- The capabilities in a document. -/
def readDocument : Reader Capabilities := fun p => do
  let p := p.skipBlanks
  match p.peek with
  | none => .error (p.next .endInValue)
  | some '{' =>
    let (d, p) ← readMembers (p.rest.length + 1) true {} p.advance
    .ok (d.complete, p.advance)
  | some '[' =>
    let (d, p) ← readList p.advance
    .ok (d.complete, p)
  | some c => .error (JsonText.wrongType c "struct Capabilities" p)

/-- The capabilities that a text describes. -/
def ofJson (text : String) : Except ReadError Capabilities := do
  let (c, p) ← readDocument ⟨text.toList, 1, 0⟩
  let ((), _) ← JsonText.endOfText p
  return c

end RegoSyntax.Capabilities
