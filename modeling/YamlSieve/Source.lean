import YamlSieve.Gzip.Member
import YamlSieve.Yaml.Document

/-!
# Sources of documents

Documents come from a file or from plain bytes, which both may be compressed. A file tells so by
its extension alone, and plain bytes by how they start.
-/

namespace YamlSieve

inductive LoadFailure where
  /-- A file cannot be read, or its content is no text. -/
  | unreadable
  /-- Compressed data is damaged, or what it holds is no text. -/
  | corrupt
  /-- Plain bytes are no text. -/
  | notText
  /-- Plain bytes have no documents. -/
  | bytes (cause : DocumentError)
  /-- A file has no documents. -/
  | file (path : String) (cause : DocumentError)
deriving DecidableEq, Repr

namespace LoadFailure

def messages : LoadFailure → List String
  | unreadable      => ["Failed to read file"]
  | corrupt         => ["Failed to decompress gzip data"]
  | notText         => ["Input is not valid UTF-8"]
  | bytes cause     => [cause.message]
  | file path cause => ["Failed to parse " ++ path, cause.message]

/-- What is wrong with the documents, if that is where a failure comes from. -/
def cause? : LoadFailure → Option DocumentError
  | bytes cause | file _ cause    => some cause
  | unreadable | corrupt | notText => none

end LoadFailure

namespace Source

def fileName? (path : String) : Option String :=
  match ((path.splitOn "/").filter fun part => part ≠ "" && part ≠ ".").getLast? with
  | some ".." => none
  | name?     => name?

/-- The part of a file name after its last dot, unless nothing else stands in front of the dot. -/
def extension? (path : String) : Option String := do
  let name ← fileName? path
  let reversed := name.toList.reverse
  match reversed.dropWhile (· ≠ '.') with
  | [] | [_] => none
  | _        => some (.ofList (reversed.takeWhile (· ≠ '.')).reverse)

def isCompressed (path : String) : Bool := extension? path = some "gz"

/-- The text that bytes hold in compressed form. -/
def decompressText (data : ByteArray) : Except LoadFailure String :=
  match (Gzip.decompress? data).bind String.fromUTF8? with
  | some text => .ok text
  | none      => .error .corrupt

/-- The text of a file with the given content; there is no content if it cannot be read. -/
def fileText (path : String) (content : Option ByteArray) : Except LoadFailure String :=
  match content with
  | none      => .error .unreadable
  | some data =>
    if isCompressed path then
      decompressText data
    else
      match String.fromUTF8? data with
      | some text => .ok text
      | none      => .error .unreadable

def bytesText (data : ByteArray) : Except LoadFailure String :=
  if Gzip.hasMagic data then
    decompressText data
  else
    match String.fromUTF8? data with
    | some text => .ok text
    | none      => .error .notText

/-- The documents of a file with the given content. -/
def loadFile (path : String) (content : Option ByteArray) : Except LoadFailure (List Node) := do
  (Yaml.parse (← fileText path content)).mapError (.file path)

def loadBytes (data : ByteArray) : Except LoadFailure (List Node) := do
  (Yaml.parse (← bytesText data)).mapError .bytes

end Source
end YamlSieve
