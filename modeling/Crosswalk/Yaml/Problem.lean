import Crosswalk.Fault

/-!
What can be wrong with YAML text. A message says what was being read, or what was found if nothing
in particular was being read.
-/

namespace Crosswalk.Yaml

inductive Problem where
  | unacceptableCharacter (c : Char)
  /-- Something went wrong while a piece of text was scanned. -/
  | scanning (what : String)
  /-- Something went wrong while a piece of structure was put together. -/
  | parsing (what : String)
  /-- A construct stands where it is not allowed. -/
  | misplaced (what : String)
  | expectedDocumentStart (found : String)
  | duplicateVersion
  | incompatibleVersion
  | duplicateTagHandle (handle : String)
  | undefinedAlias (name : String)
  | duplicateAnchor (name : String)
  | severalDocuments
  /-- A collection has an item that cannot be one of its items. -/
  | constructing (what : String)
  | unknownTag (tag : String)
  /-- A node is of another kind than its tag asks for. -/
  | expectedNode (wanted found : String)
  /-- Binary data that is not written in its alphabet. -/
  | unreadableBinary (detail : String)
  | undecodableBinary (detail : String)
deriving Repr, DecidableEq

def Problem.message : Problem → String
  | .unacceptableCharacter c =>
    "unacceptable character #x" ++ String.ofList (Text.hexDigits 4 c.toNat) ++
      ": special characters are not allowed"
  | .scanning what => "while scanning " ++ what
  | .parsing what => "while parsing " ++ what
  | .misplaced what => what ++ " are not allowed here"
  | .expectedDocumentStart found =>
    "expected '<document start>', but found " ++ Text.quoted found
  | .duplicateVersion => "found duplicate YAML directive"
  | .incompatibleVersion => "found incompatible YAML document (version 1.* is required)"
  | .duplicateTagHandle handle => "duplicate tag handle " ++ Text.quoted handle
  | .undefinedAlias name => "found undefined alias " ++ Text.quoted name
  | .duplicateAnchor name =>
    "found duplicate anchor " ++ Text.quoted name ++ "; first occurrence"
  | .severalDocuments => "expected a single document in the stream"
  | .constructing what => "while constructing " ++ what
  | .unknownTag tag => "could not determine a constructor for the tag " ++ Text.quoted tag
  | .expectedNode wanted found => "expected a " ++ wanted ++ " node, but found " ++ found
  | .unreadableBinary detail => "failed to convert base64 data into ascii: " ++ detail
  | .undecodableBinary detail => "failed to decode base64 data: " ++ detail

/-- Reading ends with a problem of the text, or with a fault in the value of a scalar. -/
inductive Failure where
  | problem (p : Problem)
  | fault (f : Fault)
deriving Repr

end Crosswalk.Yaml
