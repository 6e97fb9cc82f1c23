import Blueprint.Text.Mark

/-!
What can be wrong with a YAML text, where, and the words for it.
-/

namespace Blueprint.Yaml

inductive Fault where
  | staleKey
  | lostKey
  | directiveWithoutName
  | directiveName
  | directiveUnknown
  | directiveEnd
  | directiveRepeated
  | versionWithoutNumber
  | versionTooLong
  | versionWithoutDot
  | versionUnsupported
  | tagDirectiveEnd
  | tagDirectiveHandle
  | tagNotClosed
  | tagEnd
  | tagStart
  | tagWithoutUri
  | tagEscape
  | tagLeadingOctet
  | tagTrailingOctet
  | tagCodePoint
  | tagHandleUndefined
  | anchorName
  | flowTooDeep
  | entryNotAllowed
  | entryInFlow
  | keyNotAllowed
  | valueNotAllowed
  | blockScalarIndent
  | blockScalarHeader
  | blockScalarTab
  | quotedIndicator
  | quotedEnd
  | quotedEscape
  | quotedHex
  | quotedCodePoint
  | plainTab
  | plainColon
  | unexpectedCharacter (c : Char)
  | endOfTokens
  | streamStart
  | documentStart
  | nodeContent
  | unknownAnchor
  | mappingKey
  | sequenceEntry
  | flowMappingEnd
  | flowSequenceEnd
  | controlCharacter
deriving DecidableEq

/-- A fault at a position. -/
structure ScanError where
  fault : Fault
  mark : Mark
deriving DecidableEq

def Fault.message : Fault → String
  | staleKey => "simple key expect ':'"
  | lostKey => "simple key expected"
  | directiveWithoutName =>
    "while scanning a directive, could not find expected directive name"
  | directiveName => "while scanning a directive, found unexpected non-alphabetical character"
  | directiveUnknown => "while scanning a directive, found unknown directive name"
  | directiveEnd => "while scanning a directive, did not find expected comment or line break"
  | directiveRepeated => "found duplicate directive"
  | versionWithoutNumber =>
    "while scanning a YAML directive, did not find expected version number"
  | versionTooLong =>
    "while scanning a YAML directive, found extremely long version number"
  | versionWithoutDot =>
    "while scanning a YAML directive, did not find expected digit or '.' character"
  | versionUnsupported => "found incompatible YAML document"
  | tagDirectiveEnd => "while scanning TAG, did not find expected whitespace or line break"
  | tagDirectiveHandle => "while parsing a tag directive, did not find expected '!'"
  | tagNotClosed => "while scanning a tag, did not find the expected '>'"
  | tagEnd => "while scanning a tag, did not find expected whitespace or line break"
  | tagStart => "while scanning a tag, did not find expected '!'"
  | tagWithoutUri => "while parsing a tag, did not find expected tag URI"
  | tagEscape => "while parsing a tag, did not find URI escaped octet"
  | tagLeadingOctet => "while parsing a tag, found an incorrect leading UTF-8 octet"
  | tagTrailingOctet => "while parsing a tag, found an incorrect trailing UTF-8 octet"
  | tagCodePoint => "while parsing a tag, found an invalid UTF-8 codepoint"
  | tagHandleUndefined => "found undefined tag handle"
  | anchorName =>
    "while scanning an anchor or alias, did not find expected alphabetic or numeric character"
  | flowTooDeep => "recursion limit exceeded"
  | entryNotAllowed => "block sequence entries are not allowed in this context"
  | entryInFlow => "\"-\" is only valid inside a block"
  | keyNotAllowed => "mapping keys are not allowed in this context"
  | valueNotAllowed => "mapping values are not allowed in this context"
  | blockScalarIndent =>
    "while scanning a block scalar, found an indentation indicator equal to 0"
  | blockScalarHeader =>
    "while scanning a block scalar, did not find expected comment or line break"
  | blockScalarTab =>
    "while scanning a block scalar, found a tab character where an indentation space is expected"
  | quotedIndicator => "while scanning a quoted scalar, found unexpected document indicator"
  | quotedEnd => "while scanning a quoted scalar, found unexpected end of stream"
  | quotedEscape => "while parsing a quoted scalar, found unknown escape character"
  | quotedHex => "while parsing a quoted scalar, did not find expected hexadecimal number"
  | quotedCodePoint =>
    "while parsing a quoted scalar, found invalid Unicode character escape code"
  | plainTab => "while scanning a plain scalar, found a tab"
  | plainColon => "while scanning a plain scalar, found unexpected ':'"
  | unexpectedCharacter c => "unexpected character: \x60" ++ c.toString ++ "'"
  | endOfTokens => "unexpected eof"
  | streamStart => "did not find expected <stream-start>"
  | documentStart => "did not find expected <document start>"
  | nodeContent => "while parsing a node, did not find expected node content"
  | unknownAnchor => "while parsing node, found unknown anchor"
  | mappingKey => "while parsing a block mapping, did not find expected key"
  | sequenceEntry =>
    "while parsing a block collection, did not find expected '-' indicator"
  | flowMappingEnd => "while parsing a flow mapping, did not find expected ',' or '\x7d'"
  | flowSequenceEnd => "while parsing a flow sequence, expected ',' or ']'"
  | controlCharacter => "control characters are not allowed"

/-- The fault with its line and column, both counted from 1. -/
def ScanError.text (e : ScanError) : String :=
  e.fault.message ++ " at line " ++ toString e.mark.line
    ++ " column " ++ toString (e.mark.column + 1)

end Blueprint.Yaml
