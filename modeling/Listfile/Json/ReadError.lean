import Listfile.Json.Number
import Listfile.Text.Quoted
/-! # Why a JSON text is refused

A text is read from left to right and refused at its first fault. A fault is of one of three categories: the
text is not JSON, the text ends too early, or it is JSON but not what was expected.
-/
namespace Listfile.Json
set_option autoImplicit false

inductive Unexpected where
  | null
  | bool (value : Bool)
  | number (value : Number)
  | string (value : String)
  | sequence
  | map
deriving Repr

def Unexpected.description : Unexpected → String
  | null => "null"
  | bool true => "boolean `true`"
  | bool false => "boolean `false`"
  | number (.integer value) => "integer `" ++ Number.integerText value ++ "`"
  | number (.double value) => "floating point `" ++ Number.doubleText value ++ "`"
  | string value => "string " ++ Text.shown value
  | sequence => "sequence"
  | map => "map"

inductive Construct where
  | value
  | string
  | object
  | list
deriving DecidableEq, Repr

def Construct.description : Construct → String
  | value => "a value"
  | string => "a string"
  | object => "an object"
  | list => "a list"

inductive ReadError where
  | expectedValue
  | expectedLiteral
  | expectedColon
  | expectedCommaOrClosing (construct : Construct)
  | nameNotString
  | trailingComma
  | trailingCharacters
  | invalidNumber
  | numberOutOfRange
  | invalidEscape
  | controlCharacter
  | loneSurrogate
  | unfinishedSurrogatePair
  | nestedTooDeep
  | endOfText (construct : Construct)
  | wrongType (found : Unexpected) (expected : String)
  | wrongValue (found : Unexpected) (expected : String)
  | wrongLength (found : Nat) (expected : String)
  | unknownVariant (name : String) (variants : List String)
  | missingMember (name : String)
  | repeatedMember (name : String)
deriving Repr

inductive ReadError.Category where
  | malformed
  | truncated
  | mismatched
deriving DecidableEq, Repr

namespace ReadError

def category : ReadError → Category
  | endOfText _ => .truncated
  | wrongType .. | wrongValue .. | wrongLength .. | unknownVariant .. | missingMember _ | repeatedMember _ =>
    .mismatched
  | _ => .malformed

/-- The choices for a name, of which there are at least three. -/
def choices (names : List String) : String :=
  "one of " ++ ", ".intercalate (names.map fun name => "`" ++ name ++ "`")

def message : ReadError → String
  | expectedValue => "expected value"
  | expectedLiteral => "expected ident"
  | expectedColon => "expected `:`"
  | expectedCommaOrClosing .object => "expected `,` or `\x7d`"
  | expectedCommaOrClosing _ => "expected `,` or `]`"
  | nameNotString => "key must be a string"
  | trailingComma => "trailing comma"
  | trailingCharacters => "trailing characters"
  | invalidNumber => "invalid number"
  | numberOutOfRange => "number out of range"
  | invalidEscape => "invalid escape"
  | controlCharacter => "control character (\\u0000-\\u001F) found while parsing a string"
  | loneSurrogate => "lone leading surrogate in hex escape"
  | unfinishedSurrogatePair => "unexpected end of hex escape"
  | nestedTooDeep => "recursion limit exceeded"
  | endOfText construct => "EOF while parsing " ++ construct.description
  | wrongType found expected => "invalid type: " ++ found.description ++ ", expected " ++ expected
  | wrongValue found expected => "invalid value: " ++ found.description ++ ", expected " ++ expected
  | wrongLength found expected => "invalid length " ++ toString found ++ ", expected " ++ expected
  | unknownVariant name variants => "unknown variant `" ++ name ++ "`, expected " ++ choices variants
  | missingMember name => "missing field `" ++ name ++ "`"
  | repeatedMember name => "duplicate field `" ++ name ++ "`"

end ReadError

end Listfile.Json
