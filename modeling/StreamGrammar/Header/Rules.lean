import StreamGrammar.Header.Param
import StreamGrammar.Rule.Core

/-!
# The rules of signature headers

A `Signature` header is a list of parameters with commas between them, and an `Authorization` header
is the word `Signature`, a space and such a list:

    params = param *( "," param )
    param  = 1*ALPHA "=" ( DQUOTE 1*( %x20-21 / %x23-7E ) DQUOTE / 1*DIGIT )

The list has nothing that ends it. On input that may grow it is therefore undecided after every
parameter until the next byte shows whether a comma follows.
-/

namespace StreamGrammar.Header

open Rule

/-- The equals sign between a key and its value. -/
def equals : Literal := { codes := [0x3D] }

/-- The comma between parameters. -/
def comma : Literal := { codes := [0x2C] }

/-- The name of the scheme, in any case of letters. -/
def scheme : Literal := { codes := [0x53, 0x69, 0x67, 0x6E, 0x61, 0x74, 0x75, 0x72, 0x65] }

/-- The input that one or more of `body` match. -/
def oneOrMore (label : String) (body : Rule) : Rule := captured (plus (Datum.atLeastOne label) body)

/-- The key of a parameter. -/
def key : Rule := oneOrMore "ALPHA" alpha

/-- A character between quotes. -/
def quotedCharacter : Rule := alternation (range 0x20 0x21 none) [range 0x23 0x7E none]

/-- A value in quotes; yields what is between them. -/
def quotedValue : Rule :=
  map (Datum.item 1) (concatenation [dquote, oneOrMore "quoted character" quotedCharacter, dquote])

/-- A value of digits. -/
def numberValue : Rule := oneOrMore "DIGIT" digit

/-- The parameter whose parts are a key, an equals sign and a value. -/
def paramOfParts (parts : Datum) : Datum := Param.record (parts.item 0) (parts.item 2)

/-- A parameter. -/
def param : Rule :=
  map paramOfParts (concatenation [key, literal equals, alternation quotedValue [numberValue]])

/-- A list of parameters. -/
def params : Rule := sepBy param (literal comma)

/-- The word `Signature`, a space and a list of parameters. -/
def authorization : Rule :=
  map (Datum.item 2) (concatenation [literal scheme, sp, params])

end StreamGrammar.Header
