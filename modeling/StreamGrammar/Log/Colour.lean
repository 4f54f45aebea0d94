/-!
# Colours

Text in colour for a terminal. A colour is switched on by an escape code before the text and off by
another one behind it. The code that switches off is the same for all colours, so where the text
holds it already, the colour is switched on again behind it; and no colour runs across a line break.
-/

namespace StreamGrammar.Log

/-- What a terminal can show. -/
inductive Depth where
  /-- No colours. -/
  | plain
  /-- The sixteen basic colours. -/
  | basic
  /-- The palette of 256 colours. -/
  | palette
  /-- Any mixture of red, green and blue. -/
  | mixture
  deriving DecidableEq

/-- The colours that a logger's name may have. -/
inductive Colour where
  | cyan | red | green | blue | yellow | magenta | white | black | gray | orange
  deriving DecidableEq

namespace Colour

/-- The number of the basic colour that comes closest. -/
def basicCode : Colour → Nat
  | cyan => 96 | red => 91 | green => 32 | blue => 94 | yellow => 93
  | magenta => 95 | white => 97 | black => 30 | gray => 37 | orange => 93

/-- The number of the palette's colour that comes closest. -/
def paletteCode : Colour → Nat
  | cyan => 51 | red => 196 | green => 34 | blue => 21 | yellow => 226
  | magenta => 201 | white => 231 | black => 16 | gray => 244 | orange => 214

/-- The parts of red, green and blue. -/
def mixtureCode : Colour → Nat × Nat × Nat
  | cyan => (0, 255, 255) | red => (255, 0, 0) | green => (0, 128, 0)
  | blue => (0, 0, 255) | yellow => (255, 255, 0) | magenta => (255, 0, 255)
  | white => (255, 255, 255) | black => (0, 0, 0) | gray => (128, 128, 128)
  | orange => (255, 165, 0)

end Colour

/-- How a piece of text is coloured. -/
inductive Style where
  /-- A basic colour by its number, at every depth. -/
  | basic (code : Nat)
  /-- A colour as close as the depth allows. -/
  | colour (colour : Colour)
  deriving DecidableEq

namespace Style

/-- Basic red. -/
def red : Style := basic 31

/-- Basic yellow. -/
def yellow : Style := basic 33

/-- Basic blue. -/
def blue : Style := basic 34

/-- Basic white. -/
def white : Style := basic 37

/-- Basic gray. -/
def gray : Style := basic 90

/-- An escape code with the given parameters. -/
def escape (parameters : String) : String := "\x1b[" ++ parameters ++ "m"

/-- The code that switches a style on. -/
def opening (depth : Depth) : Style → String
  | basic code => escape (toString code)
  | colour c =>
    match depth with
    | .plain => ""
    | .basic => escape (toString c.basicCode)
    | .palette => escape ("38;5;" ++ toString c.paletteCode)
    | .mixture =>
      let (r, g, b) := c.mixtureCode
      escape ("38;2;" ++ toString r ++ ";" ++ toString g ++ ";" ++ toString b)

/-- The code that switches every style off. -/
def closing : String := escape "39"

end Style

/-- Puts `again` behind each occurrence of `mark`, from left to right. The first `skip` characters
are those of an occurrence that has been written already. -/
def reopen (mark again : List Char) : Nat → List Char → List Char
  | _, [] => []
  | 0, c :: cs =>
    if mark.isPrefixOf (c :: cs) then mark ++ again ++ reopen mark again (mark.length - 1) cs
    else c :: reopen mark again 0 cs
  | skip + 1, _ :: cs => reopen mark again skip cs

/-- Puts `before` in front of each line break and `after` behind it. -/
def surroundBreaks (before after : List Char) : List Char → List Char
  | [] => []
  | '\r' :: '\n' :: cs => before ++ '\r' :: '\n' :: (after ++ surroundBreaks before after cs)
  | '\n' :: cs => before ++ '\n' :: (after ++ surroundBreaks before after cs)
  | c :: cs => c :: surroundBreaks before after cs

/-- Text in a style. Without colours, and where there is nothing to colour, it stays as it is. -/
def Style.paint (depth : Depth) (style : Style) (text : String) : String :=
  if depth = .plain ∨ text = "" then text
  else
    let on := style.opening depth
    let body := reopen closing.toList on.toList 0 text.toList
    on ++ String.ofList (surroundBreaks closing.toList on.toList body) ++ closing

end StreamGrammar.Log
