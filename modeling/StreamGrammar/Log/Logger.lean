import StreamGrammar.Log.Clock
import StreamGrammar.Log.Colour
import StreamGrammar.Log.Settings
import StreamGrammar.Report

/-!
# Loggers

A logger has a name and may have a parent, so that loggers form trees. What is logged is an `Entry`:
a level, a message, and data. It is printed as one `Line`, which names all loggers from the root of
the tree down to the one that was called; or not at all, if the settings say so.

The type `δ` is that of the values in the data.
-/

namespace StreamGrammar.Log

/-- How important an entry is. -/
inductive Level where
  /-- Processing cannot go on. -/
  | error
  /-- Processing can go on, but something should be mended. -/
  | warning
  /-- Details that a developer needs and a user does not. -/
  | debug
  /-- News. -/
  | info
  deriving DecidableEq

/-- Something to be logged. -/
structure Entry (δ : Type) where
  /-- How important it is. -/
  level : Level
  /-- What has happened. -/
  message : String
  /-- Named values that go with the message, if any. -/
  data : Option (List (String × δ)) := none

/-- Gives the field of a name a value, in place of the one it had. -/
def setField {δ : Type} (name : String) (value : δ) (data : List (String × δ)) :
    List (String × δ) := data.filter (·.1 != name) ++ [(name, value)]

/-- The entry of an error, which is added to the data under the name `e`. -/
def Entry.ofReport {δ : Type} (report : Report) (error : δ) (data : Option (List (String × δ))) :
    Entry δ where
  level := .error
  message := report.text
  data := some (setField "e" error (data.getD []))

/-- The name of a logger, and the colour in which it is printed. -/
structure Label where
  /-- The name. -/
  name : String
  /-- The colour, if it has one of its own. -/
  colour : Option Colour := none
  deriving DecidableEq

/-- A logger. -/
inductive Logger where
  /-- A logger without a parent. -/
  | root (label : Label)
  /-- A logger below another one. -/
  | sub (parent : Logger) (label : Label)
  deriving DecidableEq

/-- The labels from the root down to a logger, followed by those in `below`. -/
def Logger.pathOnto : Logger → List Label → List Label
  | root label, below => label :: below
  | sub parent label, below => parent.pathOnto (label :: below)

/-- The labels from the root down to a logger. -/
def Logger.path (logger : Logger) : List Label := logger.pathOnto []

/-- What is printed: a text and the data behind it. -/
structure Line (δ : Type) where
  /-- The text. -/
  text : String
  /-- The data behind the text, if there are any. -/
  data : Option (List (String × δ))

/-- Where and when something is logged. -/
structure Scene where
  /-- The settings made at the start. -/
  settings : Settings
  /-- The environment as it is now. -/
  live : Environment
  /-- What the terminal can show. -/
  depth : Depth := .plain
  /-- The moment, in milliseconds since the epoch. -/
  now : Int := 0

/-- The tag that stands in front of a line. -/
def Level.tag (depth : Depth) : Level → String
  | error => Style.red.paint depth "ERR "
  | warning => Style.yellow.paint depth "WARN"
  | debug => Style.gray.paint depth "VERB"
  | info => Style.blue.paint depth "INFO"

/-- A message as it is printed at a level. -/
def Level.paint (depth : Depth) (message : String) : Level → String
  | error => Style.red.paint depth message
  | warning => Style.yellow.paint depth message
  | debug => Style.gray.paint depth message
  | info => message

/-- The name of a logger as it is printed. -/
def Label.text (depth : Depth) (label : Label) : String :=
  match label.colour with
  | some colour => (Style.colour colour).paint depth label.name
  | none => Style.white.paint depth label.name

/-- Whether an entry of a level is printed. -/
def Scene.prints (scene : Scene) (level : Level) : Bool :=
  !scene.settings.quiet &&
    !(level = .debug && scene.live.inProduction && !scene.settings.verbose)

/-- The text of a line. -/
def Scene.lineText (scene : Scene) (path : List Label) (level : Level) (message : String) :
    String :=
  let names := " ".intercalate (path.map (Label.text scene.depth))
  let text := "\t".intercalate
    [level.tag scene.depth, "[" ++ names ++ "]", level.paint scene.depth message]
  if scene.settings.withTime then
    Style.gray.paint scene.depth (timeOfDay scene.now) ++ " " ++ text
  else text

/-- The line that an entry makes in a logger, if it is printed. -/
def Logger.line {δ : Type} (logger : Logger) (scene : Scene) (entry : Entry δ) :
    Option (Line δ) :=
  if scene.prints entry.level then
    some ⟨scene.lineText logger.path entry.level entry.message, entry.data⟩
  else none

end StreamGrammar.Log
