/-!
# Settings of the log

What a log prints is decided by four variables of the environment. Three of them count by being set,
whatever they are set to. They are read once, when the program starts (`Settings`); only the mode is
looked at again while it runs.
-/

namespace StreamGrammar.Log

/-- The variables of the environment, each with its value if it is set. -/
structure Environment where
  /-- The mode in which the program runs. -/
  mode : Option String := none
  /-- Set to print nothing. -/
  quiet : Option String := none
  /-- Set to print details in production as well. -/
  verbose : Option String := none
  /-- Set to print the time of day. -/
  withTime : Option String := none
  deriving DecidableEq

/-- Whether the mode is production. -/
def Environment.inProduction (env : Environment) : Bool := env.mode == some "production"

/-- The settings that the environment makes at the start. -/
structure Settings where
  /-- The mode is that of tests. -/
  isTest : Bool
  /-- The mode is that of development. -/
  isDevelopment : Bool
  /-- The mode is that of production. -/
  isProduction : Bool
  /-- Nothing is printed. -/
  quiet : Bool
  /-- Details are printed in production as well. -/
  verbose : Bool
  /-- The time of day is printed. -/
  withTime : Bool
  deriving DecidableEq

/-- The settings of an environment. Tests are quiet. -/
def Settings.ofEnvironment (env : Environment) : Settings where
  isTest := env.mode == some "test"
  isDevelopment := env.mode == some "development"
  isProduction := env.mode == some "production"
  quiet := env.quiet.isSome || env.mode == some "test"
  verbose := env.verbose.isSome
  withTime := env.withTime.isSome

end StreamGrammar.Log
