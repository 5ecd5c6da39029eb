/-! # Log lines -/

namespace FlowGraph

inductive LogLevel where
  | trace
  | debug
  | warn
deriving DecidableEq, Repr, Inhabited

def LogLevel.name : LogLevel → String
  | trace => "trace"
  | debug => "debug"
  | warn => "warn"

structure LogLine where
  level : LogLevel
  message : String
deriving DecidableEq, Repr, Inhabited

def LogLine.text (l : LogLine) : String := l.level.name ++ ": " ++ l.message

end FlowGraph
