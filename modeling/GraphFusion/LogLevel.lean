/-!
Importance of what compilation and the store report.
-/

namespace GraphFusion

inductive LogLevel where
  | info
  | debug
  | trace
  deriving DecidableEq, Inhabited

namespace LogLevel

def name : LogLevel → String
  | info => "INFO"
  | debug => "DEBUG"
  | trace => "TRACE"

end LogLevel

end GraphFusion
