import ShaderGraph.Settings

/-!
# Failures

A compilation fails on settings that admit no program and on a graph that has no order of
execution. Everything else is reported beside the program.
-/

namespace ShaderGraph

/-- Why there is no program. -/
inductive Failure where
  | settings (error : SettingsError)
  /-- The nodes that no order of execution can hold. -/
  | cycle (remaining : List String)
deriving DecidableEq

/-- The wording of a failure. -/
def Failure.message : Failure → String
  | .settings error => error.message
  | .cycle remaining => "graph contains a cycle involving nodes: " ++ ", ".intercalate remaining

end ShaderGraph
