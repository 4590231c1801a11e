import Fhk5.Except
import Fhk5.Ir
import Fhk5.Fold.Const
import Fhk5.Fold.Rules
import Fhk5.Fold.Visit
import Fhk5.Fold.Node
import Fhk5.Fold.Run
import Fhk5.Fold.Result
import Fhk5.Fold.Local
import Fhk5.Fold.Panic
import Fhk5.Fold.Renumber
import Fhk5.Fold.Canon
import Fhk5.Fold.Rerun
import Fhk5.Fold.Meaning
import Fhk5.Fold.Simulation
import Fhk5.Fold.Refold
import Fhk5.Fold.Comm
import Fhk5.Fold.Typed
import Fhk5.Fold.Debug
import Fhk5.Lang
import Fhk5.Optimize
import Fhk5.Optimize.Invariants
