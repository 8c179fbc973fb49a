import Souper.Inst.Basic
import Souper.Inst.Graph
import Souper.Inst.Copy
import Souper.Inst.Eval
import Souper.Inst.Subst
import Souper.Inst.Builder
import Souper.Inst.Canonical
import Souper.Generalize.Basic
import Souper.Generalize.Collect
import Souper.Generalize.Reduce
import Souper.Generalize.Memo
import Souper.Generalize.Fixit
import Souper.Generalize.Width
import Souper.Generalize.Symbolize
import Souper.Generalize.Sound
import Souper.Generalize.Main
import Souper.MatcherGen.Basic
import Souper.MatcherGen.Symbols
import Souper.MatcherGen.Main
import Souper.MatcherGen.Braces
import Souper.Pdl.Generator
import Souper.Infix.Printer
import Souper.Infix.Bindings
import Souper.Go.Printer
import Souper.Pdl.Braces
