import NixEvalJobs.Basic

/-!
# nix-eval-jobs — derivations

What the program reads and writes of a `nix::Derivation`: its outputs, its input
derivations with the outputs wanted of each, and its environment. The outputs
wanted of dynamic outputs (`childMap`) are not used here.
-/

namespace NixEvalJobs

/-- `DerivationOutput`; the path of a fixed output follows from its hash. -/
inductive DerivationOutput where
  | inputAddressed (path : StorePath)
  | caFixed (path : StorePath)
  | caFloating
  | deferred
  | impure
  deriving DecidableEq

/-- `DerivationOutput::path`, when it is known without building. -/
def DerivationOutput.path : DerivationOutput → Option StorePath
  | .inputAddressed path => some path
  | .caFixed path => some path
  | .caFloating | .deferred | .impure => none

/-- `ContentAddressed` without a fixed hash, or `Impure`: the path follows from what is
built, whatever the inputs are. -/
def DerivationOutput.Floats : DerivationOutput → Prop
  | .caFloating | .impure => True
  | .inputAddressed _ | .caFixed _ | .deferred => False

/-- `DerivationOutput::CAFixed`. -/
def DerivationOutput.IsFixed : DerivationOutput → Prop
  | .caFixed _ => True
  | .inputAddressed _ | .caFloating | .deferred | .impure => False

instance (output : DerivationOutput) : Decidable output.Floats := by
  cases output <;> unfold DerivationOutput.Floats <;> infer_instance

instance (output : DerivationOutput) : Decidable output.IsFixed := by
  cases output <;> unfold DerivationOutput.IsFixed <;> infer_instance

/-- What is read and written of a `nix::Derivation`. -/
structure Derivation where
  outputs : StdMap Str DerivationOutput
  inputDrvs : StdMap StorePath (StdSet Str) := ∅
  env : StdMap Str Str := ∅

/-- `DerivationType::isFixed`: the hash of every output is given. -/
def Derivation.Fixed (drv : Derivation) : Prop :=
  ∀ (name : Str) output, drv.outputs[name]? = some output → output.IsFixed

/-- `outputsAndOptPaths`. -/
def Derivation.outputsAndOptPaths (drv : Derivation) : StdMap Str (Option StorePath) :=
  drv.outputs.map fun _ output => output.path

end NixEvalJobs
