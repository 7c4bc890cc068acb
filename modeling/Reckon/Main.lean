import Reckon.Service.CommandLine

/-!
# Program

Evaluates its arguments as one expression, with settings from the environment and draws
from the generator of the system.
-/

namespace Reckon.Main

attribute [local instance (high)] instPowNat

/-- A string as text. -/
def textOf (s : String) : Text := Text.ofString s

/-- A text as string; a code point that is no character becomes the replacement mark. -/
def stringOf (t : Text) : String :=
  String.ofList (t.map fun c => if c.val.isValidChar then Char.ofNat c.val else '\uFFFD')

/-- The environment variables that are settings. -/
def environment : IO (List (Text × Text)) := do
  let names := Setting.all.filterMap Setting.environmentName?
  let values ← names.mapM fun n => do return (n, ← IO.getEnv (stringOf n))
  return values.filterMap fun (n, v) => v.map fun s => (n, textOf s)

/-- A draw from zero up to one. -/
def draw : IO Double := do
  let n ← IO.rand 0 (2 ^ (53 : Nat) - 1)
  return Double.ofRatio false n (2 ^ (53 : Nat))

/-- The words for a refusal. -/
def refusal : CommandLine.Refusal → String
  | .signal .overflow => "overflow"
  | .signal .invalidOperation => "invalid operation"
  | .signal .stackExhausted => "stack exhausted"
  | .signal s => stringOf (s.message?.getD [])
  | .settings complaints =>
    "\n".intercalate (complaints.map fun (n, c) => stringOf (n ++ Text.ofString ": " ++ c.name))

end Reckon.Main

/-- Evaluates the arguments and writes the result. -/
def main (arguments : List String) : IO UInt32 := do
  let texts := arguments.map Reckon.Main.textOf
  let environment ← Reckon.Main.environment
  let draws ← (List.range (Reckon.CommandLine.expression texts).length).mapM
    fun _ => Reckon.Main.draw
  match Reckon.CommandLine.run environment (fun i => draws.getD i (.zero false)) texts with
  | .error r => do
    IO.eprintln (Reckon.Main.refusal r)
    return 1
  | .ok o => do
    IO.eprint (Reckon.Main.stringOf o.messages)
    IO.print (Reckon.Main.stringOf o.result)
    return UInt32.ofNat o.code
