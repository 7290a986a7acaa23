import Polled.Activation.Control
import Polled.Activation.Registers
import Polled.Signature

/-!
What the compiler reports about its work while it goes on.
-/

namespace Polled

inductive Event where
  | moduleLoaded (name : String) (file functions : Nat)
  | callLowered (function callee : String) (strategy : CallMode)
  | freed (function : String) (register : Register) (condition : Condition)
  | armsJoined (function name : String) (register : Register)
  | loopLowered (function closure : String) (captures : Nat)
  | functionGenerated (function : String) (ops registers closures : Nat)
  | outputWritten (path : String)
  deriving DecidableEq, Repr

inductive Verbosity where
  | warnings
  | progress
  | details
  | everything
  deriving DecidableEq, Repr

def Verbosity.ofCount : Nat → Verbosity
  | 0 => .warnings
  | 1 => .progress
  | 2 => .details
  | _ => .everything

namespace Event

/-- Single steps of generation are reported only when everything is. -/
def isFine : Event → Bool
  | .callLowered _ _ _ | .freed _ _ _ | .armsJoined _ _ _ | .loopLowered _ _ _ => true
  | _ => false

def isShown (v : Verbosity) (e : Event) : Bool :=
  match v with
  | .warnings | .progress => false
  | .details => !e.isFine
  | .everything => true

/-- The part of the compiler that reports the event. -/
def origin : Event → String
  | .moduleLoaded _ _ _ => "hang10::modules"
  | .callLowered _ _ _ => "hang10::codegen::calls"
  | .freed _ _ _ => "hang10::codegen::cleanup"
  | .armsJoined _ _ _ => "hang10::codegen::lower"
  | .loopLowered _ _ _ => "hang10::codegen::loops"
  | .functionGenerated _ _ _ _ => "hang10::codegen"
  | .outputWritten _ => "hang10"

def message : Event → String
  | .moduleLoaded name file functions =>
    s!"loaded module module={name} file_id={file} functions={functions}"
  | .callLowered function callee strategy =>
    let word := match strategy with
      | .inPlace => "Inline"
      | .scheduled => "Scheduled"
    s!"lowering call function={function} callee={callee} strategy={word}"
  | .freed function register condition =>
    s!"freeing unreachable register function={function} register=r{register} condition=c{condition}"
  | .armsJoined function name register =>
    s!"joined branch binding function={function} name={name} register=r{register}"
  | .loopLowered function closure captures =>
    s!"synthesized loop closure function={function} closure={closure} captures={captures}"
  | .functionGenerated function ops registers closures =>
    s!"generated function function={function} ops={ops} registers={registers} closures={closures}"
  | .outputWritten path => s!"wrote output path={path}"

def line (e : Event) : String :=
  let level := if e.isFine then "TRACE" else "DEBUG"
  s!"{level} {e.origin}: {e.message}"

end Event

end Polled
