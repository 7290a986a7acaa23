import Polled.Fault
import Polled.Surface

/-!
Signatures of all functions of a program.
-/

namespace Polled

structure Signature where
  name : String
  home : String
  isSync : Bool
  isNative : Bool
  params : List (String × Kind)
  returns : List Kind
  span : Span
  deriving DecidableEq, Repr

inductive CallMode where
  | inPlace
  | scheduled
  deriving DecidableEq, Repr

def Signature.strategy (s : Signature) : CallMode :=
  if s.isSync then .inPlace else .scheduled

/-- Signatures in the order of their declarations, one for each name. -/
structure SignatureTable where
  entries : List Signature
  deriving DecidableEq, Repr

namespace SignatureTable

def empty : SignatureTable := ⟨[]⟩

def size (t : SignatureTable) : Nat := t.entries.length

def lookup? (t : SignatureTable) (name : String) : Option Signature := t.entries.find? (·.name == name)

def contains (t : SignatureTable) (name : String) : Bool := (t.lookup? name).isSome

def declare (t : SignatureTable) (s : Signature) : Except CompileError SignatureTable :=
  match t.lookup? s.name with
  | some prior => .error (.source (.alreadyDefined s.name prior.home) s.span)
  | none => .ok ⟨t.entries ++ [s]⟩

/-- The first parameter that has the name of an earlier one. -/
def repeated? : List String → List Param → Option (Located String)
  | _, [] => none
  | seen, p :: ps =>
    if seen.contains p.name.node then some p.name else repeated? (p.name.node :: seen) ps

def declareDecl (home : String) (t : SignatureTable) (d : Decl) : Except CompileError SignatureTable :=
  match repeated? [] d.params with
  | some p => .error (.source (.duplicateParameter p.node d.name.node) p.span)
  | none =>
    t.declare ⟨d.name.node, home, d.isSync, d.isNative, d.typedParams, d.returnKinds, d.name.span⟩

end SignatureTable

end Polled
