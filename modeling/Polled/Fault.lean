import Polled.Comparison
import Polled.Kind
import Polled.Span

/-!
What can go wrong, and the words for it.

Each cause is a constructor with what its message has to name.
-/

namespace Polled

inductive Category where
  | grammar
  | lookup
  | typing
  | shape
  | loading
  | manifest
  | output
  deriving DecidableEq, Repr

def Category.label : Category → String
  | .grammar => "Syntax"
  | .lookup => "Lookup"
  | .typing => "Type"
  | .shape => "Shape"
  | .loading => "Module"
  | .manifest => "Manifest"
  | .output => "Output"

def Category.word : Category → String
  | .grammar => "syntax"
  | .lookup => "lookup"
  | .typing => "type"
  | .shape => "shape"
  | .loading => "module"
  | .manifest => "manifest"
  | .output => "output"

/-- Places in a program where exactly one value is wanted. -/
inductive ValueUse where
  | ifCondition
  | whileCondition
  | tupleItem
  | argument
  | leftOf (op : Comparison)
  | rightOf (op : Comparison)
  deriving DecidableEq, Repr

def ValueUse.phrase : ValueUse → String
  | .ifCondition => "as an `if` condition"
  | .whileCondition => "as a `while` condition"
  | .tupleItem => "inside a tuple"
  | .argument => "as a call argument"
  | .leftOf op => s!"on the left of `{op.symbol}`"
  | .rightOf op => s!"on the right of `{op.symbol}`"

inductive Conditional where
  | branch
  | loop
  deriving DecidableEq, Repr

def Conditional.word : Conditional → String
  | .branch => "if"
  | .loop => "while"

/-- Faults that belong to a place in the source. -/
inductive SourceFault where
  | integerOutOfRange (literal : String)
  | unterminatedString
  | unexpectedCharacter (character : String)
  | expected (what found : String)
  | lateImport
  | nativeWithBody (function : String)
  | missingBody (function : String)
  | unknownKind (name : String)
  | kindWithoutArguments (name : String)
  | unclosedBlock
  | duplicateParameter (parameter function : String)
  | alreadyDefined (function inModule : String)
  | moduleMissing (name importer : String)
  | unknownFunction (name : String)
  | unknownVariable (name : String)
  | argumentCount (function : String) (wanted actual : Nat)
  | argumentKind (parameter function : String) (clash : Kind.Clash)
  | threadedKind (name function : String) (clash : Kind.Clash)
  | returnCount (function : String) (wanted actual : Nat)
  | returnKind (position : Nat) (clash : Kind.Clash)
  | returnedTwice
  | missingAfterArm (name : String) (onTrue : Bool)
  | armKinds (name : String) (clash : Kind.Clash)
  | operandKind (op : Comparison) (clash : Kind.Clash)
  | conditionKind (statement : Conditional) (clash : Kind.Clash)
  | movedByCondition (name : String)
  | movedInLoop (name : String)
  | loopKind (name : String) (clash : Kind.Clash)
  | nothingToHandBack (function : String) (position : Nat) (name : String)
  | missingReturn (function : String)
  | unreachable
  | bindingCount (values names : Nat)
  | unusedValues (count : Nat)
  | returnInLoop
  | valueCount (use : ValueUse) (count : Nat)
  | stated (category : Category) (message : String)
  deriving DecidableEq, Repr

namespace SourceFault

def category : SourceFault → Category
  | .integerOutOfRange _ | .unterminatedString | .unexpectedCharacter _ | .expected _ _ | .lateImport
  | .nativeWithBody _ | .missingBody _ | .unknownKind _ | .kindWithoutArguments _ | .unclosedBlock
  | .duplicateParameter _ _ => .grammar
  | .alreadyDefined _ _ | .moduleMissing _ _ | .unknownFunction _ | .unknownVariable _ => .lookup
  | .argumentCount _ _ _ | .argumentKind _ _ _ | .threadedKind _ _ _ | .returnCount _ _ _
  | .returnKind _ _ | .returnedTwice | .missingAfterArm _ _ | .armKinds _ _ | .operandKind _ _
  | .conditionKind _ _ | .movedByCondition _ | .movedInLoop _ | .loopKind _ _ => .typing
  | .nothingToHandBack _ _ _ | .missingReturn _ | .unreachable | .bindingCount _ _ | .unusedValues _
  | .returnInLoop | .valueCount _ _ => .shape
  | .stated category _ => category

def message : SourceFault → String
  | .integerOutOfRange literal => s!"integer literal `{literal}` is out of range"
  | .unterminatedString => "unterminated string literal"
  | .unexpectedCharacter character => s!"unexpected character '{character}'"
  | .expected what found => s!"expected {what}, found {found}"
  | .lateImport => "imports must come before function declarations"
  | .nativeWithBody function => s!"native function `{function}` cannot have a body"
  | .missingBody function => s!"function `{function}` is missing a body"
  | .unknownKind name => s!"unknown type `{name}`"
  | .kindWithoutArguments name => s!"type `{name}` does not take arguments"
  | .unclosedBlock => "unclosed block, expected \x7d"
  | .duplicateParameter parameter function =>
    s!"duplicate parameter `{parameter}` in function `{function}`"
  | .alreadyDefined function inModule =>
    s!"function `{function}` is already defined in module `{inModule}`"
  | .moduleMissing name importer => s!"module `{name}` not found (imported by `{importer}`)"
  | .unknownFunction name => s!"unknown function `{name}`"
  | .unknownVariable name => s!"unknown variable `{name}`"
  | .argumentCount function wanted actual =>
    s!"argument count mismatch calling `{function}`, expecting {wanted}, got {actual}"
  | .argumentKind parameter function clash =>
    s!"argument `{parameter}` of `{function}`: {clash.message}"
  | .threadedKind name function clash =>
    s!"borrowed variable `{name}` changes type across `{function}`: {clash.message}"
  | .returnCount function wanted actual =>
    s!"return value count mismatch in `{function}`, expecting {wanted}, got {actual}"
  | .returnKind position clash => s!"return value {position}: {clash.message}"
  | .returnedTwice => "owned value is returned more than once"
  | .missingAfterArm name onTrue =>
    let arm := if onTrue then "true" else "false"
    s!"local variable `{name}` is missing after the {arm} branch of `if`"
  | .armKinds name clash =>
    s!"variable `{name}` has different types on the two branches of `if`: {clash.message}"
  | .operandKind op clash => s!"operand of `{op.symbol}`: {clash.message}"
  | .conditionKind statement clash => s!"`{statement.word}` condition: {clash.message}"
  | .movedByCondition name =>
    s!"captured variable `{name}` is moved by the `while` condition"
  | .movedInLoop name =>
    s!"captured variable `{name}` is moved inside the loop and never re-bound"
  | .loopKind name clash => s!"variable `{name}` changes type inside the loop: {clash.message}"
  | .nothingToHandBack function position name =>
    s!"`{function}` has no result at position {position} to hand back to `{name}`"
  | .missingReturn function => s!"function `{function}` does not return on every path"
  | .unreachable => "unreachable statement after `return`"
  | .bindingCount values names => s!"cannot bind {values} value(s) to {names} name(s)"
  | .unusedValues count => s!"expected no values from an expression statement, got {count}"
  | .returnInLoop => "`return` is not allowed inside a `while` loop"
  | .valueCount use count => s!"expected a single value {use.phrase}, got {count}"
  | .stated _ message => message

end SourceFault

/-- Faults of a set of modules as a whole. -/
inductive ProgramFault where
  | entryMissing (name : String)
  | unreadable (path reason : String)
  | mainMissing (entry : String)
  | stated (message : String)
  deriving DecidableEq, Repr

def ProgramFault.message : ProgramFault → String
  | .entryMissing name => s!"module `{name}` not found"
  | .unreadable path reason => s!"could not read '{path}': {reason}"
  | .mainMissing entry => s!"no main function defined in `{entry}` or its imports"
  | .stated message => message

def manifestFile : String := "hang10.toml"

inductive ManifestFault where
  | absent (directory : String)
  | unreadable (reason : String)
  | malformed
  | packageMissing
  | nameMissing
  | nameEmpty
  | entryName (entry : String)
  | nothingEmitted
  | stated (message : String)
  deriving DecidableEq, Repr

def ManifestFault.message : ManifestFault → String
  | .absent directory => s!"no {manifestFile} in '{directory}'"
  | .unreadable reason => s!"{manifestFile}: could not read file: {reason}"
  | .malformed => s!"{manifestFile}: invalid syntax"
  | .packageMissing => s!"{manifestFile}: missing [package] section"
  | .nameMissing => s!"{manifestFile}: missing 'name' in [package]"
  | .nameEmpty => s!"{manifestFile}: package name must not be empty"
  | .entryName entry => s!"{manifestFile}: entry '{entry}' is not a module name"
  | .nothingEmitted => s!"{manifestFile}: 'emit' must name at least one output"
  | .stated message => message

inductive OutputFault where
  | moduleFileName (path : String)
  | directory (path reason : String)
  | file (path reason : String)
  | stated (message : String)
  deriving DecidableEq, Repr

def OutputFault.message : OutputFault → String
  | .moduleFileName path => s!"'{path}' is not a valid module file name"
  | .directory path reason => s!"could not create '{path}': {reason}"
  | .file path reason => s!"could not write '{path}': {reason}"
  | .stated message => message

/-- An error of the compiler, possibly under the functions that were being generated. -/
inductive CompileError where
  | source (fault : SourceFault) (span : Span)
  | program (fault : ProgramFault)
  | manifest (fault : ManifestFault) (path : String)
  | output (fault : OutputFault)
  | inFunction (name : String) (cause : CompileError)
  deriving DecidableEq, Repr

namespace CompileError

def root : CompileError → CompileError
  | .inFunction _ cause => cause.root
  | e => e

def category : CompileError → Category
  | .source fault _ => fault.category
  | .program _ => .loading
  | .manifest _ _ => .manifest
  | .output _ => .output
  | .inFunction _ cause => cause.category

def bareMessage : CompileError → String
  | .source fault _ => fault.message
  | .program fault => fault.message
  | .manifest fault _ => fault.message
  | .output fault => fault.message
  | .inFunction _ cause => cause.bareMessage

/-- The wording with its category and every enclosing function, outermost first. -/
def message : CompileError → String
  | .inFunction name cause => s!"in function `{name}`: {cause.message}"
  | e => s!"{e.category.label} error: {e.bareMessage}"

def span? : CompileError → Option Span
  | .source _ span => some span
  | .inFunction _ cause => cause.span?
  | _ => none

/-- Gives a place to an error that was raised without one. -/
def withPlace (outer : Span) : CompileError → CompileError
  | .source fault span => .source fault (if span.isNowhere then outer else span)
  | .inFunction name cause => .inFunction name (cause.withPlace outer)
  | e => e

def function? : CompileError → Option String
  | .inFunction name _ => some name
  | _ => none

end CompileError

end Polled
