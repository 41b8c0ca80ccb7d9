/-
# The commands

Each command reads a code object from its arguments, decodes it and prints what
it was asked for. An error is printed instead and the exit code is 1; arguments
that make no sense give exit code 2.

Key definitions: `CommandError`, `Outcome`, `CommandLine.run`.
-/
import Wordcode.CommandLine.Arguments
import Wordcode.CodeUnit
import Wordcode.Constant.Reading
import Wordcode.Hex
import Wordcode.InstructionSet.Tables

namespace Wordcode

/-- Why a command fails. -/
inductive CommandError where
  | unknownProfile (name : String)
  | emptyConstant
  | hex (error : Hex.DecodeError)
  | code (error : Error)
  /-- There is no instruction at the offset to trace from. -/
  | noInstruction (offset : Nat)
  /-- Decoding and encoding gave other bytes. -/
  | mismatch (expected found : List UInt8)

def CommandError.message : CommandError → String
  | .unknownProfile name => "unknown profile '" ++ name ++ "'"
  | .emptyConstant => "empty constant"
  | .hex e => e.message
  | .code e => e.message
  | .noInstruction offset => "no instruction at offset " ++ toString offset
  | .mismatch expected found =>
    "round trip changed the code: expected " ++ Hex.encode expected ++ ", got " ++ Hex.encode found

/-- What a run of the program leaves behind. -/
inductive Outcome where
  /-- The arguments make no sense. -/
  | usage
  /-- The text printed. -/
  | success (text : String)
  | failure (error : CommandError)

namespace Outcome

/-- The exit code. -/
def exitCode : Outcome → UInt32
  | .usage => 2
  | .success _ => 0
  | .failure _ => 1

/-- What is printed to standard output. -/
def output : Outcome → String
  | .success text => text
  | _ => ""

/-- What is printed to standard error, apart from advice on usage. -/
def errorOutput : Outcome → String
  | .failure e => "error: " ++ e.message ++ "\n"
  | _ => ""

end Outcome

namespace CommandLine

/-- The constants a user writes. -/
def constants : List String → Except CommandError (List Constant)
  | [] => .ok []
  | text :: rest =>
    match Constant.read? text with
    | none => .error .emptyConstant
    | some c => (constants rest).map (c :: ·)

/-- Bytes a user writes. -/
def bytes (text : String) : Except CommandError (List UInt8) := (Hex.decode text).mapError .hex

/-- The code object that the arguments describe. -/
def codeObject (a : Arguments) : Except CommandError CodeObject := do
  let consts ← constants a.consts
  let code ← bytes a.code
  let lineTable ← match a.lnotab with
    | some text => bytes text
    | none => pure []
  return {
    header := { Header.module with firstlineno := a.firstLine }
    code, lineTable
    pools := { constants := consts.toArray, names := a.names.toArray, locals := a.varnames.toArray,
               cells := a.cellvars.toArray, free := a.freevars.toArray } }

/-- The code object and the unit it decodes to. -/
def decoded (a : Arguments) : Except CommandError (CodeObject × CodeUnit) :=
  match InstructionSet.byName? a.profile with
  | none => .error (.unknownProfile a.profile)
  | some isa => do
    let object ← codeObject a
    let u ← (CodeUnit.decode isa object).mapError .code
    return (object, u)

/-- The unit after encoding, and the code object it gave. -/
def encoded (u : CodeUnit) : Except CommandError (CodeUnit × CodeObject) :=
  match u.encode with
  | (_, .error e) => .error (.code e)
  | (u, .ok (object, _)) => .ok (u, object)

/-- A command line has no code objects for constants to refer to. -/
def noNames (_ : Nat) : String := ""

/-- A line of text. -/
def line (s : String) : String := s ++ "\n"

def disassemble (a : Arguments) : Except CommandError String := do
  let (_, u) ← decoded a
  return u.listing noNames

/-- The bytes of the code must come back, and those of the line table if it was
given. -/
def roundtrip (a : Arguments) : Except CommandError String := do
  let (object, u) ← decoded a
  let (_, result) ← encoded u
  if result.code ≠ object.code then .error (.mismatch object.code result.code)
  else if a.lnotab.isSome ∧ result.lineTable ≠ object.lineTable then
    .error (.mismatch object.lineTable result.lineTable)
  else return line (Hex.encode result.code) ++
    line ("identical (" ++ toString result.code.length ++ " bytes)")

def optimise (a : Arguments) : Except CommandError String := do
  let (_, u) ← decoded a
  let (u, result) ← encoded u.optimise
  let lnotab := if result.lineTable.isEmpty then "" else line ("lnotab: " ++ Hex.encode result.lineTable)
  return line (Hex.encode result.code) ++ lnotab ++ u.listing noNames

/-- The instruction at an offset, extension units apart. -/
def instructionAt? (u : CodeUnit) (index : PredecessorIndex) (offset : Nat) : Option NodeId :=
  index.reachable.find? fun n =>
    (u.graph.node n).offset == some offset && !(u.graph.node n).isExtension u.isa

/-- Shows an instruction by offset and name. -/
def found (u : CodeUnit) (n : NodeId) : String :=
  let node := u.graph.node n
  line (Listing.padLeft 6 (Listing.numberOr "-" node.offset) ++ " " ++ u.isa.opcodeName node.opcode)

def trace (a : Arguments) : Except CommandError String := do
  let (_, u) ← decoded a
  let (index, u) := u.indexed
  match instructionAt? u index a.offset with
  | none => .error (.noInstruction a.offset)
  | some n =>
    let nodes := if a.consumers then u.consumers n a.depth else (u.producers n a.depth).1
    return if nodes.isEmpty then line "unknown" else String.join (nodes.map (found u))

/-- Runs a command. -/
def execute (command : Command) (a : Arguments) : Except CommandError String :=
  match command with
  | .disassemble => disassemble a
  | .roundtrip => roundtrip a
  | .optimise => optimise a
  | .trace => trace a

/-- Runs the program with its arguments. -/
def run (args : List String) : Outcome :=
  match args with
  | [] => .usage
  | name :: rest =>
    match Command.ofName? name with
    | none => .usage
    | some command =>
      match Arguments.read? command rest with
      | none => .usage
      | some a =>
        match execute command a with
        | .ok text => .success text
        | .error e => .failure e

end CommandLine

end Wordcode
