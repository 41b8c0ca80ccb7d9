/-
# The instruction sets of the 3.8 and 3.10 interpreters

Most numbers mean the same in both (`shared`); each version adds its own and
the later one takes over a few numbers of the earlier one. In 3.8 jumps count
bytes and line tables are `lnotab`; in 3.10 jumps count instructions and line
tables list address ranges.

Key definitions: `InstructionSet.python38`, `InstructionSet.python310`,
`InstructionSet.byName?`.
-/
import Wordcode.InstructionSet

namespace Wordcode

namespace OpcodeInfo

/-- An opcode without operand. -/
def plain (name : String) (effect : StackEffect) (flags : Flags := {}) : OpcodeInfo :=
  { name, flags, operand := .none, effect := .fixed effect }

/-- An opcode whose operand is a plain number that leaves the effect alone. -/
def number (name : String) (effect : StackEffect) : OpcodeInfo :=
  { name, flags := { hasArgument := true }, operand := .raw, effect := .fixed effect }

/-- An opcode whose operand is a plain number that decides the effect. -/
def counted (name : String) (effect : Nat → StackEffect) : OpcodeInfo :=
  { name, flags := { hasArgument := true }, operand := .raw, effect := .computed effect }

/-- An opcode whose operand is a pool index. -/
def pooled (name : String) (operand : OperandKind) (effect : StackEffect) : OpcodeInfo :=
  { name, flags := { hasArgument := true }, operand, effect := .fixed effect }

/-- A jump; its flags give the addressing. -/
def jump (name : String) (flags : Flags) (effect : EffectRule) : OpcodeInfo where
  name
  flags := { flags with hasArgument := true }
  operand := if flags.jumpAbsolute then .absoluteJump else .relativeJump
  effect

end OpcodeInfo

namespace InstructionSet

open OpcodeInfo

/-- Pops `popped` values, then pushes `pushed` new ones. -/
def pushPop (pushed popped : Nat) : StackEffect := ⟨pushed, popped, []⟩

/-- The largest 32 bit number; stack effects of huge operands stop there. -/
def largest : Nat := UInt32.size - 1

/-- Collects as many values as the operand says into one. -/
def collect (count : Nat) : StackEffect := pushPop 1 count

/-- Looks at the top of the stack and pushes something about it. -/
def peek : StackEffect := ⟨2, 1, [none, some 0]⟩

/-- The table in which each listed number has its description, the last one
listed if there are several, and every other number is unknown. -/
def tableOf (entries : List (Nat × OpcodeInfo)) : Vector OpcodeInfo 256 :=
  entries.foldl (fun table entry => table.setIfInBounds entry.1 entry.2)
    (Vector.replicate 256 .unknown)

/-- Moves and copies of the values on top of the stack. -/
def stackMoves : List (Nat × OpcodeInfo) := [
  (1, plain "POP_TOP" (pushPop 0 1)),
  (2, plain "ROT_TWO" ⟨2, 2, [some 1, some 0]⟩),
  (3, plain "ROT_THREE" ⟨3, 3, [some 1, some 2, some 0]⟩),
  (6, plain "ROT_FOUR" ⟨4, 4, [some 1, some 2, some 3, some 0]⟩),
  (4, plain "DUP_TOP" ⟨2, 1, [some 0, some 0]⟩),
  (5, plain "DUP_TOP_TWO" ⟨4, 2, [some 0, some 1, some 0, some 1]⟩),
  (9, plain "NOP" .nothing { noOp := true })]

/-- Operations that replace the top of the stack. -/
def unaries : List (Nat × OpcodeInfo) :=
  [(10, "UNARY_POSITIVE"), (11, "UNARY_NEGATIVE"), (12, "UNARY_NOT"), (15, "UNARY_INVERT"),
    (68, "GET_ITER"), (69, "GET_YIELD_FROM_ITER"), (73, "GET_AWAITABLE"), (50, "GET_AITER"),
    (86, "YIELD_VALUE")].map fun entry => (entry.1, plain entry.2 (pushPop 1 1))

/-- Operations that replace the two topmost values by one. -/
def binaries : List (Nat × OpcodeInfo) :=
  [(16, "BINARY_MATRIX_MULTIPLY"), (17, "INPLACE_MATRIX_MULTIPLY"), (19, "BINARY_POWER"),
    (20, "BINARY_MULTIPLY"), (22, "BINARY_MODULO"), (23, "BINARY_ADD"), (24, "BINARY_SUBTRACT"),
    (25, "BINARY_SUBSCR"), (26, "BINARY_FLOOR_DIVIDE"), (27, "BINARY_TRUE_DIVIDE"),
    (28, "INPLACE_FLOOR_DIVIDE"), (29, "INPLACE_TRUE_DIVIDE"), (55, "INPLACE_ADD"),
    (56, "INPLACE_SUBTRACT"), (57, "INPLACE_MULTIPLY"), (59, "INPLACE_MODULO"),
    (62, "BINARY_LSHIFT"), (63, "BINARY_RSHIFT"), (64, "BINARY_AND"), (65, "BINARY_XOR"),
    (66, "BINARY_OR"), (67, "INPLACE_POWER"), (75, "INPLACE_LSHIFT"), (76, "INPLACE_RSHIFT"),
    (77, "INPLACE_AND"), (78, "INPLACE_XOR"), (79, "INPLACE_OR"), (72, "YIELD_FROM")].map
    fun entry => (entry.1, plain entry.2 (pushPop 1 2))

/-- The other instructions without operand. -/
def statements : List (Nat × OpcodeInfo) := [
  (51, plain "GET_ANEXT" peek),
  (52, plain "BEFORE_ASYNC_WITH" (pushPop 2 1)),
  (54, plain "END_ASYNC_FOR" (pushPop 0 7)),
  (60, plain "STORE_SUBSCR" (pushPop 0 3)),
  (61, plain "DELETE_SUBSCR" (pushPop 0 2)),
  (70, plain "PRINT_EXPR" (pushPop 0 1)),
  (71, plain "LOAD_BUILD_CLASS" (pushPop 1 0)),
  (83, plain "RETURN_VALUE" (pushPop 0 1) { stopsFlow := true, returns := true }),
  (84, plain "IMPORT_STAR" (pushPop 0 1)),
  (85, plain "SETUP_ANNOTATIONS" .nothing),
  (87, plain "POP_BLOCK" .nothing { blockExit := true }),
  (89, plain "POP_EXCEPT" (pushPop 0 3))]

/-- Instructions whose operand is a pool index. -/
def poolAccesses : List (Nat × OpcodeInfo) := [
  (90, pooled "STORE_NAME" .name (pushPop 0 1)),
  (91, pooled "DELETE_NAME" .name .nothing),
  (95, pooled "STORE_ATTR" .name (pushPop 0 2)),
  (96, pooled "DELETE_ATTR" .name (pushPop 0 1)),
  (97, pooled "STORE_GLOBAL" .name (pushPop 0 1)),
  (98, pooled "DELETE_GLOBAL" .name .nothing),
  (101, pooled "LOAD_NAME" .name (pushPop 1 0)),
  (106, pooled "LOAD_ATTR" .name (pushPop 1 1)),
  (108, pooled "IMPORT_NAME" .name (pushPop 1 2)),
  (109, pooled "IMPORT_FROM" .name peek),
  (116, pooled "LOAD_GLOBAL" .name (pushPop 1 0)),
  (160, pooled "LOAD_METHOD" .name (pushPop 2 1)),
  (100, pooled "LOAD_CONST" .constant (pushPop 1 0)),
  (124, pooled "LOAD_FAST" .local (pushPop 1 0)),
  (125, pooled "STORE_FAST" .local (pushPop 0 1)),
  (126, pooled "DELETE_FAST" .local .nothing),
  (135, pooled "LOAD_CLOSURE" .cell (pushPop 1 0)),
  (136, pooled "LOAD_DEREF" .cell (pushPop 1 0)),
  (137, pooled "STORE_DEREF" .cell (pushPop 0 1)),
  (138, pooled "DELETE_DEREF" .cell .nothing),
  (148, pooled "LOAD_CLASSDEREF" .cell (pushPop 1 0))]

/-- How many of the four low bits of a number are set. -/
def lowBitCount (n : Nat) : Nat :=
  (n.testBit 0).toNat + (n.testBit 1).toNat + (n.testBit 2).toNat + (n.testBit 3).toNat

/-- Instructions whose operand is a plain number. -/
def numbered : List (Nat × OpcodeInfo) := [
  (92, counted "UNPACK_SEQUENCE" fun n => pushPop n 1),
  (94, counted "UNPACK_EX" fun n => pushPop (n % 256 + n / 256 + 1) 1),
  (102, counted "BUILD_TUPLE" collect),
  (103, counted "BUILD_LIST" collect),
  (104, counted "BUILD_SET" collect),
  (157, counted "BUILD_STRING" collect),
  (133, counted "BUILD_SLICE" collect),
  (105, counted "BUILD_MAP" fun n => pushPop 1 (min (n * 2) largest)),
  (156, counted "BUILD_CONST_KEY_MAP" fun n => pushPop 1 (min (n + 1) largest)),
  (131, counted "CALL_FUNCTION" fun n => pushPop 1 (min (n + 1) largest)),
  (141, counted "CALL_FUNCTION_KW" fun n => pushPop 1 (min (n + 2) largest)),
  (161, counted "CALL_METHOD" fun n => pushPop 1 (min (n + 2) largest)),
  (142, counted "CALL_FUNCTION_EX" fun n => pushPop 1 (2 + n % 2)),
  (132, counted "MAKE_FUNCTION" fun n => pushPop 1 (2 + lowBitCount n)),
  (155, counted "FORMAT_VALUE" fun n => pushPop 1 (if n.testBit 2 then 2 else 1)),
  (130, { counted "RAISE_VARARGS" (fun n => pushPop 0 n) with
    flags := { hasArgument := true, stopsFlow := true } }),
  (107, number "COMPARE_OP" (pushPop 1 2)),
  (145, number "LIST_APPEND" (pushPop 0 1)),
  (146, number "SET_ADD" (pushPop 0 1)),
  (147, number "MAP_ADD" (pushPop 0 2)),
  (144, plain "EXTENDED_ARG" .nothing { hasArgument := true, extension := true })]

/-- The effect of the jumps that pop only when they do not jump. -/
def popUnlessTaken : EffectRule := .branching (pushPop 0 1) .nothing

/-- Jumps, the openers of exception blocks among them: the branch edge of an
opener is the way into its handler. -/
def jumps : List (Nat × OpcodeInfo) := [
  (93, jump "FOR_ITER" { jumpRelative := true } (.branching peek (pushPop 0 1))),
  (110, jump "JUMP_FORWARD" { jumpRelative := true, unconditional := true } (.fixed .nothing)),
  (113, jump "JUMP_ABSOLUTE" { jumpAbsolute := true, unconditional := true } (.fixed .nothing)),
  (111, jump "JUMP_IF_FALSE_OR_POP" { jumpAbsolute := true } popUnlessTaken),
  (112, jump "JUMP_IF_TRUE_OR_POP" { jumpAbsolute := true } popUnlessTaken),
  (114, jump "POP_JUMP_IF_FALSE" { jumpAbsolute := true } (.fixed (pushPop 0 1))),
  (115, jump "POP_JUMP_IF_TRUE" { jumpAbsolute := true } (.fixed (pushPop 0 1))),
  (122, jump "SETUP_FINALLY" { jumpRelative := true, handlerSetup := true }
    (.branching .nothing (pushPop 6 0))),
  (143, jump "SETUP_WITH" { jumpRelative := true, handlerSetup := true }
    (.branching (pushPop 2 1) (pushPop 7 1))),
  (154, jump "SETUP_ASYNC_WITH" { jumpRelative := true, handlerSetup := true }
    (.branching .nothing (pushPop 6 1)))]

/-- The opcodes that both versions have under one number and meaning. -/
def shared : List (Nat × OpcodeInfo) :=
  stackMoves ++ unaries ++ binaries ++ statements ++ poolAccesses ++ numbered ++ jumps

/-- What 3.8 has besides. -/
def only38 : List (Nat × OpcodeInfo) := [
  (53, plain "BEGIN_FINALLY" (pushPop 6 0)),
  (81, plain "WITH_CLEANUP_START" (pushPop 2 0)),
  (82, plain "WITH_CLEANUP_FINISH" (pushPop 0 3)),
  (88, plain "END_FINALLY" (pushPop 0 6)),
  (149, counted "BUILD_LIST_UNPACK" collect),
  (150, counted "BUILD_MAP_UNPACK" collect),
  (151, counted "BUILD_MAP_UNPACK_WITH_CALL" collect),
  (152, counted "BUILD_TUPLE_UNPACK" collect),
  (153, counted "BUILD_SET_UNPACK" collect),
  (158, counted "BUILD_TUPLE_UNPACK_WITH_CALL" collect),
  (162, jump "CALL_FINALLY" { jumpRelative := true } (.branching .nothing (pushPop 1 0))),
  (163, number "POP_FINALLY" (pushPop 0 6))]

/-- What 3.10 has besides. -/
def only310 : List (Nat × OpcodeInfo) := [
  (30, plain "GET_LEN" peek),
  (31, plain "MATCH_MAPPING" peek),
  (32, plain "MATCH_SEQUENCE" peek),
  (33, plain "MATCH_KEYS" (pushPop 2 0)),
  (34, plain "COPY_DICT_WITHOUT_KEYS" (pushPop 1 1)),
  (49, plain "WITH_EXCEPT_START" (pushPop 1 0)),
  (74, plain "LOAD_ASSERTION_ERROR" (pushPop 1 0)),
  (82, plain "LIST_TO_TUPLE" (pushPop 1 1)),
  (99, counted "ROT_N" fun n => pushPop n n),
  (117, number "IS_OP" (pushPop 1 2)),
  (118, number "CONTAINS_OP" (pushPop 1 2)),
  (119, { number "RERAISE" (pushPop 0 3) with flags := { hasArgument := true, stopsFlow := true } }),
  (121, jump "JUMP_IF_NOT_EXC_MATCH" { jumpAbsolute := true } (.fixed (pushPop 0 2))),
  (129, number "GEN_START" (pushPop 0 1)),
  (152, number "MATCH_CLASS" (pushPop 2 3)),
  (162, number "LIST_EXTEND" (pushPop 0 1)),
  (163, number "SET_UPDATE" (pushPop 0 1)),
  (164, number "DICT_MERGE" (pushPop 0 1)),
  (165, number "DICT_UPDATE" (pushPop 0 1))]

/-- The instruction set of the 3.8 interpreter. -/
def python38 : InstructionSet where
  name := "python38"
  opcodes := tableOf (shared ++ only38)
  jumpUnit := .bytes
  lineFormat := .lnotab
  extension := ⟨144⟩
  jumpForward := ⟨110⟩
  jumpAbsolute := ⟨113⟩
  handlerSetup := ⟨122⟩
  blockExit := ⟨87⟩

/-- The instruction set of the 3.10 interpreter. -/
def python310 : InstructionSet where
  name := "python310"
  opcodes := tableOf (shared ++ only310)
  jumpUnit := .instructions
  lineFormat := .ranges
  extension := ⟨144⟩
  jumpForward := ⟨110⟩
  jumpAbsolute := ⟨113⟩
  handlerSetup := ⟨122⟩
  blockExit := ⟨87⟩

/-- The instruction set a user asks for. -/
def byName? (name : String) : Option InstructionSet :=
  if name ∈ ["python38", "py38", "3.8"] then some python38
  else if name ∈ ["python310", "py310", "3.10"] then some python310
  else none

end InstructionSet

end Wordcode
