import Kaleidoscope.Number.Text
import Kaleidoscope.Ssa.Program

/-!
# Listings of functions

One line an instruction, in the notation of assembly for single-assignment code. Parameters are
shown by name, other values and slots by number, and blocks by label.
-/

namespace Kaleidoscope.Ssa

/-- The operation's name in listings. -/
def Arithmetic.mnemonic : Arithmetic → String
  | add => "fadd"
  | subtract => "fsub"
  | multiply => "fmul"

/-- The operation's name in listings. -/
def Comparison.mnemonic : Comparison → String
  | unorderedOrLess => "ult"
  | orderedAndDistinct => "one"

/-- How a body shows its values and blocks. -/
structure Naming where
  parameters : List String
  labels : List String

namespace Naming

/-- The text of a value. -/
def value (names : Naming) (v : ValueId) : String :=
  match names.parameters[v.index]? with
  | some parameter => s!"%{parameter}"
  | none => s!"%{v.index}"

/-- The text of a block. -/
def block (names : Naming) (b : BlockId) : String :=
  match names.labels[b.index]? with
  | some label => s!"%{label}"
  | none => s!"%<invalid block {b.index}>"

/-- The text of one alternative of a phi. -/
def alternative (names : Naming) (incoming : ValueId × BlockId) : String :=
  s!"[ {names.value incoming.1}, {names.block incoming.2} ]"

/-- The text of an operation. -/
def operation (names : Naming) : Operation → String
  | .constant x => s!"const double {Number.text x}"
  | .arithmetic op left right =>
    s!"{op.mnemonic} double {names.value left}, {names.value right}"
  | .compare op left right =>
    s!"fcmp {op.mnemonic} double {names.value left}, {names.value right}"
  | .widen v => s!"uitofp i1 {names.value v} to double"
  | .load slot => s!"load double, ${slot.index}"
  | .phi incoming => "phi double " ++ ", ".intercalate (incoming.map names.alternative)

/-- The text of the arguments of a call. -/
def arguments (names : Naming) (values : List ValueId) : String :=
  ", ".intercalate (values.map fun v => s!"double {names.value v}")

/-- The text of an instruction. -/
def instruction (names : Naming) : Instruction → String
  | .assign target op => s!"{names.value target} = {names.operation op}"
  | .store slot v => s!"store double {names.value v}, ${slot.index}"
  | .call target callee values =>
    s!"{names.value target} = call double @{callee}({names.arguments values})"

/-- The text of a terminator, or of its lack. -/
def terminator (names : Naming) : Option Terminator → String
  | some (.branch b) => s!"br label {names.block b}"
  | some (.branchIf condition consequent alternative) =>
    s!"br i1 {names.value condition}, label {names.block consequent}, label {names.block alternative}"
  | some (.ret v) => s!"ret double {names.value v}"
  | none => "<unterminated>"

/-- The lines of a block. -/
def blockLines (names : Naming) (slots : List String) (b : Block) : List String :=
  let instructions := slots ++ b.instructions.map names.instruction ++ [names.terminator b.terminator]
  s!"{b.label}:" :: instructions.map ("  " ++ ·)

end Naming

/-- The text of the slots of a body. -/
def Body.slotLines (body : Body) : List String :=
  body.slots.zipIdx.map fun (name, index) => s!"${index} = alloca double ; {name}"

/-- The lines of a body. The slots are listed in the first block. -/
def Body.lines (parameters : List String) (body : Body) : List String :=
  let names : Naming := ⟨parameters, body.blocks.map (·.label)⟩
  match body.blocks with
  | [] => []
  | entry :: others => names.blockLines body.slotLines entry ++ others.flatMap (names.blockLines [])

/-- The lines of a function. -/
def Function.lines (f : Function) : List String :=
  let parameters := ", ".intercalate (f.parameters.map fun p => s!"double %{p}")
  match f.body with
  | none => [s!"declare double @{f.name}({parameters})"]
  | some body => s!"define double @{f.name}({parameters}) \x7b" :: body.lines f.parameters ++ ["\x7d"]

/-- The listing of a function. Every line ends with a newline. -/
def Function.listing (f : Function) : String := String.join (f.lines.map (· ++ "\n"))

/-- The listing of a program, with an empty line between functions. -/
def Program.listing (p : Program) : String := "\n".intercalate (p.functions.map Function.listing)

end Kaleidoscope.Ssa
