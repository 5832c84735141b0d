import Interleaving.Program.Value

/-!
# Expressions

The expressions of a program: literals, registers, operators, conditionals, templates, tuples,
objects and access to their parts. There are no functions, so a call has no value; it still reads
the registers in its arguments.

Evaluation is a **total function of the registers** (`Interleaving.Expression.eval`): a value, or
the fault that there is none. The two logical connectives look at both operands, and a fault in one
of them does not count when the other decides the result.
-/

namespace Interleaving

/-- An operator with one operand. -/
inductive UnaryOperator where
  | negate
  | not
deriving DecidableEq

/-- An operator with two operands. -/
inductive BinaryOperator where
  | or
  | and
  | equal
  | notEqual
  | greater
  | greaterOrEqual
  | less
  | lessOrEqual
  | add
  | subtract
  | multiply
  | divide
  | modulo
deriving DecidableEq

/-- An expression. -/
inductive Expression where
  | literal (v : Value)
  | register (name : String)
  | call (function : String) (arguments : List Expression)
  | unary (op : UnaryOperator) (operand : Expression)
  | binary (op : BinaryOperator) (left right : Expression)
  | conditional (condition yes no : Expression)
  | attribute (whole : Expression) (name : String)
  | index (whole key : Expression)
  /-- Parts that are joined to one text. -/
  | template (parts : List Expression)
  | tuple (items : List Expression)
  | object (members : List (Expression × Expression))

namespace Expression

instance : Inhabited Expression := ⟨.literal .null⟩

/-! ### Registers read -/

mutual

/-- The registers that an expression reads, in the order of the text, repetitions included. -/
def reads : Expression → List String
  | .literal _ => []
  | .register name => [name]
  | .call _ arguments => readsAll arguments
  | .unary _ operand => reads operand
  | .binary _ left right => reads left ++ reads right
  | .conditional condition yes no => reads condition ++ reads yes ++ reads no
  | .attribute whole _ => reads whole
  | .index whole key => reads whole ++ reads key
  | .template parts => readsAll parts
  | .tuple items => readsAll items
  | .object members => readsMembers members

/-- The registers that a list of expressions reads. -/
def readsAll : List Expression → List String
  | [] => []
  | e :: es => reads e ++ readsAll es

/-- The registers that the members of an object read. -/
def readsMembers : List (Expression × Expression) → List String
  | [] => []
  | (key, value) :: ms => reads key ++ reads value ++ readsMembers ms

end

/-! ### Operators -/

/-- Why an expression has no value. -/
inductive Fault where
  | unknownName (name : String)
  | noFunction (name : String)
  | operand (cause : Value.Mismatch)
  | nullOperand
  | undefined (cause : Number.Undefined)
  | condition (cause : Value.Mismatch)
  | nullCondition
  | branches
  | noAttribute (name : String)
  | noElement
  | part (cause : Value.Mismatch)
  | nullPart
deriving DecidableEq

/-- The text of a fault. -/
def Fault.text : Fault → String
  | .unknownName name => "there is no variable named " ++ Text.quote name
  | .noFunction name => "there is no function named " ++ Text.quote name
  | .operand cause => "unsuitable operand: " ++ cause.message
  | .nullOperand => "operand is null"
  | .undefined .sum => "opposite infinities have no sum"
  | .undefined .product => "zero and infinity have no product"
  | .undefined .quotient => "the quotient is undefined"
  | .undefined .remainder => "the remainder is undefined"
  | .condition cause => "unsuitable condition: " ++ cause.message
  | .nullCondition => "the condition is null"
  | .branches => "the results of a conditional have no common type"
  | .noAttribute name => "there is no attribute named " ++ Text.quote name
  | .noElement => "there is no such element"
  | .part cause => "unsuitable part of a template: " ++ cause.message
  | .nullPart => "a part of a template is null"

/-- The result of an evaluation. -/
abbrev Result := Except Fault Value

/-- An operand as a number. -/
def number (v : Value) : Except Fault Number :=
  match v.toNumber? with
  | .ok (some n) => .ok n
  | .ok none => .error .nullOperand
  | .error e => .error (.operand e)

/-- An operand as a truth value. -/
def truth (v : Value) : Except Fault Bool :=
  match v.toBool? with
  | .ok (some b) => .ok b
  | .ok none => .error .nullOperand
  | .error e => .error (.operand e)

/-- Applies an arithmetic operation. -/
def arithmetic (f : Number → Number → Except Number.Undefined Number) (a b : Value) : Result := do
  let x ← number a
  let y ← number b
  match f x y with
  | .ok n => return .number n
  | .error e => throw (.undefined e)

/-- Applies a comparison. -/
def comparison (f : Ordering → Bool) (a b : Value) : Result := do
  let x ← number a
  let y ← number b
  return .bool (f (x.compare y))

/-- A logical connective whose result is `decisive` as soon as one operand is. A fault in one
operand does not count when the other one is decisive, but an operand that is no truth value always
does. -/
def connective (decisive : Bool) (a b : Result) : Result :=
  match a, b with
  | .ok v, .ok w => do
    let x ← truth v
    let y ← truth w
    return .bool (if x = decisive || y = decisive then decisive else !decisive)
  | .ok v, .error e => do
    if (← truth v) = decisive then return .bool decisive else throw e
  | .error e, .ok w => do
    if (← truth w) = decisive then return .bool decisive else throw e
  | .error e, .error _ => .error e

/-- Applies an operator with two operands. -/
def applyBinary (op : BinaryOperator) (a b : Result) : Result :=
  match op with
  | .or => connective true a b
  | .and => connective false a b
  | .equal => do return .bool ((← a).equal (← b))
  | .notEqual => do return .bool (!(← a).equal (← b))
  | .greater => do comparison (· == .gt) (← a) (← b)
  | .greaterOrEqual => do comparison (· != .lt) (← a) (← b)
  | .less => do comparison (· == .lt) (← a) (← b)
  | .lessOrEqual => do comparison (· != .gt) (← a) (← b)
  | .add => do arithmetic Number.add (← a) (← b)
  | .subtract => do arithmetic Number.sub (← a) (← b)
  | .multiply => do arithmetic Number.mul (← a) (← b)
  | .divide => do arithmetic Number.div (← a) (← b)
  | .modulo => do arithmetic Number.mod (← a) (← b)

/-- Applies an operator with one operand. -/
def applyUnary (op : UnaryOperator) (a : Value) : Result :=
  match op with
  | .negate => do return .number (← number a).negate
  | .not => do return .bool (!(← truth a))

/-- The two results of a conditional in one shape: texts as soon as one of them is a text. Nothing
fits every shape. -/
def unify (chosen other : Value) : Result :=
  match chosen, other with
  | .null, _ => .ok .null
  | v, .null => .ok v
  | .number n, .text _ => .ok (.text n.text)
  | .bool b, .text _ => .ok (.text (Value.boolText b))
  | .text s, .number _ => .ok (.text s)
  | .text s, .bool _ => .ok (.text s)
  | v, w => if v.shape = w.shape then .ok v else .error .branches

/-- The value of a conditional. A fault in the branch that is not taken does not count. -/
def choose (condition yes no : Result) : Result := do
  match yes, no with
  | .ok v, .ok w => discard (unify v w)
  | _, _ => pure ()
  match (← condition).toBool? with
  | .error e => throw (.condition e)
  | .ok none => throw .nullCondition
  | .ok (some b) =>
    let (chosen, other) := if b then (yes, no) else (no, yes)
    match chosen, other with
    | .error e, _ => throw e
    | .ok v, .error _ => return v
    | .ok v, .ok w => unify v w

/-- A member of an object. -/
def attributeOf (whole : Value) (name : String) : Result :=
  match whole with
  | .object members =>
    match members.lookup name with
    | some v => .ok v
    | none => .error (.noAttribute name)
  | _ => .error (.noAttribute name)

/-- An element of a tuple by its position, or of an object by its name. -/
def elementOf (whole key : Value) : Result :=
  match whole with
  | .tuple items => do
    match (← number key).word? with
    | some n =>
      if n < 0 then throw .noElement
      else
        match items[n.toNat]? with
        | some v => return v
        | none => throw .noElement
    | none => throw .noElement
  | .object _ =>
    match key.toText? with
    | .ok (some name) => attributeOf whole name
    | _ => .error .noElement
  | _ => .error .noElement

/-- The text of a part of a template. -/
def partText (v : Value) : Except Fault String :=
  match v.toText? with
  | .ok (some s) => .ok s
  | .ok none => .error .nullPart
  | .error e => .error (.part e)

/-! ### Evaluation -/

mutual

/-- The value of an expression, for given values of the registers. -/
def eval (registers : String → Option Value) : Expression → Result
  | .literal v => .ok v
  | .register name =>
    match registers name with
    | some v => .ok v
    | none => .error (.unknownName name)
  | .call name _ => .error (.noFunction name)
  | .unary op operand => do applyUnary op (← eval registers operand)
  | .binary op left right => applyBinary op (eval registers left) (eval registers right)
  | .conditional condition yes no =>
    choose (eval registers condition) (eval registers yes) (eval registers no)
  | .attribute whole name => do attributeOf (← eval registers whole) name
  | .index whole key => do elementOf (← eval registers whole) (← eval registers key)
  | .template parts => do return .text (String.join (← evalParts registers parts))
  | .tuple items => do return .tuple (← evalItems registers items)
  | .object members => do
    return .object (Dictionary.ofList (← evalMembers registers members)).entries

/-- The texts of the parts of a template. -/
def evalParts (registers : String → Option Value) : List Expression → Except Fault (List String)
  | [] => .ok []
  | e :: es => do
    let s ← partText (← eval registers e)
    return s :: (← evalParts registers es)

/-- The values of a list of expressions. -/
def evalItems (registers : String → Option Value) : List Expression → Except Fault (List Value)
  | [] => .ok []
  | e :: es => do
    let v ← eval registers e
    return v :: (← evalItems registers es)

/-- The names and values of the members of an object. -/
def evalMembers (registers : String → Option Value) :
    List (Expression × Expression) → Except Fault (List (String × Value))
  | [] => .ok []
  | (key, value) :: ms => do
    let name ← partText (← eval registers key)
    let v ← eval registers value
    return (name, v) :: (← evalMembers registers ms)

end

/-- The value of an expression in which no register is known. -/
def static (e : Expression) : Result := eval (fun _ => none) e

end Expression

end Interleaving
