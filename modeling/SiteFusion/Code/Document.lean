import SiteFusion.Code.Module
import SiteFusion.Json.Shape
import SiteFusion.Json.Writer

namespace SiteFusion

open Shape Shape.Fields

def word32Json (n : UInt32) : Json := .ofNat n.toNat

def Reg.json (r : Reg) : Json := word32Json r.index

def Reg.shape : Shape Reg := mapShape word32 Reg.mk

def BlockId.json (b : BlockId) : Json := word32Json b.index

def BlockId.shape : Shape BlockId := mapShape word32 BlockId.mk

def OpId.json (o : OpId) : Json := word32Json o.index

def OpId.shape : Shape OpId := mapShape word32 OpId.mk

def FuncId.json (f : FuncId) : Json := word32Json f.index

def FuncId.shape : Shape FuncId := mapShape word32 FuncId.mk

def GlobalId.json (g : GlobalId) : Json := word32Json g.index

def GlobalId.shape : Shape GlobalId := mapShape word32 GlobalId.mk

/-- A named alternative that carries a value. -/
def tagged (name : String) (j : Json) : Json := .ofMembers [(name, j)]

def taggedRecord (name : String) (members : List (String × Json)) : Json :=
  tagged name (.ofMembers members)

namespace Ty

def json : Ty → Json
  | .void => .ofString "Void"
  | .bool => .ofString "Bool"
  | .i8 => .ofString "I8"
  | .i32 => .ofString "I32"
  | .i64 => .ofString "I64"
  | .f64 => .ofString "F64"
  | .ptr t => tagged "Ptr" t.json
  | .fnPtr => .ofString "FnPtr"

def named : List (String × Ty) :=
  [("Void", .void), ("Bool", .bool), ("I8", .i8), ("I32", .i32), ("I64", .i64), ("F64", .f64),
    ("FnPtr", .fnPtr)]

/-- A type. Each level of pointers opens a brace. -/
def shape : Nat → Json → Except Defect Ty
  | 0, j => name named 0 j
  | depth + 1, j =>
    choice (fun s =>
      if s = "Ptr" then some (.carrying fun _ j => (shape depth j).map .ptr)
      else (named.lookup s).map .plain) (depth + 1) j

end Ty

namespace Const

def json : Const → Json
  | .undefined => .ofString "Undef"
  | .null => .ofString "Null"
  | .bool b => tagged "Bool" (.bool b)
  | .i8 v => tagged "I8" (.ofInt v.toInt)
  | .i32 v => tagged "I32" (.ofInt v.toInt)
  | .i64 v => tagged "I64" (.ofInt v.toInt)
  | .f64 v => tagged "F64" (.ofFloat v)

def int64 : Shape Int64 :=
  mapShape (integer (-9223372036854775808) 9223372036854775807) Int64.ofInt

def variant? (s : String) : Option (Variant Const) :=
  match s with
  | "Undef" => some (.plain .undefined)
  | "Null" => some (.plain .null)
  | "Bool" => some (.carrying (mapShape Shape.bool .bool))
  | "I8" => some (.carrying (mapShape (integer (-128) 127) fun i => .i8 (Int8.ofInt i)))
  | "I32" =>
    some (.carrying (mapShape (integer (-2147483648) 2147483647) fun i => .i32 (Int32.ofInt i)))
  | "I64" => some (.carrying (mapShape int64 .i64))
  | "F64" => some (.carrying (mapShape float .f64))
  | _ => none

def shape : Shape Const := choice variant?

end Const

namespace Operand

def json : Operand → Json
  | .reg r => tagged "Reg" r.json
  | .const c => tagged "Const" c.json

def variant? (s : String) : Option (Variant Operand) :=
  match s with
  | "Reg" => some (.carrying (mapShape Reg.shape .reg))
  | "Const" => some (.carrying (mapShape Const.shape .const))
  | _ => none

def shape : Shape Operand := choice variant?

end Operand

namespace TagValue

def json : TagValue → Json
  | .str s => tagged "Str" (.ofString s)
  | .word w => tagged "Binary" (.ofList ((bytes w).map fun b => .ofNat b.toNat))

def variant? (s : String) : Option (Variant TagValue) :=
  match s with
  | "Str" => some (.carrying (mapShape string .str))
  | "Binary" => some (.carrying (mapShape (vector 8 byte) fun bs => .word (ofBytes bs)))
  | _ => none

def shape : Shape TagValue := choice variant?

end TagValue

def Tag.json (t : Tag) : Json := .ofMembers [("name", .ofString t.name), ("value", t.value.json)]

def Tag.shape : Shape Tag :=
  ((required "name" string).and (required "value" TagValue.shape)).shape
    fun (name, value) => ⟨name, value⟩

def Tags.json (ts : Tags) : Json := .ofList (ts.list.map Tag.json)

def Tags.shape : Shape Tags := mapShape (Shape.list Tag.shape) Tags.mk

def Operation.json {κ : Type} (kind : κ → Json) (o : Operation κ) : Json :=
  let notes := if o.tags.isEmpty then [] else [("tags", o.tags.json)]
  .ofMembers ([("id", o.id.json), ("kind", kind o.kind)] ++ notes)

def Operation.shape {κ : Type} (kind : Shape κ) : Shape (Operation κ) :=
  ((required "id" OpId.shape).and <| (required "kind" kind).and
    (defaulted "tags" Tags.shape .empty)).shape fun (id, kind, tags) => ⟨id, kind, tags⟩

def operatorShape {α : Type} (nameOf : α → String) (all : List α) : Shape α :=
  name (all.map fun op => (nameOf op, op))

namespace Instruction

def operandsJson (os : List Operand) : Json := .ofList (os.map Operand.json)

def destJson (d : Option Reg) : Json := .ofOption Reg.json d

def json : Instruction → Json
  | .const d c => taggedRecord "Const" [("dest", d.json), ("value", c.json)]
  | .copy d s => taggedRecord "Copy" [("dest", d.json), ("src", s.json)]
  | .binary d op l r => taggedRecord "BinOp"
    [("dest", d.json), ("op", .ofString op.name), ("left", l.json), ("right", r.json)]
  | .unary d op o => taggedRecord "UnOp"
    [("dest", d.json), ("op", .ofString op.name), ("operand", o.json)]
  | .compare d op l r => taggedRecord "Cmp"
    [("dest", d.json), ("op", .ofString op.name), ("left", l.json), ("right", r.json)]
  | .select d c a b => taggedRecord "Select"
    [("dest", d.json), ("condition", c.json), ("true_val", a.json), ("false_val", b.json)]
  | .alloca d t => taggedRecord "Alloca" [("dest", d.json), ("ty", t.json)]
  | .load d p t => taggedRecord "Load" [("dest", d.json), ("ptr", p.json), ("ty", t.json)]
  | .store p v => taggedRecord "Store" [("ptr", p.json), ("value", v.json)]
  | .loadGlobal d g t => taggedRecord "LoadGlobal"
    [("dest", d.json), ("global_id", g.json), ("ty", t.json)]
  | .storeGlobal g v => taggedRecord "StoreGlobal" [("global_id", g.json), ("value", v.json)]
  | .call d c args => taggedRecord "CallDirect"
    [("dest", destJson d), ("func_id", c.json), ("args", operandsJson args)]
  | .callIndirect d p args => taggedRecord "CallIndirect"
    [("dest", destJson d), ("func_ptr", p.json), ("args", operandsJson args)]
  | .inlineAsm d asm ins => taggedRecord "InlineAsm"
    [("dest", destJson d), ("asm", .ofString asm), ("inputs", operandsJson ins)]
  | .functionRef d c => taggedRecord "FunctionRef" [("dest", d.json), ("func_id", c.json)]
  | .marker => .ofString "Marker"

def binaryOp : Shape BinaryOp := operatorShape BinaryOp.name BinaryOp.all

def unaryOp : Shape UnaryOp := operatorShape UnaryOp.name UnaryOp.all

def compareOp : Shape CompareOp := operatorShape CompareOp.name CompareOp.all

def dest : Fields (Option Reg) Reg := required "dest" Reg.shape

def operand (name : String) : Fields (Option Operand) Operand := required name Operand.shape

def operandList (name : String) : Fields (Option (List Operand)) (List Operand) :=
  required name (list Operand.shape)

def optionalDest : Fields (Option (Option Reg)) (Option Reg) := omissible "dest" Reg.shape

def variant? (s : String) : Option (Variant Instruction) :=
  match s with
  | "Const" => some <| .carrying <|
    (dest.and (required "value" Const.shape)).shape fun (d, c) => .const d c
  | "Copy" => some <| .carrying <| (dest.and (operand "src")).shape fun (d, s) => .copy d s
  | "BinOp" => some <| .carrying <|
    (dest.and <| (required "op" binaryOp).and <| (operand "left").and (operand "right")).shape
      fun (d, op, l, r) => .binary d op l r
  | "UnOp" => some <| .carrying <|
    (dest.and <| (required "op" unaryOp).and (operand "operand")).shape
      fun (d, op, o) => .unary d op o
  | "Cmp" => some <| .carrying <|
    (dest.and <| (required "op" compareOp).and <| (operand "left").and (operand "right")).shape
      fun (d, op, l, r) => .compare d op l r
  | "Select" => some <| .carrying <|
    (dest.and <| (operand "condition").and <| (operand "true_val").and
      (operand "false_val")).shape fun (d, c, a, b) => .select d c a b
  | "Alloca" => some <| .carrying <|
    (dest.and (required "ty" Ty.shape)).shape fun (d, t) => .alloca d t
  | "Load" => some <| .carrying <|
    (dest.and <| (operand "ptr").and (required "ty" Ty.shape)).shape fun (d, p, t) => .load d p t
  | "Store" => some <| .carrying <|
    ((operand "ptr").and (operand "value")).shape fun (p, v) => .store p v
  | "LoadGlobal" => some <| .carrying <|
    (dest.and <| (required "global_id" GlobalId.shape).and (required "ty" Ty.shape)).shape
      fun (d, g, t) => .loadGlobal d g t
  | "StoreGlobal" => some <| .carrying <|
    ((required "global_id" GlobalId.shape).and (operand "value")).shape
      fun (g, v) => .storeGlobal g v
  | "CallDirect" => some <| .carrying <|
    (optionalDest.and <| (required "func_id" FuncId.shape).and (operandList "args")).shape
      fun (d, c, args) => .call d c args
  | "CallIndirect" => some <| .carrying <|
    (optionalDest.and <| (operand "func_ptr").and (operandList "args")).shape
      fun (d, p, args) => .callIndirect d p args
  | "InlineAsm" => some <| .carrying <|
    (optionalDest.and <| (required "asm" string).and (operandList "inputs")).shape
      fun (d, asm, ins) => .inlineAsm d asm ins
  | "FunctionRef" => some <| .carrying <|
    (dest.and (required "func_id" FuncId.shape)).shape fun (d, c) => .functionRef d c
  | "Marker" => some (.plain .marker)
  | _ => none

def shape : Shape Instruction := choice variant?

end Instruction

namespace Terminator

def json : Terminator → Json
  | .branch t => taggedRecord "Branch" [("target", t.json)]
  | .condBranch c t e => taggedRecord "CondBranch"
    [("condition", c.json), ("true_target", t.json), ("false_target", e.json)]
  | .switch v cases d => taggedRecord "Switch"
    [("value", v.json),
      ("cases", .ofList (cases.map fun c => .ofList [.ofInt c.1.toInt, c.2.json])),
      ("default", d.json)]
  | .ret v => taggedRecord "Return" [("value", .ofOption Operand.json v)]
  | .unreachable => .ofString "Unreachable"

def target (name : String) : Fields (Option BlockId) BlockId := required name BlockId.shape

def variant? (s : String) : Option (Variant Terminator) :=
  match s with
  | "Branch" => some <| .carrying <| (target "target").shape .branch
  | "CondBranch" => some <| .carrying <|
    ((Instruction.operand "condition").and <| (target "true_target").and
      (target "false_target")).shape fun (c, t, e) => .condBranch c t e
  | "Switch" => some <| .carrying <|
    ((Instruction.operand "value").and <|
      (required "cases" (list (pair Const.int64 BlockId.shape))).and (target "default")).shape
      fun (v, cases, d) => .switch v cases d
  | "Return" => some <| .carrying <| (omissible "value" Operand.shape).shape .ret
  | "Unreachable" => some (.plain .unreachable)
  | _ => none

def shape : Shape Terminator := choice variant?

end Terminator

namespace Phi

def json (p : Phi) : Json :=
  .ofMembers
    [("dest", p.dest.json),
      ("incoming", .ofList (p.incoming.map fun e => .ofList [e.1.json, e.2.json])),
      ("ty", p.ty.json)]

def shape : Shape Phi :=
  (Instruction.dest.and <| (required "incoming" (list (pair BlockId.shape Operand.shape))).and
    (required "ty" Ty.shape)).shape fun (d, incoming, t) => ⟨d, incoming, t⟩

end Phi

/-- A member that is written only if there is a value. -/
def optionalMember {α : Type} (name : String) (json : α → Json) : Option α → List (String × Json)
  | none => []
  | some a => [(name, json a)]

namespace Block

def json (b : Block) : Json :=
  .ofMembers <|
    [("id", b.id.json)] ++ optionalMember "label" .ofString b.label ++
      [("phi_nodes", .ofList (b.phis.map (Operation.json Phi.json))),
        ("instructions", .ofList (b.instructions.map (Operation.json Instruction.json))),
        ("terminator", b.terminator.json Terminator.json)]

def shape : Shape Block :=
  ((required "id" BlockId.shape).and <| (defaulted "label" (optional string) none).and <|
    (defaulted "phi_nodes" (list (Operation.shape Phi.shape)) []).and <|
    (defaulted "instructions" (list (Operation.shape Instruction.shape)) []).and
    (required "terminator" (Operation.shape Terminator.shape))).shape
    fun (id, label, phis, insts, term) => ⟨id, label, phis, insts, term⟩

end Block

/-- A map with numbers for keys. -/
def tableJson {κ ν : Type} (key : κ → UInt32) (value : κ → ν → Json) (entries : List (κ × ν)) :
    Json :=
  .ofMembers (entries.map fun e => (numberText (key e.1), value e.1 e.2))

namespace Graph

def json (g : Graph) : Json :=
  .ofMembers
    [("blocks", tableJson BlockId.index (fun _ => Block.json) g.blocks.entries),
      ("entry_block", g.entry.json), ("next_block_id", word32Json g.nextBlock), ("next_op_id", word32Json g.nextOp)]

def shape : Shape Graph :=
  ((required "blocks" (table BlockId.mk Block.shape)).and <|
    (required "entry_block" BlockId.shape).and <| (required "next_block_id" word32).and
    (required "next_op_id" word32)).shape
    fun (blocks, entry, nextBlock, nextOp) => ⟨blocks, entry, nextBlock, nextOp⟩

end Graph

namespace Linkage

def json (l : Linkage) : Json := .ofString l.name

def shape : Shape Linkage := operatorShape Linkage.name [.private_, .internal, .public_, .external]

end Linkage

namespace InlineHint

def name : InlineHint → String
  | .never => "Never"
  | .auto => "Auto"
  | .hint => "Hint"
  | .always => "Always"

def shape : Shape InlineHint := operatorShape InlineHint.name [.never, .auto, .hint, .always]

end InlineHint

namespace FunctionKind

def name : FunctionKind → String
  | .userDefined => "UserDefined"
  | .externC => "ExternC"
  | .intrinsic => "Intrinsic"

def shape : Shape FunctionKind :=
  operatorShape FunctionKind.name [.userDefined, .externC, .intrinsic]

end FunctionKind

namespace Attributes

def json (a : Attributes) : Json :=
  .ofMembers <|
    [("linkage", a.linkage.json), ("inline", .ofString a.inline.name),
      ("optimize_none", .bool a.optimizeNone)] ++ optionalMember "gc" .ofString a.gc

def shape : Shape Attributes :=
  ((required "linkage" Linkage.shape).and <| (required "inline" InlineHint.shape).and <|
    (defaulted "optimize_none" bool false).and (defaulted "gc" (optional string) none)).shape
    fun (linkage, inline, none_, gc) => ⟨linkage, inline, none_, gc⟩

end Attributes

namespace Param

def json (p : Param) : Json :=
  .ofMembers [("name", .ofString p.name), ("ty", p.ty.json), ("reg", p.reg.json)]

def shape : Shape Param :=
  ((required "name" string).and <| (required "ty" Ty.shape).and (required "reg" Reg.shape)).shape
    fun (name, ty, reg) => ⟨name, ty, reg⟩

end Param

namespace Signature

def json (s : Signature) : Json :=
  .ofMembers
    [("parameters", .ofList (s.params.map Param.json)), ("return_type", s.result.json),
      ("varargs", .bool s.varargs)]

def shape : Shape Signature :=
  ((required "parameters" (list Param.shape)).and <| (required "return_type" Ty.shape).and
    (defaulted "varargs" bool false)).shape
    fun (params, result, varargs) => ⟨params, result, varargs⟩

end Signature

namespace Function

/-- The document of a function whose register types are listed in a given order. -/
def jsonWith (types : List (Reg × Ty)) (f : Function) : Json :=
  .ofMembers <|
    [("id", f.id.json), ("name", .ofString f.name), ("signature", f.signature.json),
      ("cfg", f.graph.json),
      ("register_types", tableJson Reg.index (fun _ => Ty.json) types),
      ("attributes", f.attributes.json), ("kind", .ofString f.kind.name)] ++
      optionalMember "unreachable_block" BlockId.json f.trap ++
      [("next_reg_id", word32Json f.nextReg)]

def json (f : Function) : Json := f.jsonWith f.regTypes.entries

def regTypesShape : Shape RegTypes :=
  mapShape (table Reg.mk Ty.shape) fun t => .ofList t.entries

def shape : Shape Function :=
  ((required "id" FuncId.shape).and <| (required "name" string).and <|
    (required "signature" Signature.shape).and <| (required "cfg" Graph.shape).and <|
    (defaulted "register_types" regTypesShape .empty).and <|
    (defaulted "attributes" Attributes.shape .default).and <|
    (defaulted "kind" FunctionKind.shape .userDefined).and <|
    (defaulted "unreachable_block" (optional BlockId.shape) none).and
    (required "next_reg_id" word32)).shape
    fun (id, name, signature, graph, regTypes, attributes, kind, trap, nextReg) =>
      ⟨id, name, signature, graph, regTypes, attributes, kind, trap, nextReg⟩

end Function

namespace Global

def json (g : Global) : Json :=
  .ofMembers
    [("id", g.id.json), ("name", .ofString g.name), ("ty", g.ty.json),
      ("initializer", .ofOption Const.json g.initializer), ("mutable", .bool g.mutable),
      ("linkage", g.linkage.json)]

def shape : Shape Global :=
  ((required "id" GlobalId.shape).and <| (required "name" string).and <|
    (required "ty" Ty.shape).and <| (omissible "initializer" Const.shape).and <|
    (required "mutable" bool).and (required "linkage" Linkage.shape)).shape
    fun (id, name, ty, initializer, mutable, linkage) =>
      ⟨id, name, ty, initializer, mutable, linkage⟩

end Global

namespace Module

/-- The document of a module. The types of the registers of each function are a map without an
order, so its key and the function are given the order in which they are listed. -/
def jsonWith (types : FuncId → Function → List (Reg × Ty)) (m : Module) : Json :=
  .ofMembers
    [("name", .ofString m.name),
      ("functions", tableJson FuncId.index (fun k f => f.jsonWith (types k f)) m.functions.entries),
      ("globals", tableJson GlobalId.index (fun _ => Global.json) m.globals.entries),
      ("next_function_id", word32Json m.nextFunction),
      ("next_global_id", word32Json m.nextGlobal)]

def json (m : Module) : Json := m.jsonWith fun _ f => f.regTypes.entries

def shape : Shape Module :=
  ((required "name" string).and <|
    (required "functions" (table FuncId.mk Function.shape)).and <|
    (defaulted "globals" (table GlobalId.mk Global.shape) .empty).and <|
    (required "next_function_id" word32).and (required "next_global_id" word32)).shape
    fun (name, functions, globals, nextFunction, nextGlobal) =>
      ⟨name, functions, globals, nextFunction, nextGlobal⟩

def read (s : String) : Except Defect Module := readText shape s

def write (m : Module) : String := m.json.render

end Module

end SiteFusion
