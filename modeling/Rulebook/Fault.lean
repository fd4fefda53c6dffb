import Rulebook.Operator
import Rulebook.Value

/-! What can go wrong, and how it is worded. -/

namespace Rulebook

/-- Why a JSON text is refused: it is no JSON, it is JSON of a wrong shape, or it ends too early. -/
inductive JsonFault where
  | malformed
  | shape
  | ended
  deriving DecidableEq, Repr

inductive Measure where
  | ruleLength
  | ruleCount
  | treeDepth
  deriving DecidableEq, Repr

def Measure.name : Measure → String
  | .ruleLength => "rule length"
  | .ruleCount => "rule count"
  | .treeDepth => "tree depth"

inductive RecordFault where
  | symbolMissing
  | childMissing (op : Operator)
  | childOnOperand
  | literalMissing
  deriving DecidableEq, Repr

def RecordFault.message : RecordFault → String
  | .symbolMissing => "操作符节点缺少 value"
  | .childMissing op => "操作符节点 '" ++ op.symbol ++ "' 必须同时具有 left 和 right"
  | .childOnOperand => "操作数节点不能有子节点"
  | .literalMissing => "操作数节点的 value 不能为空"

/-- Why evaluation data are refused. The value of a bad field comes as its JSON text. -/
inductive DataFault where
  | notObject
  | badField (key json : String)
  deriving DecidableEq, Repr

def DataFault.message : DataFault → String
  | .notObject => "评估数据必须是 JSON 对象"
  | .badField key json => "字段 '" ++ key ++ "' 的值必须是数字、字符串或布尔: " ++ json

inductive Fault where
  | unreadable (fragment : String)
  | nothingToCombine
  | unresolved (field : String)
  | unknownOperator (symbol : String)
  | unknownRecord (type : String)
  | record (cause : RecordFault)
  | mismatch (op : Operator) (left right : Kind)
  | data (cause : DataFault)
  | tooLarge (measure : Measure) (actual limit : Nat)
  | json (cause : JsonFault)
  deriving DecidableEq, Repr

/-- The wording of a fault. JSON faults are worded by their class alone. -/
def Fault.message : Fault → String
  | .unreadable fragment => "规则解析失败: 无法识别 '" ++ fragment ++ "'"
  | .nothingToCombine => "没有可合并的规则"
  | .unresolved field => "操作数无法解析: 数据中不存在 '" ++ field ++ "'"
  | .unknownOperator symbol => "未知操作符: " ++ symbol
  | .unknownRecord type => "未知节点类型: " ++ type
  | .record cause => "语法树结构无效: " ++ cause.message
  | .mismatch op left right =>
    "类型不匹配: " ++ left.name ++ " " ++ op.symbol ++ " " ++ right.name
  | .data cause => "评估数据无效: " ++ cause.message
  | .tooLarge measure actual limit =>
    "输入过大: " ++ measure.name ++ " 为 " ++ toString actual ++ ", 上限 " ++ toString limit
  | .json .malformed => "JSON 序列化错误: malformed text"
  | .json .shape => "JSON 序列化错误: unexpected shape"
  | .json .ended => "JSON 序列化错误: unexpected end of text"

def Operator.read (symbol : String) : Except Fault Operator :=
  match Operator.ofSymbol? symbol with
  | some op => .ok op
  | none => .error (.unknownOperator symbol)

end Rulebook
