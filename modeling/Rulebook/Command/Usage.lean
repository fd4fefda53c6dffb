import Rulebook.Command.Arguments

/-! What is told to those who ask for help, or whose arguments are no command. -/

namespace Rulebook.UsageFault

def versionText : String := "rule-engine 0.1.0"

def helpLines : List String :=
  ["规则文本解析、合并与评估",
    "",
    "Usage: rule-engine [-l <LOG_LEVEL>] <COMMAND>",
    "",
    "Commands:",
    "  parse <RULE>                                     解析规则文本，输出语法树",
    "  combine [-o <OPERATOR>] <RULES>...               合并多条规则为一棵平衡树",
    "  evaluate --ast <AST> --data <DATA> [--trace]     针对数据评估已存储的语法树",
    "  check --rule <RULE> --data <DATA> [--trace]      解析规则文本并立即评估",
    "",
    "Options:",
    "  -l, --log-level <LOG_LEVEL>  日志级别 (trace, debug, info, warn, error)，覆盖配置文件",
    "  -h, --help                   Print help",
    "  -V, --version                Print version"]

def message : UsageFault → String
  | .help | .nothingGiven => "\n".intercalate helpLines
  | .version => versionText
  | .subcommandMissing => "error: a command is missing"
  | .subcommandUnknown => "error: there is no such command"
  | .argumentMissing => "error: a required argument is missing"
  | .argumentUnknown => "error: an argument is not expected here"
  | .argumentRepeated => "error: an option may be given only once"
  | .valueMissing => "error: an option lacks its value"
  | .valueExtra => "error: an option takes no value"

end Rulebook.UsageFault
