import Rulebook.Combination
import Rulebook.Command.Program
import Rulebook.Context.Data
import Rulebook.Engine
import Rulebook.Evaluation
import Rulebook.LogFilter
import Rulebook.Main
import Rulebook.Proofs.Combination.Frame
import Rulebook.Proofs.Combination.Joined
import Rulebook.Proofs.Command
import Rulebook.Proofs.Context.Numeral
import Rulebook.Proofs.Context.Stored
import Rulebook.Proofs.Engine
import Rulebook.Proofs.Engine.Metrics
import Rulebook.Proofs.Literal
import Rulebook.Proofs.Record.Agreement
import Rulebook.Proofs.Record.Restored
import Rulebook.Proofs.RuleText.Fields
import Rulebook.Proofs.RuleText.Fragment
import Rulebook.Proofs.RuleText.Grammar
import Rulebook.Proofs.RuleText.Joined
import Rulebook.Proofs.RuleText.Layout
import Rulebook.Proofs.RuleText.Occurrence
import Rulebook.Proofs.RuleText.Words
import Rulebook.Proofs.Tree.Mismatch
import Rulebook.Proofs.Tree.ReadSet
import Rulebook.Record
import Rulebook.RuleRecord
import Rulebook.Settings
import Rulebook.Proofs.Combination.Distinct
import Rulebook.Proofs.Record.FirstFault
import Rulebook.Proofs.Tree.Mirror
import Rulebook.Proofs.Engine.Limits
import Rulebook.Proofs.Order
import Rulebook.Proofs.Literal.Display
import Rulebook.Proofs.Setting
import Rulebook.Proofs.Settings.Layers
import Rulebook.Proofs.Settings.Sources
import Rulebook.Proofs.Tree.Fill
