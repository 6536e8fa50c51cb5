import GrammarTables.JsonAnswer
import GrammarTables.Main
import GrammarTables.Proofs.Automaton.Numbering
import GrammarTables.Proofs.Automaton.TableText
import GrammarTables.Proofs.CommandLine
import GrammarTables.Proofs.Grammar.Printing
import GrammarTables.Proofs.Grammar.Registry
import GrammarTables.Proofs.Predictive.Completeness
import GrammarTables.Proofs.Predictive.Faults
import GrammarTables.Proofs.Predictive.Halting
import GrammarTables.Proofs.Predictive.Preorder
import GrammarTables.Proofs.Predictive.Rejection
import GrammarTables.Proofs.Predictive.Soundness
import GrammarTables.Proofs.Predictive.TreeJson
import GrammarTables.Proofs.Reordering
import GrammarTables.Proofs.RoundLimit
import GrammarTables.Proofs.Report.Latex
import GrammarTables.Proofs.Token
