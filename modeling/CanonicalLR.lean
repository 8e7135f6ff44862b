import CanonicalLR.Main
import CanonicalLR.Proofs.Automaton.Numbering
import CanonicalLR.Proofs.Command.Lines
import CanonicalLR.Proofs.CommandLine
import CanonicalLR.Proofs.Grammar.Augmentation
import CanonicalLR.Proofs.Grammar.Layout
import CanonicalLR.Proofs.Grammar.RuleNumbers
import CanonicalLR.Proofs.ItemSet.Listing
import CanonicalLR.Proofs.Machine.Reentry
import CanonicalLR.Proofs.Machine.Resumption
import CanonicalLR.Proofs.Parser.Building
import CanonicalLR.Proofs.Parser.Policy
import CanonicalLR.Proofs.Parser.Recovery
import CanonicalLR.Proofs.Parser.StackPaths
import CanonicalLR.Proofs.Parser.Stalling
import CanonicalLR.Proofs.Parser.ValidItems
import CanonicalLR.Proofs.Report.ActionTable
import CanonicalLR.Proofs.Report.Box
