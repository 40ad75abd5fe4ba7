import MintAudit.Explore.Written
import MintAudit.Main
import MintAudit.Proofs.Audit.Directories
import MintAudit.Proofs.Compiler.Version
import MintAudit.Proofs.Detector.UnrestrictedSender
import MintAudit.Proofs.Explore.EmptyEvents
import MintAudit.Proofs.Explore.FreshNames
import MintAudit.Proofs.Explore.Partition
import MintAudit.Proofs.Explore.ProgramCounter
import MintAudit.Proofs.Layout.Packing
import MintAudit.Proofs.Listing.Disassembly
import MintAudit.Proofs.Machine.ByteMemory
import MintAudit.Proofs.Machine.Constants
import MintAudit.Proofs.Machine.StackEffect
import MintAudit.Proofs.Machine.StorageMap
import MintAudit.Proofs.Project.SlotMaps
import MintAudit.Proofs.SourceMap.Parameters
import MintAudit.Proofs.SyntaxTree.SafeMint
import MintAudit.Proofs.Word.Renaming
import MintAudit.Survey
import MintAudit.Term.Sample
import MintAudit.Workload.All
