import BlockFilter.Main
import BlockFilter.Proofs.BitArray
import BlockFilter.Proofs.Training
import BlockFilter.Proofs.Queries
import BlockFilter.Proofs.StoredForms
import BlockFilter.Proofs.FooterGrammar
import BlockFilter.Proofs.FooterRoundTrip
import BlockFilter.Proofs.NoFalseNegatives
import BlockFilter.Proofs.WholeTable
import BlockFilter.Proofs.ExactWords
import BlockFilter.Proofs.ScanRange
import BlockFilter.Proofs.BurstDetection
import BlockFilter.Proofs.FooterFaults
import BlockFilter.Proofs.Offsets
import BlockFilter.Proofs.FooterVerdict
import BlockFilter.Proofs.FooterDamage
import BlockFilter.Proofs.SafeAnswers
import BlockFilter.Proofs.SortedBlocks
import BlockFilter.Proofs.FailOpen
import BlockFilter.Proofs.KeyLines
import BlockFilter.Proofs.KeyTexts
import BlockFilter.Proofs.BuildCommand
import BlockFilter.Proofs.LookupPaths
import BlockFilter.Proofs.ProbePlaces
import BlockFilter.Proofs.BitUnion
import BlockFilter.Proofs.ErrorReach
import BlockFilter.Proofs.RawLayouts
import BlockFilter.Proofs.CanonicalBlocks
import BlockFilter.Proofs.HashSpan
import BlockFilter.Proofs.KeyGroups
import BlockFilter.Proofs.ScanWidth
import BlockFilter.Proofs.Sessions
import BlockFilter.Proofs.NearestNumbers
import BlockFilter.Proofs.BlockGuesses
import BlockFilter.Proofs.ProbeCalls
