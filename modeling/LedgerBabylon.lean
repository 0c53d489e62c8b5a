import LedgerBabylon.Boilerplate.Responses
import LedgerBabylon.Client.Descriptors
import LedgerBabylon.Client.InterpreterAgreement
import LedgerBabylon.Client.MerkleUpdates
import LedgerBabylon.Client.PsbtV2
import LedgerBabylon.Client.YieldedResults
import LedgerBabylon.Common.Bip32
import LedgerBabylon.Common.ExactNumbers
import LedgerBabylon.Common.MiniscriptInvariants
import LedgerBabylon.Common.TimelockMixing
import LedgerBabylon.Common.WitnessSizes
import LedgerBabylon.Handler.DerivationCache
import LedgerBabylon.Handler.DerivationFields
import LedgerBabylon.Handler.HonestProof
import LedgerBabylon.Handler.KeyexprPlaces
import LedgerBabylon.Handler.RawTxChunks
import LedgerBabylon.Handler.RawTxFaithful
import LedgerBabylon.Handler.SignMessage
import LedgerBabylon.Handler.SignPsbt.Consent
import LedgerBabylon.Handler.SignPsbt.MusigRound2
import LedgerBabylon.Handler.SortedMultisig
import LedgerBabylon.Handler.SyntacticSugar
import LedgerBabylon.Handler.TemplateCommitment
import LedgerBabylon.Swap.CheckAddress
import LedgerBabylon.Swap.PrintableAmount
import LedgerBabylon.TaprootTweak
