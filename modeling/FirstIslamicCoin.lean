import FirstIslamicCoin.Chain.SkipList
import FirstIslamicCoin.ClientWallet.BumpFee
import FirstIslamicCoin.ClientWallet.Message
import FirstIslamicCoin.ClientWallet.MultisigFee
import FirstIslamicCoin.ClientWallet.OfflineSigning
import FirstIslamicCoin.ClientWallet.SendChange
import FirstIslamicCoin.Consensus.Maturity
import FirstIslamicCoin.Electrum.Deserializer
import FirstIslamicCoin.Electrum.Reorg
import FirstIslamicCoin.Net.HeaderSpamFilter
import FirstIslamicCoin.StakingService.Crediting
import FirstIslamicCoin.StakingService.DepositCredit
import FirstIslamicCoin.StakingService.History
import FirstIslamicCoin.Validation.ClockIndependence
import FirstIslamicCoin.Validation.ContextualHeader
import FirstIslamicCoin.Validation.Recovery
import FirstIslamicCoin.Validation.StakeKernel
import FirstIslamicCoin.Validation.UndoLaw
import FirstIslamicCoin.Wallet.Staking
