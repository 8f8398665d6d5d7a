import Gyro.Termination
import Gyro.BlockSignature
import Gyro.Stake
import Gyro.Carried
import Gyro.Waiting
import Gyro.Rollback
import Gyro.TemplateFits
import Gyro.ChainHistory
import Gyro.OutputDistribution
import Gyro.Checkpoints
import Gyro.PopBlock
import Gyro.DynamicFee
import Gyro.Embargo
import Gyro.InputCache
import Gyro.Wallet.PoolMessages
import Gyro.Wallet.SmsAuthenticity
import Gyro.QueueHashes
import Gyro.Wallet.TxProof
import Gyro.Wallet.MmsAuthenticity
import Gyro.Wallet.MmsProcessable
import Gyro.RpcCredits
import Gyro.Zyre.Client
import Gyro.Zyre.Groups
import Gyro.ElapsedTimes
import Gyro.PeerList
import Gyro.RunningMeans
import Gyro.Wallet.Detach
import Gyro.Wallet.MultisigAgreement
import Gyro.SpinVectors
import Gyro.GyroWire
import Gyro.Wallet.MmsConfig
import Gyro.Zyre.Http
import Gyro.Zyre.Iterators
import Gyro.Zyre.Layers
import Gyro.Address
import Gyro.Pruning
import Gyro.Zyre.PackJson
import Gyro.TxCompare
import Gyro.RollingWindow
import Gyro.ApplyPermutation
import Gyro.Combinator
import Gyro.Wallet.KeyImage
import Gyro.Wallet.RingDb
