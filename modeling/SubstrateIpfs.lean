import SubstrateIpfs.Ipfs.Commands
import SubstrateIpfs.Ipfs.Ledger
import SubstrateIpfs.Ipfs.RequestLock
import SubstrateIpfs.Knowledge.Content
import SubstrateIpfs.Knowledge.Ownership
import SubstrateIpfs.Offchain.StorageLock
import SubstrateIpfs.Client.IpfsProtocol
import SubstrateIpfs.StateMachine.Rollback
import SubstrateIpfs.StateMachine.NextKey
import SubstrateIpfs.Epochs.Finality
import SubstrateIpfs.Allocator.Safety
import SubstrateIpfs.TransactionPool.Limits
import SubstrateIpfs.TransactionPool.Promotion
import SubstrateIpfs.MessageQueue.Accounting
import SubstrateIpfs.MessageQueue.Delivery
import SubstrateIpfs.MessageQueue.ReadyRing
import SubstrateIpfs.BagsList.Iteration
import SubstrateIpfs.StateDb.DeathRows
import SubstrateIpfs.StateDb.Pins
import SubstrateIpfs.StateDb.Restart
import SubstrateIpfs.Assets.Accounting
import SubstrateIpfs.Sync.Ranges
import SubstrateIpfs.Sync.Ancestry
import SubstrateIpfs.Peerset.Slots
import SubstrateIpfs.Balances.Issuance
import SubstrateIpfs.Balances.Locks
import SubstrateIpfs.Balances.NamedReserves
import SubstrateIpfs.Balances.Fungible
import SubstrateIpfs.Arithmetic.Normalize
import SubstrateIpfs.Arithmetic.Sqrt
import SubstrateIpfs.Runtime.Era
import SubstrateIpfs.Vesting.Schedules
import SubstrateIpfs.NominationPools.Points
