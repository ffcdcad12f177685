import RawDish.Rpc.Snapshot
import RawDish.Rpc.Departure
import RawDish.Rpc.Losses
import RawDish.Rpc.Abort
import RawDish.Rpc.Hostile
import RawDish.Rpc.Answered
import RawDish.Util.LruInvariant
import RawDish.Util.BloomRun
import RawDish.Util.Url
import RawDish.BlockStore.Confinement
import RawDish.BlockStore.Iteration
import RawDish.BlockStore.Capacity
import RawDish.BlockStore.SharedStores
import RawDish.BlockStore.Network
