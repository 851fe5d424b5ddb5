import Gem5Nvm.Proofs.RangeSets
import Gem5Nvm.Proofs.RangeMapLookup
import Gem5Nvm.Proofs.AllocCheckpoint
import Gem5Nvm.Proofs.AllocBacked
import Gem5Nvm.Proofs.Spaces
import Gem5Nvm.Proofs.Clone
import Gem5Nvm.Proofs.Regions
import Gem5Nvm.Proofs.ProcessCheckpoint
import Gem5Nvm.Proofs.PacketOrder
import Gem5Nvm.Proofs.Decode
import Gem5Nvm.Proofs.LrgQueue
import Gem5Nvm.Proofs.SkewedAssociative
import Gem5Nvm.Proofs.TreePlru
import Gem5Nvm.Proofs.DictionaryCompressor
import Gem5Nvm.Proofs.CommandWindow
import Gem5Nvm.Proofs.MshrQueue
import Gem5Nvm.Proofs.SnoopFilter
import Gem5Nvm.Proofs.StackDistance
import Gem5Nvm.Proofs.MiMemory
import Gem5Nvm.Proofs.MiMonitor
import Gem5Nvm.Proofs.Sequencer
import Gem5Nvm.Proofs.EventOrder
import Gem5Nvm.Proofs.CircularIterator
import Gem5Nvm.Proofs.CacheMemory
import Gem5Nvm.Proofs.LockedMemory
import Gem5Nvm.Proofs.FrFcfs
import Gem5Nvm.Proofs.Trie
import Gem5Nvm.Proofs.StoreSet
import Gem5Nvm.Proofs.MessageBuffer
import Gem5Nvm.Proofs.FutexMap
import Gem5Nvm.Proofs.IndirectPredictor
