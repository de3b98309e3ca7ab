import FileKLRM.LogFs.Durability
import FileKLRM.LogFs.PartialAppend
import FileKLRM.LogFs.MakeFs
import FileKLRM.LogFs.UnmountRace
import FileKLRM.LogFs.OpenFiles
import FileKLRM.Monitor.Interference
import FileKLRM.Monitor.Gate
import FileKLRM.Monitor.Isolation
import FileKLRM.PathStore.Grammar
import FileKLRM.PathStore.InodeTable
import FileKLRM.PathStore.TableCleanup
import FileKLRM.PathStore.TrieRefinement
import FileKLRM.PathStore.Store
import FileKLRM.PathStore.LockBalance
import FileKLRM.PathStore.Representation
import FileKLRM.PathStore.Verdict
import FileKLRM.PathStore.Agreement
import FileKLRM.PathStore.Protection
import FileKLRM.PathStore.Serial
import FileKLRM.PathStore.DentryTraversal
import FileKLRM.PathStore.Freshness
import FileKLRM.PathStore.PathField
import FileKLRM.PathStore.Creation
import FileKLRM.Monitor.AuditTrail
import FileKLRM.Monitor.Client
import FileKLRM.Monitor.ClientSession
import FileKLRM.Monitor.ModuleLife
import FileKLRM.Core.PrefixTree
