import Sos.Properties.Loads
import Sos.Properties.VnodeCounts
import Sos.Properties.Deletion
import Sos.Properties.Waiting
import Sos.Properties.SlotAllocator
import Sos.Properties.Lists
import Sos.Properties.SwapRoundTrip
import Sos.Properties.ElfPages
import Sos.Properties.FreshPages
import Sos.Properties.GivenBack
import Sos.Properties.Accounting
import Sos.Properties.DeadRequester
import Sos.Properties.QueueDiscipline
import Sos.Properties.SecondChance
import Sos.Properties.StatRecord
import Sos.Properties.RegionLayout
import Sos.Properties.PidAllocation
import Sos.Properties.FullTables
import Sos.Properties.PidArguments
import Sos.Properties.VnodeList
import Sos.Vfs.Output
import Sos.Properties.TableWords
import Sos.Properties.TimerArmed
import Sos.Properties.Uptime
import Sos.Properties.Shell
import Sos.Properties.SeekEnd
import Sos.Properties.Dirents
import Sos.Properties.StdFiles
import Sos.Properties.CopyChain
import Sos.Properties.KernelHeap
