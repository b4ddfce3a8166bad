import CSE306.S2DSM.Refinement
import CSE306.S2DSM.Residency
import CSE306.S2DSM.Framing
import CSE306.S2DSM.Startup.History
import CSE306.Perftop.Representation
import CSE306.Perftop.Accounting
import CSE306.Perftop.Report
import CSE306.Perftop.Readings
import CSE306.Perftop.Skipping
import CSE306.Teardown
import CSE306.KDS.Parse
import CSE306.KDS.Module
import CSE306.S2FS.Read
import CSE306.S2FS.Mount
import CSE306.Encrypt
import CSE306.S2DSM.Startup.Sizing
import CSE306.S2DSM.Console
import CSE306.Perftop.Counters
import CSE306.Perftop.Allocation
import CSE306.KDS.Stale
import CSE306.S2DSM.Faulting
import CSE306.KDS.Numbers
import CSE306.S2DSM.Progress
import CSE306.KDS.Log
import CSE306.Perftop.Counting
import CSE306.Perftop.Lifecycle
import CSE306.S2DSM.Private.Session
import CSE306.S2DSM.Turns.Memory
import CSE306.Uffd.Exit
