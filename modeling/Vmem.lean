import Vmem.Theorems.BrokerCounts
import Vmem.Theorems.BrokerOrder
import Vmem.Theorems.Stack
import Vmem.Theorems.StrongGuarantee
import Vmem.System
import Vmem.Theorems.ClientAgreement
import Vmem.Theorems.MemoryCap
import Vmem.Theorems.Packets
import Vmem.Theorems.Admission
import Vmem.Theorems.OverLimit
import Vmem.Theorems.LinkLoss
import Vmem.Theorems.Fencing
import Vmem.Theorems.PoolSizes
import Vmem.Theorems.Manager
import Vmem.Theorems.Containment
import Vmem.Theorems.Runner
import Vmem.Theorems.Grammar
import Vmem.Theorems.Numbers
import Vmem.Theorems.Log
import Vmem.Theorems.Config
import Vmem.Theorems.VMMVector
import Vmem.Theorems.Tenancy
import Vmem.Theorems.Runtime
import Vmem.Theorems.Shared
