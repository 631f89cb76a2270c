import LeoEdk.Theorems.SignedFirmware
import LeoEdk.Theorems.PartitionImage
import LeoEdk.Theorems.Reboots
import LeoEdk.Theorems.FailClosed
import LeoEdk.Theorems.ImageBinding
import LeoEdk.Theorems.Iterators
import LeoEdk.Theorems.MemoryDescriptors
import LeoEdk.Theorems.MemoryPartition
import LeoEdk.Theorems.PoolBuffers
import LeoEdk.Theorems.PolicyLock
import LeoEdk.Theorems.PolicyTable
import LeoEdk.Theorems.SignatureAppend
import LeoEdk.Theorems.KeyAuthority
import LeoEdk.Theorems.Ip4Reassembly
import LeoEdk.Theorems.GptPartitions
import LeoEdk.Theorems.ByteAccess
import LeoEdk.Theorems.ClusterChains
import LeoEdk.Theorems.DecimalText
import LeoEdk.Theorems.ModeChange
import LeoEdk.Theorems.FileTrailer
import LeoEdk.Theorems.LoadedImage
import LeoEdk.Theorems.BaseAnswer
import LeoEdk.Theorems.DeviceCertificate
import LeoEdk.Theorems.PemText
import LeoEdk.Theorems.LogBounds
import LeoEdk.Theorems.TcpStream
import LeoEdk.Theorems.LanguageCodes
import LeoEdk.Theorems.StoreConversion
import LeoEdk.Theorems.HardwareSerials
import LeoEdk.Theorems.LogScan
import LeoEdk.Theorems.FreePages
import LeoEdk.Theorems.GcdAttributes
import LeoEdk.Theorems.Base64
import LeoEdk.Theorems.NetBuffers
import LeoEdk.Theorems.CheckedProducts
import LeoEdk.Theorems.BootWrites
import LeoEdk.Theorems.CallFrame
