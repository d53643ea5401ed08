import Molt.Lib.Wp
import Molt.Lib.Bytes
import Molt.Fs.Format
import Molt.Fs.Mount
import Molt.Fs.Proofs.Map
import Molt.Lib.Disk
import Molt.Lib.Sieve
import Molt.Lib.Sorted
import Molt.Core.Proofs.Capability
import Molt.Core.Proofs.Ring
import Molt.Fs.Proofs.Epoch
import Molt.Fs.Proofs.Serve
import Molt.Block.Proofs.Parking
import Molt.Lib.Barrier
import Molt.Domain.Proofs.Admit
import Molt.Abi.Proofs.Client
import Molt.Abi.Proofs.Wire
import Molt.Net.Proofs.Service
import Molt.Tcp.Proofs.Service
import Molt.Udp.Proofs.Delivery
import Molt.Rt.Proofs.Exec
import Molt.Rt.Proofs.Timer
import Molt.Alloc.Proofs.Heap
import Molt.Virtio.Proofs.Queue
import Molt.Platform.Proofs.Enter
import Molt.Platform.Proofs.Tlb
import Molt.Core.Proofs.Interrupt
import Molt.Nvme.Proofs.Engine
import Molt.Virtio.Proofs.Block
import Molt.Virtio.Proofs.Iommu
import Molt.Platform.Proofs.Paging
import Molt.Platform.Proofs.Refusal
import Molt.Kernel.Proofs.Smp
import Molt.Fs.Proofs.Checksum
import Molt.Fs.Proofs.Codec
import Molt.Platform.Proofs.Config
import Molt.Arch.Proofs.Cache
import Molt.Core.Proofs.Supervisor
import Molt.Arch.Proofs.Memory
import Molt.Virtio.Proofs.Transport
import Molt.Fs.Proofs.Snapshot
import Molt.Fs.Proofs.Damage
import Molt.Block.Proofs.Engines
