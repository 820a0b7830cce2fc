import JurkOS.Kernel.Fs.NameField
import JurkOS.Kernel.Fs.ParentLinks
import JurkOS.Kernel.KheapRequests
import JurkOS.Kernel.PmmContracts
import JurkOS.Kernel.KheapRuns
import JurkOS.Kernel.PmmRuns
import JurkOS.Kernel.PagingRuns
import JurkOS.Kernel.Drivers.Shift
import JurkOS.Kernel.Drivers.E1000
import JurkOS.Kernel.Drivers.Echo
import JurkOS.Kernel.Drivers.Pci
import JurkOS.Kernel.Drivers.Serial
import JurkOS.Kernel.Shell
import JurkOS.Kernel.Fs.Mounts
import JurkOS.Kernel.Fs.Boot
import JurkOS.Kernel.Fs.Addressing
import JurkOS.Kernel.Fs.Fat32Files
import JurkOS.Kernel.Fs.Lookup
import JurkOS.Kernel.Fs.Listing
import JurkOS.Kernel.Fs.DiskRuns
import JurkOS.Kernel.Fs.Devices
import JurkOS.Kernel.Fs.FileReads
import JurkOS.Kernel.Fs.Scans
import JurkOS.Kernel.Fs.Exhaustion
import JurkOS.Kernel.Fs.Kinds
import JurkOS.Kernel.Fs.DeviceTree
import JurkOS.Kernel.Loader.Bounds
import JurkOS.Kernel.Loader.Histories
import JurkOS.Kernel.Loader.WholeFiles
import JurkOS.Kernel.Loader.MapRights
import JurkOS.Kernel.Loader.Flat
import JurkOS.Kernel.Loader.Agreement
import JurkOS.Kernel.Hardware.Adoption
import JurkOS.Userland.Login
import JurkOS.Userland.Files
import JurkOS.Userland.Removal
import JurkOS.Userland.Install
import JurkOS.Userland.Metadata
import JurkOS.Userland.Catalog
import JurkOS.Userland.Wget
import JurkOS.Userland.WifiRenames
import JurkOS.Userland.StoreLoop
import JurkOS.Userland.Url
import JurkOS.Userland.Copy
import JurkOS.Kernel.IntToStr
import JurkOS.Userland.Tokens
import JurkOS.Userland.Tail
import JurkOS.Userland.Sort
import JurkOS.Userland.WifiSignals
import JurkOS.Kernel.Fs.ShortNames
import JurkOS.Kernel.Drivers.FormatReads
import JurkOS.Kernel.Interrupts.Idt
import JurkOS.Kernel.Interrupts.Board
import JurkOS.Userland.Refresh
import JurkOS.Kernel.Drivers.Transmit
import JurkOS.Userland.Session
import JurkOS.Kernel.Interrupts.Panic
import JurkOS.Userland.WifiMenu
