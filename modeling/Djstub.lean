import Djstub.Loop
import Djstub.Layout
import Djstub.Buffers
import Djstub.Header
import Djstub.Lookup
import Djstub.Coff2exe
import Djstub.Chain
import Djstub.Output
import Djstub.Remove
import Djstub.Restub
import Djstub.Strip
import Djstub.Main
import Djstub.Pack
import Djstub.Reread
import Djstub.Generate
import Djstub.Place
import Djstub.Convert
import Djstub.Fullstub
import Djstub.Handover
import Djstub.Halt
import Djstub.Extents
import Djstub.Loader
import Djstub.Reads
import Djstub.Block
import Djstub.Folds
import Djstub.Hull
import Djstub.Image
import Djstub.Environ
import Djstub.Simulation
import Djstub.Archive
import Djstub.Views
import Djstub.Lifecycle
import Djstub.Program
import Djstub.Dpmi
import Djstub.Startup
import Djstub.Entry
import Djstub.Stubinfo
import Djstub.Preserve
import Djstub.Lines
import Djstub.Djstrip
import Djstub.LowMemory
import Djstub.Ministub
import Djstub.Session
import Djstub.Djlink
