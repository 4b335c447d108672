import CompilingToAssembly.Parser.Pointers
import CompilingToAssembly.Parser.Succession
import CompilingToAssembly.Assembler.Concatenation
import CompilingToAssembly.Assembler.EndToEnd
import CompilingToAssembly.Parser.Coverage
import CompilingToAssembly.Parser.Termination
import CompilingToAssembly.Parser.Printing
import CompilingToAssembly.Parser.Boundaries
import CompilingToAssembly.Assembler.Convention
import CompilingToAssembly.Assembler.Encoding
import CompilingToAssembly.Assembler.Literals
import CompilingToAssembly.Parser.Segments
import CompilingToAssembly.Utilities.Wcat
import CompilingToAssembly.Utilities.Wgrep
import CompilingToAssembly.Xv6.Reservation
import CompilingToAssembly.Xv6.Pipe
import CompilingToAssembly.Xv6.Bio
import CompilingToAssembly.Xv6.Scheduler
import CompilingToAssembly.Xv6.Sleep
import CompilingToAssembly.Xv6.Allocation
import CompilingToAssembly.Xv6.Directory
import CompilingToAssembly.Xv6.Journal
