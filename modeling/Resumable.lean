import Resumable.Assembly.Draft
import Resumable.CodeUnit.Reader
import Resumable.Command.Browser
import Resumable.Command.CommandLine
import Resumable.Command.Disk
import Resumable.Exec.Script
import Resumable.Exec.Thread
import Resumable.Instr.Jump
import Resumable.Listing
import Resumable.Main
import Resumable.Proofs.Assembly.Extents
import Resumable.Proofs.Assembly.Loading
import Resumable.Proofs.Assembly.RoundTrip
import Resumable.Proofs.CodeUnit.Body
import Resumable.Proofs.CodeUnit.Completion
import Resumable.Proofs.CodeUnit.Denotation
import Resumable.Proofs.CodeUnit.Reencoding
import Resumable.Proofs.Command.Outputs
import Resumable.Proofs.Emission.Protection
import Resumable.Proofs.Emission.Spilling
import Resumable.Proofs.Exec.Delivery
import Resumable.Proofs.Exec.Safety
import Resumable.Proofs.Flow.Faithful
import Resumable.Proofs.Live.Paths
import Resumable.Proofs.Transform.Equivalence
import Resumable.Proofs.Transform.Idempotence
import Resumable.Proofs.Typing.Ascent
import Resumable.Proofs.Typing.Heights
import Resumable.Proofs.Typing.Principal
import Resumable.Text.Template
import Resumable.Transform
