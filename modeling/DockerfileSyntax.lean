import DockerfileSyntax.Arg
import DockerfileSyntax.Owner
import DockerfileSyntax.Patch
import DockerfileSyntax.Production
import DockerfileSyntax.Proofs.Arg.Creation
import DockerfileSyntax.Proofs.Arg.Renames
import DockerfileSyntax.Proofs.Arg.Values
import DockerfileSyntax.Proofs.Arg.WriteBack
import DockerfileSyntax.Proofs.KeyValue.Creation
import DockerfileSyntax.Proofs.Owner.Creation
import DockerfileSyntax.Proofs.Owner.Edits
import DockerfileSyntax.Proofs.Owner.Parts
import DockerfileSyntax.Proofs.Owner.Removal
import DockerfileSyntax.Proofs.StartPeriod
import DockerfileSyntax.StartPeriod
import DockerfileSyntax.Proofs.Arg.Locality
import DockerfileSyntax.Proofs.Arg.OnTokens
import DockerfileSyntax.Proofs.Atomicity
import DockerfileSyntax.Proofs.KeyValue.OnTokens
import DockerfileSyntax.Proofs.NormalForm.Reached
import DockerfileSyntax.Proofs.Owner.Emptiness
import DockerfileSyntax.Proofs.Owner.OnTokens
import DockerfileSyntax.Proofs.Failures.Furthest
import DockerfileSyntax.Proofs.Failures.Owner
import DockerfileSyntax.Proofs.Respelling.Edits
import DockerfileSyntax.Proofs.Respelling.LineEnds
import DockerfileSyntax.Proofs.Settled
import DockerfileSyntax.Proofs.Identifiers.Values
import DockerfileSyntax.Proofs.Arg.Continued
import DockerfileSyntax.Proofs.Content.Continued
import DockerfileSyntax.Proofs.Identifiers.Quoted
import DockerfileSyntax.Proofs.Stripped
import DockerfileSyntax.Proofs.Mentioned
import DockerfileSyntax.Proofs.Fields
import DockerfileSyntax.Proofs.Content.Separated
import DockerfileSyntax.Proofs.Renaming
import DockerfileSyntax.Proofs.Sessions
import DockerfileSyntax.Proofs.Failures.Rewinding
import DockerfileSyntax.Proofs.Traversal
import DockerfileSyntax.Proofs.Progress
