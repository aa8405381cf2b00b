import AtomLisp.Main
import AtomLisp.Proofs.FrameChanges
import AtomLisp.Proofs.Handlers
import AtomLisp.Proofs.LexicalScope
import AtomLisp.Proofs.LoadFile
import AtomLisp.Proofs.Quasiquote
import AtomLisp.Proofs.Reading.Accepting
import AtomLisp.Proofs.Reading.Joining
import AtomLisp.Proofs.RoundTrip
import AtomLisp.Proofs.Conduct
import AtomLisp.Proofs.Conversation
import AtomLisp.Proofs.Failures
import AtomLisp.Proofs.MalformedFiles
import AtomLisp.Proofs.FrameHistory
import AtomLisp.Proofs.Equality
import AtomLisp.Proofs.RoundTrip.Forms
import AtomLisp.Proofs.MacroExpansion
import AtomLisp.Proofs.ArgumentBinding
import AtomLisp.Proofs.Throwing
import AtomLisp.Proofs.Nesting
import AtomLisp.Proofs.TailPositions
import AtomLisp.Proofs.Cond
import AtomLisp.Proofs.HashMaps
import AtomLisp.Proofs.FailedCalls
import AtomLisp.Proofs.DirectCalls
import AtomLisp.Proofs.TextDrivers
import AtomLisp.Proofs.Division
import AtomLisp.Proofs.Cycles
import AtomLisp.Proofs.Interchange
import AtomLisp.Proofs.Reading.Literals
import AtomLisp.Proofs.Characters
import AtomLisp.Proofs.Shapes
import AtomLisp.Proofs.CheckedNames
import AtomLisp.Proofs.Sequences
