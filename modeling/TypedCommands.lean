import TypedCommands.Dump
import TypedCommands.Main
import TypedCommands.Proofs.Admission
import TypedCommands.Proofs.Arithmetic
import TypedCommands.Proofs.Buffering
import TypedCommands.Proofs.Caret
import TypedCommands.Proofs.Cursor
import TypedCommands.Proofs.Evaluation
import TypedCommands.Proofs.Extension
import TypedCommands.Proofs.Fallback
import TypedCommands.Proofs.Faults
import TypedCommands.Proofs.Firing
import TypedCommands.Proofs.Identifiers
import TypedCommands.Proofs.Layout
import TypedCommands.Proofs.Listings
import TypedCommands.Proofs.Logic
import TypedCommands.Proofs.Matching
import TypedCommands.Proofs.Modes
import TypedCommands.Proofs.Numbers
import TypedCommands.Proofs.Prefixes
import TypedCommands.Proofs.Recovery
import TypedCommands.Proofs.Relexing
import TypedCommands.Proofs.Rendering
import TypedCommands.Proofs.Rereading
import TypedCommands.Proofs.Respelling
import TypedCommands.Proofs.RoundTrip
