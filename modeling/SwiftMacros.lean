import SwiftMacros.Expansion.Run
import SwiftMacros.Expansion.Report
import SwiftMacros.Diagnostic.Reading
import SwiftMacros.Settings.Load
import SwiftMacros.Files.Tree
import SwiftMacros.Command.Run
import SwiftMacros.Main
import SwiftMacros.Proofs.StrictMode
import SwiftMacros.Proofs.Command.Check
import SwiftMacros.Proofs.Cursor.Arranged
import SwiftMacros.Proofs.Cursor.Slice
import SwiftMacros.Proofs.Expansion.Disjoint
import SwiftMacros.Proofs.Expansion.Fixpoint
import SwiftMacros.Proofs.Token.Comments
import SwiftMacros.Proofs.Token.Coordinates
import SwiftMacros.Proofs.Expansion.FieldReport
import SwiftMacros.Proofs.Expansion.History
import SwiftMacros.Proofs.Expansion.Lexical
import SwiftMacros.Proofs.Expansion.Reported
import SwiftMacros.Proofs.Expansion.Siteless
import SwiftMacros.Proofs.Parser.Attempt
import SwiftMacros.Proofs.Parser.Session
import SwiftMacros.Proofs.Tree.Verbatim
import SwiftMacros.Proofs.WeakSelf
import SwiftMacros.Proofs.Cursor.Grains
import SwiftMacros.Proofs.Cursor.Level
import SwiftMacros.Proofs.Cursor.Retrace
import SwiftMacros.Proofs.Grammar.Paired
import SwiftMacros.Proofs.Grammar.Replay
import SwiftMacros.Proofs.Grammar.Tiles
import SwiftMacros.Proofs.Setter.Omission
import SwiftMacros.Proofs.Layout
import SwiftMacros.Proofs.Cursor.Yields
import SwiftMacros.Proofs.Grammar.Echo
import SwiftMacros.Proofs.Grammar.Rebuilt
import SwiftMacros.Proofs.Grammar.Signature
import SwiftMacros.Proofs.Cursor.Room
import SwiftMacros.Proofs.Expansion.Removal
import SwiftMacros.Proofs.Tree.Members
import SwiftMacros.Proofs.Grammar.Fenced
import SwiftMacros.Proofs.Tree.Matching
import SwiftMacros.Proofs.Grammar.Twins
import SwiftMacros.Proofs.Grammar.Rejoined
import SwiftMacros.Proofs.Grammar.Links
import SwiftMacros.Proofs.Grammar.Chain
import SwiftMacros.Proofs.Grammar.Shared
import SwiftMacros.Proofs.Cursor.Shifted
import SwiftMacros.Proofs.Grammar.Accessors
import SwiftMacros.Proofs.Token.Faults
import SwiftMacros.Proofs.Tree.StringValue
import SwiftMacros.Proofs.Settings.Names
import SwiftMacros.Proofs.Tree.Relayout
import SwiftMacros.Proofs.Trace.Mutations
import SwiftMacros.Proofs.Command.Answers
import SwiftMacros.Proofs.Parser.Progress
import SwiftMacros.Proofs.Token.Boundary
import SwiftMacros.Proofs.Command.Traces
import SwiftMacros.Proofs.Setter.Typed
import SwiftMacros.Proofs.Expansion.Nesting
import SwiftMacros.Proofs.Expansion.Units
