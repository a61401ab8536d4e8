import Lexis.Acceptance
import Lexis.Directory
import Lexis.Lexer.Session
import Lexis.Main
import Lexis.Source.FileSpan
import Lexis.Proofs.ByteClass
import Lexis.Proofs.Scan.Munch
import Lexis.Proofs.Scan.Tokens
import Lexis.Proofs.Scan.Tokenization
import Lexis.Proofs.Scan.Layout
import Lexis.Proofs.Stream.Strays
import Lexis.Proofs.Text.Reading
import Lexis.Proofs.Command.Outcome
import Lexis.Proofs.Command.LineEndings
import Lexis.Proofs.Source.Partition
import Lexis.Proofs.Lexer.Cursor
import Lexis.Proofs.Lexer.Position
import Lexis.Proofs.Lexer.Registers
import Lexis.Proofs.Lexer.Reach
import Lexis.Proofs.Scan.Seam
import Lexis.Proofs.Stream.Places
import Lexis.Proofs.Stream.Pointing
import Lexis.Proofs.Command.Dump
import Lexis.Proofs.Source.Extents
import Lexis.Proofs.Source.Underlines
import Lexis.Proofs.Source.Rows
import Lexis.Proofs.Source.Notes
import Lexis.Proofs.Stream.Making
import Lexis.Proofs.Scan.Kinds
import Lexis.Proofs.Command.Parsing
import Lexis.Proofs.Acceptance
