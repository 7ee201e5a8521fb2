import AssemblyLexer.Main
import AssemblyLexer.Input.Cursor
import AssemblyLexer.Sharing
import AssemblyLexer.Source.Directory
import AssemblyLexer.Proofs.Piece
import AssemblyLexer.Proofs.LineColumn
import AssemblyLexer.Proofs.Stretch
import AssemblyLexer.Proofs.CodecBits
import AssemblyLexer.Proofs.EscapeRun
import AssemblyLexer.Proofs.Escape
import AssemblyLexer.Proofs.Quoted
import AssemblyLexer.Proofs.FaultPlace
import AssemblyLexer.Proofs.Run
import AssemblyLexer.Proofs.Location
import AssemblyLexer.Proofs.Tiling
import AssemblyLexer.Proofs.SelfDelimiting
import AssemblyLexer.Proofs.Relex
import AssemblyLexer.Proofs.Block
import AssemblyLexer.Proofs.Replay
import AssemblyLexer.Proofs.Memoized
import AssemblyLexer.Proofs.DigitValue
import AssemblyLexer.Proofs.NumberGrammar
import AssemblyLexer.Proofs.NumberProgress
import AssemblyLexer.Proofs.NumberScan
import AssemblyLexer.Proofs.NameGrowth
import AssemblyLexer.Proofs.InPlaceLiteral
import AssemblyLexer.Proofs.InPlaceCall
import AssemblyLexer.Proofs.Sharing
import AssemblyLexer.Proofs.Lookahead
import AssemblyLexer.Proofs.SegmentName
import AssemblyLexer.Proofs.NameRoom
import AssemblyLexer.Proofs.Solo
import AssemblyLexer.Proofs.Interference
import AssemblyLexer.Proofs.Extension
import AssemblyLexer.Proofs.Likeness
import AssemblyLexer.Proofs.Restart
import AssemblyLexer.Proofs.Unbroken
import AssemblyLexer.Proofs.ScannerTable
import AssemblyLexer.Name.History
import AssemblyLexer.Proofs.LineEnding
import AssemblyLexer.Proofs.NameStorage
import AssemblyLexer.Proofs.NameHistory
import AssemblyLexer.Proofs.Interning
import AssemblyLexer.Proofs.Decoding
import AssemblyLexer.Proofs.Validity
import AssemblyLexer.Proofs.Content
import AssemblyLexer.Proofs.PieceToken
import AssemblyLexer.Proofs.Operator
import AssemblyLexer.Proofs.Spelling
import AssemblyLexer.Proofs.Unended
import AssemblyLexer.Proofs.Parting
import AssemblyLexer.Proofs.Literal
import AssemblyLexer.Proofs.ValidSource
import AssemblyLexer.Proofs.StatementEnd
import AssemblyLexer.Program
import AssemblyLexer.Proofs.Completion
import AssemblyLexer.Proofs.Contract
import AssemblyLexer.Proofs.ClosingQuote
import AssemblyLexer.Proofs.LiteralGrammar
import AssemblyLexer.Proofs.Codec
import AssemblyLexer.Proofs.Beside
import AssemblyLexer.Proofs.Blanking
import AssemblyLexer.Token.OperatorState
import AssemblyLexer.Proofs.DigitRun
import AssemblyLexer.Proofs.NumberAgreement
import AssemblyLexer.Proofs.LongestMatch
import AssemblyLexer.Proofs.Reachable
import AssemblyLexer.Proofs.LineModes
import AssemblyLexer.Proofs.LineCounts
import AssemblyLexer.Proofs.NameToken
import AssemblyLexer.Name.InPlace
import AssemblyLexer.Proofs.ArenaChain
import AssemblyLexer.Proofs.RawReplay
import AssemblyLexer.Proofs.NamePlacement
import AssemblyLexer.Proofs.NameLedger
import AssemblyLexer.Proofs.Visible
import AssemblyLexer.Proofs.TableRows
import AssemblyLexer.Name.WordArena
import AssemblyLexer.Proofs.Allocation
import AssemblyLexer.Input.Stepwise
import AssemblyLexer.Proofs.ReaderHistory
import AssemblyLexer.Source.Indexed
import AssemblyLexer.Proofs.SourceRegistry
