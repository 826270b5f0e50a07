import LoxCalc.Number.Magnitude
import LoxCalc.Number.Double
import LoxCalc.Number.Decimal
import LoxCalc.Value
import LoxCalc.Token.Kind
import LoxCalc.Token.Basic
import LoxCalc.Source.Segment
import LoxCalc.Source.Scan
import LoxCalc.Expr.Basic
import LoxCalc.Expr.Printer
import LoxCalc.Expr.Postorder
import LoxCalc.Expr.Eval
import LoxCalc.Reading.Frame
import LoxCalc.Reading.Automaton
import LoxCalc.Reading.TokenStream
import LoxCalc.Diagnostic
import LoxCalc.Session
import LoxCalc.Log
import LoxCalc.CommandLine.Arguments
import LoxCalc.CommandLine.Directory
import LoxCalc.CommandLine.Run
import LoxCalc.Main
import LoxCalc.Proofs.Grammar
import LoxCalc.Proofs.ReadingSentences
import LoxCalc.Proofs.TokenStreams
import LoxCalc.Proofs.ValueKinds
import LoxCalc.Proofs.LongestMatch
import LoxCalc.Proofs.ScannedTokens
import LoxCalc.Proofs.CursorScans
import LoxCalc.Proofs.NumberTexts
import LoxCalc.Proofs.PrintableTrees
import LoxCalc.Proofs.Reparsing
import LoxCalc.Proofs.SourceEndings
import LoxCalc.Proofs.SessionHistories
import LoxCalc.Proofs.TreeHeights
import LoxCalc.Proofs.RecursiveDescent
import LoxCalc.Proofs.DescentAgreement
import LoxCalc.Proofs.ReadingProgress
import LoxCalc.Proofs.StageContracts
import LoxCalc.Proofs.LineIndependence
import LoxCalc.Proofs.SourceLayout
import LoxCalc.Proofs.CommandOutputs
import LoxCalc.Proofs.BlamedTokens
import LoxCalc.Proofs.Recovery
import LoxCalc.Proofs.StackMachine
import LoxCalc.Proofs.SurvivingTrees
import LoxCalc.Proofs.SignedLiterals
import LoxCalc.Proofs.JoinedSources
import LoxCalc.Proofs.MendedSources
import LoxCalc.Proofs.SourceLines
import LoxCalc.Proofs.RescannedLexemes
import LoxCalc.Proofs.Concatenations
import LoxCalc.Proofs.DebugForms
import LoxCalc.Proofs.NumberLexemes
import LoxCalc.Proofs.NearestMagnitudes
import LoxCalc.Proofs.NumberValues
