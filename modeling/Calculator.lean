import Calculator.Main
import Calculator.Tree.Parser
import Calculator.Proofs.CheckedExact
import Calculator.Proofs.EvaluateExact
import Calculator.Proofs.CursorStep
import Calculator.Proofs.ScriptStep
import Calculator.Proofs.LexicalLanguage
import Calculator.Proofs.GrammarAcceptance
import Calculator.Proofs.GrammarInorder
import Calculator.Proofs.LexicalReading
import Calculator.Proofs.ScriptAppend
import Calculator.Proofs.GrammarFaults
import Calculator.Proofs.GrammarLayout
import Calculator.Proofs.Parenthesised
import Calculator.Proofs.GrammarProducts
import Calculator.Proofs.ProductSpelling
import Calculator.Proofs.StageFaults
import Calculator.Proofs.ParsedTrees
import Calculator.Proofs.StrictUtf8
import Calculator.Proofs.CharacterCut
import Calculator.Proofs.PlainText
import Calculator.Proofs.QuotedStrict
import Calculator.Proofs.JsonGrammar
import Calculator.Proofs.JsonNumerals
import Calculator.Proofs.JsonStrings
import Calculator.Proofs.JsonDocument
import Calculator.Proofs.CursorCalls
import Calculator.Proofs.DocumentOutput
import Calculator.Proofs.CallDepth
import Calculator.Proofs.DocumentDecoding
import Calculator.Proofs.JoinedTexts
import Calculator.Proofs.EvaluateFaults
import Calculator.Proofs.JsonReading
import Calculator.Proofs.FaultDocuments
import Calculator.Proofs.SyntaxShapes
import Calculator.Proofs.QuotedDecoding
import Calculator.Proofs.PrintedNumbers
import Calculator.Proofs.PointedNumerals
import Calculator.Proofs.CommandLineReading
import Calculator.Proofs.Tracing
import Calculator.Proofs.TreeEquality
import Calculator.Proofs.TreeDump
import Calculator.Proofs.LevelBalance
import Calculator.Proofs.CheckedSafety
import Calculator.Proofs.BlankAnswers
