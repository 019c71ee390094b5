import PocketCalculator.Main
import PocketCalculator.Console
import PocketCalculator.Journal
import PocketCalculator.Installation
import PocketCalculator.Proofs.Buffer.Editing
import PocketCalculator.Proofs.Evaluation.Operands
import PocketCalculator.Proofs.Session.Effects
import PocketCalculator.Proofs.Session.Consistency
import PocketCalculator.Proofs.Session.Typing
import PocketCalculator.Proofs.Buffer.FractionMode
import PocketCalculator.Proofs.Evaluation.Refusal
import PocketCalculator.Proofs.Session.Repetition
import PocketCalculator.Proofs.Console.Conversation
import PocketCalculator.Proofs.Unit.Keyed
import PocketCalculator.Proofs.Template.Filled
import PocketCalculator.Proofs.Token.Acceptance
import PocketCalculator.Proofs.Buffer.Atomic
import PocketCalculator.Proofs.Token.Lexemes
import PocketCalculator.Proofs.Token.Products
import PocketCalculator.Proofs.Session.Recall
import PocketCalculator.Proofs.Session.Presentation
import PocketCalculator.Proofs.Token.Places
import PocketCalculator.Proofs.Evaluation.Completeness
import PocketCalculator.Proofs.Evaluation.Blanks
import PocketCalculator.Proofs.Evaluation.Explicit
import PocketCalculator.Proofs.Evaluation.Parentheses
import PocketCalculator.Proofs.Buffer.Splicing
import PocketCalculator.Proofs.Expr.WrittenAns
import PocketCalculator.Proofs.Buffer.FilledSign
import PocketCalculator.Proofs.Token.Signs
import PocketCalculator.Proofs.Buffer.Negation
import PocketCalculator.Proofs.Buffer.Deletion
import PocketCalculator.Proofs.Buffer.Exhaustion
import PocketCalculator.Proofs.Buffer.Support
import PocketCalculator.Proofs.Buffer.EmptiedSign
import PocketCalculator.Proofs.Buffer.Restoration
import PocketCalculator.Proofs.Buffer.Navigation
import PocketCalculator.Proofs.Format.Fixed
import PocketCalculator.Proofs.Format.Fraction
import PocketCalculator.Proofs.Format.Engineering
import PocketCalculator.Proofs.Token.PlainNumber
import PocketCalculator.Proofs.Json.RoundTrip
import PocketCalculator.Proofs.Settings.Loading
import PocketCalculator.Proofs.Format.Minus
import PocketCalculator.Proofs.Unit.Cuts
import PocketCalculator.Proofs.Evaluation.OpenSlots
import PocketCalculator.Proofs.Session.RecalledNumbers
