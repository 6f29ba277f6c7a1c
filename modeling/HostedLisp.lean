import HostedLisp.Console
import HostedLisp.Decimal.Bits
import HostedLisp.Decimal.Exact
import HostedLisp.Decimal.Rounding
import HostedLisp.Decimal.Shortest
import HostedLisp.Error
import HostedLisp.Eval
import HostedLisp.Eval.Fuel
import HostedLisp.Expression
import HostedLisp.Expression.Equality
import HostedLisp.Expression.Inspection
import HostedLisp.Expression.Items
import HostedLisp.Form
import HostedLisp.Host
import HostedLisp.Host.Standard
import HostedLisp.Keyword
import HostedLisp.Main
import HostedLisp.Number
import HostedLisp.Number.Reading
import HostedLisp.Program
import HostedLisp.Proofs.Console.Agreement
import HostedLisp.Proofs.Console.Lines
import HostedLisp.Proofs.Evaluation.Actions
import HostedLisp.Proofs.Evaluation.Adequacy
import HostedLisp.Proofs.Evaluation.Building
import HostedLisp.Proofs.Evaluation.Calls
import HostedLisp.Proofs.Evaluation.Code
import HostedLisp.Proofs.Evaluation.Complaints
import HostedLisp.Proofs.Evaluation.Invariants
import HostedLisp.Proofs.Evaluation.Renaming
import HostedLisp.Proofs.Evaluation.Rules
import HostedLisp.Proofs.Evaluation.Simulation
import HostedLisp.Proofs.Evaluation.Steps
import HostedLisp.Proofs.Evaluation.Uniform
import HostedLisp.Proofs.Reading.Descent
import HostedLisp.Proofs.Reading.FaultyLexeme
import HostedLisp.Proofs.Reading.FirstWrongToken
import HostedLisp.Proofs.Reading.Grammar
import HostedLisp.Proofs.Reading.Layout
import HostedLisp.Proofs.Reading.LongestMatch
import HostedLisp.Proofs.Reading.Margins
import HostedLisp.Proofs.Reading.Places
import HostedLisp.Proofs.Reading.Rereading
import HostedLisp.Proofs.Reading.RoundTrip
import HostedLisp.Proofs.Reading.Seams
import HostedLisp.Proofs.Reading.Shapes
import HostedLisp.Proofs.Scopes.AppliedLambda
import HostedLisp.Proofs.Scopes.Assignment
import HostedLisp.Proofs.Scopes.Chains
import HostedLisp.Proofs.Scopes.EmptyScope
import HostedLisp.Proofs.Scopes.Parameters
import HostedLisp.Proofs.Scopes.Reach
import HostedLisp.Proofs.Scopes.Shape
import HostedLisp.Proofs.Scopes.SharedFrames
import HostedLisp.Proofs.Sessions.DataAndCode
import HostedLisp.Proofs.Sessions.Displayed
import HostedLisp.Proofs.Sessions.FirstFailure
import HostedLisp.Proofs.Sessions.Guards
import HostedLisp.Proofs.Sessions.Reserved
import HostedLisp.Proofs.Sessions.Splitting
import HostedLisp.Proofs.Sessions.Termination
import HostedLisp.Proofs.Sessions.Unreadable
import HostedLisp.Proofs.Sessions.WellFormed
import HostedLisp.Proofs.Values.Cells
import HostedLisp.Proofs.Values.Equality
import HostedLisp.Proofs.Values.Lists
import HostedLisp.Proofs.Values.PlainData
import HostedLisp.Proofs.Values.Shortcut
import HostedLisp.Session
import HostedLisp.Store
import HostedLisp.Store.Lemmas
import HostedLisp.Text.Blank
import HostedLisp.Text.Quoted
import HostedLisp.Token
import HostedLisp.Token.Interchange
import HostedLisp.Token.Scan
