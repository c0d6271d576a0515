import SearchQuery.Edit
import SearchQuery.Inspect
import SearchQuery.Value.Decoder
import SearchQuery.Proofs.Token.Collecting
import SearchQuery.Proofs.Token.Class
import SearchQuery.Proofs.Token.Segmentation
import SearchQuery.Proofs.Parser.Query
import SearchQuery.Proofs.Grammar
import SearchQuery.Proofs.Grammar.Phrase
import SearchQuery.Proofs.Grammar.Formula
import SearchQuery.Proofs.Grammar.Clause
import SearchQuery.Proofs.Grammar.Query
import SearchQuery.Proofs.Grammar.Replay
import SearchQuery.Proofs.Canonical.Spelling
import SearchQuery.Proofs.Canonical.Derivation
import SearchQuery.Proofs.Canonical.RoundTrip
import SearchQuery.Proofs.Formula.Alike
import SearchQuery.Proofs.Formula.Place
import SearchQuery.Proofs.Promotion.Transcription
import SearchQuery.Proofs.Promotion.Canonical
import SearchQuery.Proofs.Nesting.Limit
import SearchQuery.Proofs.Fault
import SearchQuery.Proofs.Fault.Reading
import SearchQuery.Proofs.Fault.Viable
import SearchQuery.Proofs.Fault.Completion
import SearchQuery.Proofs.Fault.Report
import SearchQuery.Proofs.Fault.Admission
import SearchQuery.Proofs.Fault.Resumption
import SearchQuery.Proofs.Composition
import SearchQuery.Proofs.Fault.Continuation
import SearchQuery.Proofs.Fault.Expectation
import SearchQuery.Proofs.Fault.Separation
import SearchQuery.Proofs.Nesting.Level
import SearchQuery.Proofs.Substitution.Context
import SearchQuery.Proofs.Substitution.Filling
import SearchQuery.Proofs.Substitution.Escape
import SearchQuery.Proofs.FieldTerm
import SearchQuery.Proofs.Token.Stray
import SearchQuery.Proofs.Quotation
import SearchQuery.Proofs.Formula.Filter
import SearchQuery.Proofs.Canonical.Filter
import SearchQuery.Proofs.Formula.Calls
import SearchQuery.Proofs.Term.Source
import SearchQuery.Proofs.Term.Bound
import SearchQuery.Proofs.Token.Wildcard
import SearchQuery.Proofs.Term.Classes
import SearchQuery.Proofs.Term.Decoding
import SearchQuery.Proofs.Term.Distance
import SearchQuery.Proofs.Token.Session
import SearchQuery.Proofs.Token.Concatenation
import SearchQuery.Proofs.Nesting.Progress
